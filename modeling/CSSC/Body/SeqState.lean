import CSSC.Lines.Text
import CSSC.Library.Weave
import Mathlib.Data.List.Range

/-!
# Which lines of the body belong to a version

`seq_state` knows, for every sequence number, whether the delta is included, excluded or ignored in the version that
is wanted, and which `^AI` and `^AD` regions of the body are open. After every bracket it decides anew whether the
text that follows is part of the version.

## The model

Sequence numbers (`seq_no`) are natural numbers, and the vector of the class is a function that is only used up to
`last`. Two facts that the constructor and the setters establish are fields of `OneState` and `SeqState`: at most one
of the three flags is set, and nothing is open beyond `last`. The constructor's loop over a 16-bit counter does not
end for the largest number, hence `last_lt`.

What a `seq_state` stands for is said by `Tracks`: a set of included deltas and the regions that are open. The three
maxima that the code computes decide what the weave says (`decideDisposition_spec`): text is inserted, for `active`,
exactly if the weave shows it for that key; and `start` and `end` follow the brackets of the weave (`start_spec`,
`end_spec` and their converses).
-/

namespace CSSC.Body

open CSSC.Lines CSSC.Library.Weave

/-- The letter of `^AI`. -/
def letterI : UInt8 := 73
/-- The letter of `^AD`. -/
def letterD : UInt8 := 68
/-- The letter of `^AE`. -/
def letterE : UInt8 := 69

/-- `seq_state::one_state`. -/
structure OneState where
  /-- The delta is part of the version. -/
  included : Bool
  /-- The delta was left out on request. -/
  excluded : Bool
  /-- The delta is ignored. -/
  ignored : Bool
  /-- The delta's own lists do not apply. -/
  nonRecursive : Bool
  /-- The delta was named on the command line. -/
  isExplicit : Bool
  /-- A region of the delta is open. -/
  active : Bool
  /-- The letter the region was opened with. -/
  command : UInt8
  /-- The setters clear the other two flags. -/
  exclusive : (included && ignored) = false ∧ (included && excluded) = false ∧ (excluded && ignored) = false
  deriving DecidableEq

namespace OneState

/-- `initial_condition`. -/
def initial : OneState := ⟨false, false, false, false, false, false, 0, by decide⟩

/-- `set_included(n, bNonRecursive)`. -/
def setIncluded (s : OneState) (bNonRecursive : Bool) : OneState :=
  { s with included := true, ignored := false, excluded := false, nonRecursive := bNonRecursive,
           exclusive := by simp }

/-- `set_ignored(n)`. -/
def setIgnored (s : OneState) : OneState :=
  { s with ignored := true, included := false, excluded := false, nonRecursive := true,
           exclusive := by simp }

/-- `set_excluded(n)`. -/
def setExcluded (s : OneState) : OneState :=
  { s with excluded := true, included := false, ignored := false, exclusive := by simp }

/-- `set_explicitly_included(n)`. -/
def setExplicitlyIncluded (s : OneState) : OneState :=
  if s.included then s else { s.setIncluded false with isExplicit := true, nonRecursive := true }

/-- `set_explicitly_excluded(n)`. -/
def setExplicitlyExcluded (s : OneState) : OneState :=
  { s.setExcluded with isExplicit := true, nonRecursive := true }

/-- A region is opened. -/
def opened (s : OneState) (letter : UInt8) : OneState := { s with active := true, command := letter }

/-- The region is closed. -/
def shut (s : OneState) : OneState := { s with active := false, command := 0 }

theorem setExplicitlyIncluded_spec (s : OneState) :
    s.setExplicitlyIncluded.active = s.active ∧ s.setExplicitlyIncluded.included = true := by
  unfold setExplicitlyIncluded
  split
  · exact ⟨rfl, by assumption⟩
  · exact ⟨rfl, rfl⟩

end OneState

/-- `seq_state`. -/
structure SeqState where
  /-- `states_`. -/
  states : ℕ → OneState
  /-- `last_`. -/
  last : ℕ
  /-- `active_`, for `get -m`. -/
  active : ℕ
  /-- `inserting`. -/
  inserting : Bool
  /-- The constructor ends. -/
  last_lt : last < 65535
  /-- No region is opened for a number beyond `last`. -/
  beyond : ∀ k, last < k → (states k).active = false

/-- The three maxima of `decide_disposition`. -/
structure Highest where
  /-- `our_highest_insert`. -/
  insert : ℕ
  /-- `our_highest_delete`. -/
  delete : ℕ
  /-- `owner_of_current_insertion`. -/
  owner : ℕ

/-- One turn of the loop of `decide_disposition`. -/
def Highest.scan (states : ℕ → OneState) (h : Highest) (s : ℕ) : Highest :=
  if (states s).active = false then h
  else if (states s).command = letterI then
    if (states s).included then (if h.insert < s then { h with insert := s } else h)
    else (if h.owner < s then { h with owner := s } else h)
  else if (states s).included then (if h.delete < s then { h with delete := s } else h)
  else h

namespace SeqState

/-- The loop of `decide_disposition`. -/
def highest (ss : SeqState) : Highest := (List.range (ss.last + 1)).foldl (Highest.scan ss.states) ⟨0, 0, 0⟩

/-- `decide_disposition`. -/
def decideDisposition (ss : SeqState) : SeqState :=
  let h := ss.highest
  if h.insert < h.delete then { ss with inserting := false }
  else if h.owner < h.insert then
    { ss with active := h.insert, inserting := !(ss.states h.insert).ignored }
  else { ss with inserting := false }

/-- `seq_state(l)`. -/
def new (l : ℕ) (h : l < 65535) : SeqState :=
  decideDisposition ⟨fun _ => .initial, l, 0, false, h, fun _ _ => rfl⟩

/-- A setter applied to one entry, which opens nothing. -/
def modify (ss : SeqState) (n : ℕ) (f : OneState → OneState) (hf : ∀ s, (f s).active = s.active) :
    SeqState :=
  { ss with
    states := Function.update ss.states n (f (ss.states n))
    beyond := fun k hk => by
      by_cases hkn : k = n
      · subst hkn
        simp [hf, ss.beyond k hk]
      · rw [Function.update_of_ne hkn]
        exact ss.beyond k hk }

/-- `set_included(n, bNonRecursive)`. -/
def setIncluded (ss : SeqState) (n : ℕ) (bNonRecursive : Bool) : SeqState :=
  ss.modify n (·.setIncluded bNonRecursive) fun _ => rfl

/-- `set_ignored(n)`. -/
def setIgnored (ss : SeqState) (n : ℕ) : SeqState := ss.modify n (·.setIgnored) fun _ => rfl

/-- `set_excluded(n)`. -/
def setExcluded (ss : SeqState) (n : ℕ) : SeqState := ss.modify n (·.setExcluded) fun _ => rfl

/-- `set_explicitly_included(n)`. -/
def setExplicitlyIncluded (ss : SeqState) (n : ℕ) : SeqState :=
  ss.modify n (·.setExplicitlyIncluded) fun s => by
    unfold OneState.setExplicitlyIncluded
    split <;> rfl

/-- `set_explicitly_excluded(n)`. -/
def setExplicitlyExcluded (ss : SeqState) (n : ℕ) : SeqState :=
  ss.modify n (·.setExplicitlyExcluded) fun _ => rfl

/-- `seq_state::start`: an `^AI` or `^AD` is read. -/
def start (ss : SeqState) (seq : ℕ) (letter : UInt8) : Except String SeqState :=
  if letter ≠ letterI ∧ letter ≠ letterD then .error "invalid command letter"
  else if h : ss.last < seq then .error "invalid sequence number"
  else if (ss.states seq).active then
    if (ss.states seq).command = letterI then .error "^AI for sequence number which is already active"
    else .error "^AD for sequence number which is already active"
  else .ok (decideDisposition
    { ss with
      states := Function.update ss.states seq ((ss.states seq).opened letter)
      beyond := fun k hk => by
        have e : k ≠ seq := by
          rintro rfl
          exact h hk
        rw [Function.update_of_ne e]
        exact ss.beyond k hk })

/-- `seq_state::end`: an `^AE` is read. -/
def end_ (ss : SeqState) (seq : ℕ) : Except String SeqState :=
  if ss.last < seq then .error "invalid sequence number"
  else if (ss.states seq).active then
    .ok (decideDisposition
      { ss with
        states := Function.update ss.states seq (ss.states seq).shut
        beyond := fun k hk => by
          by_cases e : k = seq
          · subst e
            simp [OneState.shut]
          · rw [Function.update_of_ne e]
            exact ss.beyond k hk })
  else .error "unmatched ^AE"

/-- `include_line`. -/
def includeLine (ss : SeqState) : Bool := ss.inserting

/-- `active_seq`. -/
def activeSeq (ss : SeqState) : ℕ := ss.active

/-! ### The set and the regions a state stands for -/

/-- The included deltas. -/
def includedSet (ss : SeqState) : Set ℕ := {k | (ss.states k).included = true}

/-- The open regions. Number 0 never decides anything: the maxima start from it. -/
def openOf (ss : SeqState) : Open ℕ := fun k =>
  if k = 0 then none
  else if (ss.states k).active then some (if (ss.states k).command = letterI then .ins else .del)
  else none

@[simp] theorem decideDisposition_states (ss : SeqState) : ss.decideDisposition.states = ss.states := by
  unfold decideDisposition
  dsimp only
  split
  · rfl
  · split <;> rfl

@[simp] theorem decideDisposition_last (ss : SeqState) : ss.decideDisposition.last = ss.last := by
  unfold decideDisposition
  dsimp only
  split
  · rfl
  · split <;> rfl

/-- `m` is the largest of the numbers below `n` with a property, 0 when there is none. -/
def IsMax (P : ℕ → Prop) (n m : ℕ) : Prop := (∀ s < n, P s → s ≤ m) ∧ (m = 0 ∨ m < n ∧ P m)

theorem IsMax.skip {P : ℕ → Prop} {n m : ℕ} (h : IsMax P n m) (hn : ¬ P n) : IsMax P (n + 1) m := by
  refine ⟨fun s hs hP => ?_, h.2.imp id fun hm => ⟨by omega, hm.2⟩⟩
  rcases Nat.lt_succ_iff_lt_or_eq.mp hs with h' | rfl
  · exact h.1 s h' hP
  · exact absurd hP hn

theorem IsMax.take {P : ℕ → Prop} {n m : ℕ} (h : IsMax P n m) (hn : P n) :
    IsMax P (n + 1) (if m < n then n else m) := by
  by_cases hm : m < n
  · rw [if_pos hm]
    exact ⟨fun s hs _ => by omega, .inr ⟨by omega, hn⟩⟩
  · rw [if_neg hm]
    refine ⟨fun s hs _ => by omega, .inl ?_⟩
    rcases h.2 with h0 | h1
    · exact h0
    · omega

/-- An included insertion is open. -/
def InsAt (states : ℕ → OneState) (s : ℕ) : Prop :=
  (states s).active = true ∧ (states s).command = letterI ∧ (states s).included = true

/-- An included deletion is open. -/
def DelAt (states : ℕ → OneState) (s : ℕ) : Prop :=
  (states s).active = true ∧ (states s).command ≠ letterI ∧ (states s).included = true

/-- An insertion that is not included is open. -/
def OwnAt (states : ℕ → OneState) (s : ℕ) : Prop :=
  (states s).active = true ∧ (states s).command = letterI ∧ (states s).included = false

/-- **The loop computes the three maxima.** -/
theorem scan_isMax (states : ℕ → OneState) (n : ℕ) :
    IsMax (InsAt states) n ((List.range n).foldl (Highest.scan states) ⟨0, 0, 0⟩).insert ∧
    IsMax (DelAt states) n ((List.range n).foldl (Highest.scan states) ⟨0, 0, 0⟩).delete ∧
    IsMax (OwnAt states) n ((List.range n).foldl (Highest.scan states) ⟨0, 0, 0⟩).owner := by
  induction n with
  | zero => simp [IsMax]
  | succ n ih =>
    obtain ⟨hi, hd, ho⟩ := ih
    simp only [List.range_succ, List.foldl_append, List.foldl_cons, List.foldl_nil]
    generalize (List.range n).foldl (Highest.scan states) ⟨0, 0, 0⟩ = h at hi hd ho ⊢
    by_cases ha : (states n).active = true
    · by_cases hc : (states n).command = letterI <;> by_cases hin : (states n).included = true
      · have := hi.take ⟨ha, hc, hin⟩
        simp only [Highest.scan, ha, hc, hin, if_true, Bool.true_eq_false, if_false]
        split
        · rename_i hlt
          rw [if_pos hlt] at this
          exact ⟨this, hd.skip (fun h => h.2.1 hc), ho.skip (fun h => by simp [h.2.2] at hin)⟩
        · rename_i hlt
          rw [if_neg hlt] at this
          exact ⟨this, hd.skip (fun h => h.2.1 hc), ho.skip (fun h => by simp [h.2.2] at hin)⟩
      · have := ho.take ⟨ha, hc, by simpa using hin⟩
        simp only [Highest.scan, ha, hc, hin, if_true, Bool.true_eq_false, if_false, Bool.false_eq_true]
        split
        · rename_i hlt
          rw [if_pos hlt] at this
          exact ⟨hi.skip (fun h => hin h.2.2), hd.skip (fun h => h.2.1 hc), this⟩
        · rename_i hlt
          rw [if_neg hlt] at this
          exact ⟨hi.skip (fun h => hin h.2.2), hd.skip (fun h => h.2.1 hc), this⟩
      · have := hd.take ⟨ha, hc, hin⟩
        simp only [Highest.scan, ha, hc, hin, if_true, Bool.true_eq_false, if_false]
        split
        · rename_i hlt
          rw [if_pos hlt] at this
          exact ⟨hi.skip (fun h => hc h.2.1), this, ho.skip (fun h => hc h.2.1)⟩
        · rename_i hlt
          rw [if_neg hlt] at this
          exact ⟨hi.skip (fun h => hc h.2.1), this, ho.skip (fun h => hc h.2.1)⟩
      · simp only [Highest.scan, ha, hc, hin, Bool.true_eq_false, if_false, Bool.false_eq_true]
        exact ⟨hi.skip (fun h => hc h.2.1), hd.skip (fun h => hin h.2.2), ho.skip (fun h => hc h.2.1)⟩
    · have ha' : (states n).active = false := by simpa using ha
      simp only [Highest.scan, ha', if_true]
      exact ⟨hi.skip (fun h => ha h.1), hd.skip (fun h => ha h.1), ho.skip (fun h => ha h.1)⟩

theorem openOf_ins_iff {ss : SeqState} {k : ℕ} : ss.openOf k = some .ins ↔
    k ≠ 0 ∧ (ss.states k).active = true ∧ (ss.states k).command = letterI := by
  simp only [openOf]
  by_cases h0 : k = 0 <;> by_cases ha : (ss.states k).active = true <;>
    by_cases hc : (ss.states k).command = letterI <;> simp [h0, ha, hc]

theorem openOf_del_iff {ss : SeqState} {k : ℕ} : ss.openOf k = some .del ↔
    k ≠ 0 ∧ (ss.states k).active = true ∧ (ss.states k).command ≠ letterI := by
  simp only [openOf]
  by_cases h0 : k = 0 <;> by_cases ha : (ss.states k).active = true <;>
    by_cases hc : (ss.states k).command = letterI <;> simp [h0, ha, hc]

theorem openOf_none_iff {ss : SeqState} {k : ℕ} : ss.openOf k = none ↔
    k = 0 ∨ (ss.states k).active = false := by
  simp only [openOf]
  by_cases h0 : k = 0 <;> by_cases ha : (ss.states k).active = true <;> simp [h0, ha]

theorem le_last_of_active {ss : SeqState} {k : ℕ} (h : (ss.states k).active = true) : k < ss.last + 1 := by
  by_contra hk
  rw [ss.beyond k (by omega)] at h
  simp at h

/-- A key that the weave shows is the maximum over the included insertions, and beats the others. -/
theorem shows_iff_highest (ss : SeqState) (k : ℕ) : Shows ss.includedSet ss.openOf k ↔
    ss.highest.insert = k ∧ ss.highest.delete ≤ k ∧ ss.highest.owner < k := by
  obtain ⟨hi, hd, ho⟩ := scan_isMax ss.states (ss.last + 1)
  constructor
  · rintro ⟨hk, hS, hup⟩
    obtain ⟨h0, ha, hc⟩ := openOf_ins_iff.mp hk
    have hle : k ≤ ss.highest.insert := hi.1 k (le_last_of_active ha) ⟨ha, hc, hS⟩
    -- nothing above `k` is one of the other two maxima
    have above : ∀ j, k < j → (ss.states j).active = true →
        (ss.states j).command ≠ letterI ∧ (ss.states j).included = false := by
      intro j hj haj
      rcases hup j hj with h | ⟨h, hjS⟩
      · rcases openOf_none_iff.mp h with h | h
        · omega
        · simp [haj] at h
      · exact ⟨(openOf_del_iff.mp h).2.2, by simpa [includedSet] using hjS⟩
    refine ⟨?_, ?_, ?_⟩
    · by_contra hne
      rcases hi.2 with h | ⟨-, h⟩
      · change ss.highest.insert = 0 at h
        omega
      · exact (above _ (lt_of_le_of_ne hle (Ne.symm hne)) h.1).1 h.2.1
    · by_contra hlt
      rcases hd.2 with h | ⟨-, h⟩
      · change ss.highest.delete = 0 at h
        omega
      · have := (above _ (not_le.mp hlt) h.1).2
        exact absurd (this.symm.trans h.2.2) (by simp)
    · by_contra hlt
      rcases ho.2 with h | ⟨-, h⟩
      · change ss.highest.owner = 0 at h
        omega
      · rcases Nat.lt_or_eq_of_le (not_lt.mp hlt) with hlt' | he
        · exact (above _ hlt' h.1).1 h.2.1
        · have h2 : OwnAt ss.states k := he ▸ h
          have := hS.symm.trans h2.2.2
          simp at this
  · rintro ⟨rfl, hdel, hown⟩
    rcases hi.2 with h | ⟨-, h⟩
    · change ss.highest.insert = 0 at h
      omega
    · refine ⟨openOf_ins_iff.mpr ⟨by omega, h.1, h.2.1⟩, h.2.2, fun j hj => ?_⟩
      by_cases haj : (ss.states j).active = true
      · have hjn := le_last_of_active haj
        by_cases hcj : (ss.states j).command = letterI <;> by_cases hij : (ss.states j).included = true
        · have : j ≤ ss.highest.insert := hi.1 j hjn ⟨haj, hcj, hij⟩
          omega
        · have : j ≤ ss.highest.owner := ho.1 j hjn ⟨haj, hcj, by simpa using hij⟩
          omega
        · have : j ≤ ss.highest.delete := hd.1 j hjn ⟨haj, hcj, hij⟩
          omega
        · exact .inr ⟨openOf_del_iff.mpr ⟨by omega, haj, hcj⟩, hij⟩
      · exact .inl (openOf_none_iff.mpr (.inr (by simpa using haj)))

/-- **Text is inserted exactly when the weave shows it**, and `active` is the key that shows it. -/
theorem decideDisposition_spec (ss : SeqState) (k : ℕ) :
    (ss.decideDisposition.inserting = true ∧ ss.decideDisposition.active = k) ↔
      Shows ss.includedSet ss.openOf k := by
  rw [shows_iff_highest]
  unfold decideDisposition
  dsimp only
  split
  · rename_i h
    simp only [Bool.false_eq_true, false_and, false_iff]
    omega
  · rename_i h
    split
    · rename_i h'
      constructor
      · rintro ⟨-, rfl⟩
        exact ⟨rfl, not_lt.mp h, h'⟩
      · rintro ⟨rfl, -, -⟩
        refine ⟨?_, rfl⟩
        -- an included delta is not ignored
        obtain ⟨hi, -, -⟩ := scan_isMax ss.states (ss.last + 1)
        rcases hi.2 with h0 | ⟨-, hP⟩
        · change ss.highest.insert = 0 at h0
          omega
        · have := (ss.states ss.highest.insert).exclusive.1
          have hinc : (ss.states ss.highest.insert).included = true := hP.2.2
          simpa [hinc] using this
    · rename_i h'
      simp only [Bool.false_eq_true, false_and, false_iff]
      omega

/-- Nothing is open and no text is inserted: the state before the body is read. -/
def Fresh (ss : SeqState) : Prop := (∀ k, (ss.states k).active = false) ∧ ss.inserting = false

theorem fresh_new (l : ℕ) (h : l < 65535) : (new l h).Fresh := by
  have hh : (highest ⟨fun _ => .initial, l, 0, false, h, fun _ _ => rfl⟩) = ⟨0, 0, 0⟩ := by
    unfold highest
    generalize List.range _ = xs
    induction xs with
    | nil => rfl
    | cons x xs ih => exact ih
  constructor
  · intro k
    rw [new, decideDisposition_states]
    rfl
  · simp [new, decideDisposition, hh]

theorem Fresh.modify {ss : SeqState} (h : ss.Fresh) (n : ℕ) (f : OneState → OneState)
    (hf : ∀ s, (f s).active = s.active) : (ss.modify n f hf).Fresh := by
  refine ⟨fun k => ?_, h.2⟩
  by_cases hk : k = n
  · subst hk
    simp [SeqState.modify, hf, h.1 k]
  · simp [SeqState.modify, Function.update_of_ne hk, h.1 k]

theorem Fresh.setIncluded {ss : SeqState} (h : ss.Fresh) (n : ℕ) (b : Bool) : (ss.setIncluded n b).Fresh :=
  h.modify n (·.setIncluded b) fun _ => rfl

@[simp] theorem includedSet_new (l : ℕ) (h : l < 65535) : (new l h).includedSet = ∅ := by
  ext k
  simp [includedSet, new, OneState.initial]

/-- A setter that includes the delta, and one that does not. -/
theorem includedSet_modify_true (ss : SeqState) (n : ℕ) (f : OneState → OneState) (hf : ∀ s, (f s).active = s.active)
    (hi : ∀ s, (f s).included = true) : (ss.modify n f hf).includedSet = insert n ss.includedSet := by
  ext k
  by_cases hk : k = n
  · subst hk
    simp [includedSet, SeqState.modify, hi]
  · simp [includedSet, SeqState.modify, hk]

theorem includedSet_modify_false (ss : SeqState) (n : ℕ) (f : OneState → OneState) (hf : ∀ s, (f s).active = s.active)
    (hi : ∀ s, (f s).included = false) : (ss.modify n f hf).includedSet = ss.includedSet \ {n} := by
  ext k
  by_cases hk : k = n
  · subst hk
    simp [includedSet, SeqState.modify, hi]
  · simp [includedSet, SeqState.modify, hk]

@[simp] theorem includedSet_setIncluded (ss : SeqState) (n : ℕ) (b : Bool) :
    (ss.setIncluded n b).includedSet = insert n ss.includedSet := includedSet_modify_true ss n _ _ fun _ => rfl

theorem includedSet_setExplicitlyIncluded (ss : SeqState) (n : ℕ) :
    (ss.setExplicitlyIncluded n).includedSet = insert n ss.includedSet :=
  includedSet_modify_true ss n _ _ fun s => s.setExplicitlyIncluded_spec.2

theorem includedSet_setExplicitlyExcluded (ss : SeqState) (n : ℕ) :
    (ss.setExplicitlyExcluded n).includedSet = ss.includedSet \ {n} := includedSet_modify_false ss n _ _ fun _ => rfl

/-- What a state stands for while the body is read. -/
structure Tracks (ss : SeqState) (S : Set ℕ) (o : Open ℕ) : Prop where
  /-- The included deltas are those of `S`. -/
  included : ss.includedSet = S
  /-- The open regions are those of `o`. -/
  opens : ss.openOf = o
  /-- The decision is up to date. -/
  shows : ∀ k, (ss.inserting = true ∧ ss.active = k) ↔ Shows S o k

theorem Fresh.tracks {ss : SeqState} (h : ss.Fresh) : ss.Tracks ss.includedSet fun _ => none where
  included := rfl
  opens := by
    funext k
    exact openOf_none_iff.mpr (.inr (h.1 k))
  shows k := by simp [h.2, Shows]

theorem tracks_decideDisposition (ss : SeqState) :
    ss.decideDisposition.Tracks ss.includedSet ss.openOf where
  included := by unfold includedSet; rw [decideDisposition_states]
  opens := by unfold openOf; rw [decideDisposition_states]
  shows := decideDisposition_spec ss

/-- The letter that opens a region of a kind. -/
def letterOf : Cmd → UInt8
  | .ins => letterI
  | .del => letterD

theorem letterOf_eq_iff (c : Cmd) : letterOf c = letterI ↔ c = .ins := by cases c <;> decide

/-- **`start` opens the region in the weave.** -/
theorem start_spec {ss : SeqState} {S : Set ℕ} {o : Open ℕ} (ht : ss.Tracks S o) {seq : ℕ}
    {c : Cmd} (h0 : seq ≠ 0) (hl : seq ≤ ss.last) (ho : o seq = none) :
    ∃ ss', ss.start seq (letterOf c) = .ok ss' ∧ ss'.last = ss.last ∧
      ss'.Tracks S (Function.update o seq (some c)) := by
  have ha : (ss.states seq).active = false := by
    rw [← ht.opens] at ho
    exact (openOf_none_iff.mp ho).resolve_left h0
  have hc : ¬ (letterOf c ≠ letterI ∧ letterOf c ≠ letterD) := by cases c <;> decide
  unfold start
  rw [if_neg hc, dif_neg (by omega), if_neg (by simp [ha])]
  refine ⟨_, rfl, decideDisposition_last _, ?_⟩
  convert tracks_decideDisposition _ using 1
  · rw [← ht.included]
    ext k
    by_cases hk : k = seq
    · subst hk
      simp [includedSet, OneState.opened]
    · simp [includedSet, Function.update_of_ne hk]
  · funext k
    rw [← ht.opens]
    by_cases hk : k = seq
    · subst hk
      simp only [Function.update_self, openOf, if_neg h0, OneState.opened, if_true, letterOf_eq_iff]
      cases c <;> rfl
    · simp [openOf, Function.update_of_ne hk]

/-- **`end` closes the region in the weave.** -/
theorem end_spec {ss : SeqState} {S : Set ℕ} {o : Open ℕ} (ht : ss.Tracks S o) {seq : ℕ}
    (ho : o seq ≠ none) :
    ∃ ss', ss.end_ seq = .ok ss' ∧ ss'.last = ss.last ∧ ss'.Tracks S (Function.update o seq none) := by
  have ha : (ss.states seq).active = true := by
    rw [← ht.opens, Ne, openOf_none_iff, not_or] at ho
    simpa using ho.2
  have hl := le_last_of_active ha
  unfold end_
  rw [if_neg (by omega), if_pos ha]
  refine ⟨_, rfl, decideDisposition_last _, ?_⟩
  convert tracks_decideDisposition _ using 1
  · rw [← ht.included]
    ext k
    by_cases hk : k = seq
    · subst hk
      simp [includedSet, OneState.shut]
    · simp [includedSet, Function.update_of_ne hk]
  · funext k
    rw [← ht.opens]
    by_cases hk : k = seq
    · subst hk
      simp [openOf, OneState.shut]
    · simp [openOf, Function.update_of_ne hk]

/-- When `start` succeeds, the region was closed. -/
theorem start_ok {ss ss' : SeqState} {S : Set ℕ} {o : Open ℕ} (ht : ss.Tracks S o) {seq : ℕ}
    {letter : UInt8} (h : ss.start seq letter = .ok ss') :
    ∃ c, letter = letterOf c ∧ seq ≤ ss.last ∧ o seq = none := by
  unfold start at h
  split at h
  · simp at h
  · rename_i hlet
    split at h
    · simp at h
    · rename_i hlast
      split at h
      · split at h <;> simp at h
      · rename_i ha
        have hl : ∃ c, letter = letterOf c := by
          by_cases hI : letter = letterI
          · exact ⟨.ins, hI⟩
          · exact ⟨.del, by simpa [hI, letterOf] using hlet⟩
        obtain ⟨c, hc⟩ := hl
        refine ⟨c, hc, not_lt.mp hlast, ?_⟩
        rw [← ht.opens]
        exact openOf_none_iff.mpr (.inr (by simpa using ha))

/-- When `end` succeeds, the region was open. -/
theorem end_ok {ss ss' : SeqState} {S : Set ℕ} {o : Open ℕ} (ht : ss.Tracks S o) {seq : ℕ}
    (h0 : seq ≠ 0) (h : ss.end_ seq = .ok ss') : seq ≤ ss.last ∧ o seq ≠ none := by
  unfold end_ at h
  split at h
  · simp at h
  · rename_i hlast
    split at h
    · rename_i ha
      refine ⟨not_lt.mp hlast, ?_⟩
      rw [← ht.opens, Ne, openOf_none_iff]
      simp [h0, ha]
    · simp at h

/-- The line read is included exactly when some key shows it. -/
theorem Tracks.includeLine {ss : SeqState} {S : Set ℕ} {o : Open ℕ} (ht : ss.Tracks S o) :
    ss.includeLine = (owner S o).isSome := by
  rcases ho : owner S o with _ | k
  · rcases hi : ss.inserting with _ | _
    · simpa [SeqState.includeLine] using hi
    · exact absurd ((ht.shows ss.active).mp ⟨hi, rfl⟩) (owner_eq_none_iff.mp ho _)
  · exact ((ht.shows k).mpr (owner_eq_some_iff.mp ho)).1

/-- The active delta of an included line is the key that shows it. -/
theorem Tracks.activeSeq {ss : SeqState} {S : Set ℕ} {o : Open ℕ} {k : ℕ} (ht : ss.Tracks S o)
    (ho : owner S o = some k) : ss.activeSeq = k := ((ht.shows k).mpr (owner_eq_some_iff.mp ho)).2

end SeqState

end CSSC.Body
