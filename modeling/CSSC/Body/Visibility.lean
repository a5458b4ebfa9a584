import CSSC.Body.SeqState

/-!
# The rule of the weave

A line of the body belongs to a version by one rule. Of the regions that are open, the deletions of deltas that are
not included do not count. Of those that do, the one with the largest number decides: the line is shown if that region
is an insertion of an included delta, and it is shown for this delta.

What is included (`chosen`) and which regions are open (`openControls`) is computed from the calls alone, those of the
setters and those of `start` and `end`. **After any calls that are accepted the rule decides** (`includeLine_iff`);
number 0, which stands for no delta, shows nothing. A setter indexes the vector without a check, so that a number
beyond `last` is undefined in the code; the result holds for the model's answer as well.
-/

namespace CSSC.Body

open CSSC.Lines CSSC.Library.Weave

/-- A call of a setter of `seq_state`. -/
inductive Setter where
  /-- `set_included(n, bNonRecursive)`. -/
  | included (n : ℕ) (bNonRecursive : Bool)
  /-- `set_ignored(n)`. -/
  | ignored (n : ℕ)
  /-- `set_excluded(n)`. -/
  | excluded (n : ℕ)
  /-- `set_explicitly_included(n)`. -/
  | explicitlyIncluded (n : ℕ)
  /-- `set_explicitly_excluded(n)`. -/
  | explicitlyExcluded (n : ℕ)
  deriving DecidableEq, Repr

/-- The state after the call. -/
def Setter.apply (ss : SeqState) : Setter → SeqState
  | .included n b => ss.setIncluded n b
  | .ignored n => ss.setIgnored n
  | .excluded n => ss.setExcluded n
  | .explicitlyIncluded n => ss.setExplicitlyIncluded n
  | .explicitlyExcluded n => ss.setExplicitlyExcluded n

/-- A call made while the body is read. -/
inductive Call where
  /-- `start(seq, command_letter)`. -/
  | start (seq : ℕ) (letter : UInt8)
  /-- `end(seq)`. -/
  | fin (seq : ℕ)
  deriving DecidableEq, Repr

/-- The state after the call, or why it is not accepted. -/
def Call.run (ss : SeqState) : Call → Except String SeqState
  | .start seq letter => ss.start seq letter
  | .fin seq => ss.end_ seq

/-- The included deltas after a setter. -/
def Setter.choose (S : Set ℕ) : Setter → Set ℕ
  | .included n _ => insert n S
  | .explicitlyIncluded n => insert n S
  | .ignored n => S \ {n}
  | .excluded n => S \ {n}
  | .explicitlyExcluded n => S \ {n}

/-- The deltas that the setters include. -/
def chosen (setters : List Setter) : Set ℕ := setters.foldl Setter.choose ∅

/-- The open regions after a call. -/
def Call.control (o : Open ℕ) : Call → Open ℕ
  | .start seq letter => Function.update o seq (some (if letter = letterI then .ins else .del))
  | .fin seq => Function.update o seq none

/-- The regions that the calls leave open. -/
def openControls (calls : List Call) : Open ℕ := calls.foldl Call.control fun _ => none

namespace SeqState

/-- The open regions of a state, number 0 among them. -/
def controls (ss : SeqState) : Open ℕ := fun k =>
  if (ss.states k).active then some (if (ss.states k).command = letterI then .ins else .del) else none

theorem openOf_eq (ss : SeqState) : ss.openOf = fun k => if k = 0 then none else ss.controls k := rfl

/-- The decision fits the flags and the regions. -/
def Decided (ss : SeqState) : Prop :=
  ∀ k, (ss.inserting = true ∧ ss.active = k) ↔ Shows ss.includedSet ss.openOf k

theorem decided_decideDisposition (ss : SeqState) : ss.decideDisposition.Decided := by
  have ht := tracks_decideDisposition ss
  intro k
  rw [ht.included, ht.opens]
  exact ht.shows k

/-- **A line is included exactly when the region with the largest number, of those that count, is an insertion
of an included delta**, and `active_seq` is this delta. -/
theorem Decided.iff_isGreatest {ss : SeqState} (h : ss.Decided) (k : ℕ) :
    (ss.includeLine = true ∧ ss.activeSeq = k) ↔
      k ≠ 0 ∧ IsGreatest {j | Counts ss.includedSet ss.controls j} k ∧ ss.controls k = some .ins ∧
        k ∈ ss.includedSet := by
  refine (h k).trans ?_
  rw [openOf_eq]
  constructor
  · intro hs
    have h0 : k ≠ 0 := by
      rintro rfl
      simpa using hs.1
    refine ⟨h0, (shows_iff_isGreatest.mp ?_)⟩
    refine ⟨by simpa [h0] using hs.1, hs.2.1, fun j hj => ?_⟩
    simpa [Nat.ne_zero_of_lt hj] using hs.2.2 j hj
  · rintro ⟨h0, hg⟩
    have hs := shows_iff_isGreatest.mpr hg
    refine ⟨by simpa [h0] using hs.1, hs.2.1, fun j hj => ?_⟩
    simpa [Nat.ne_zero_of_lt hj] using hs.2.2 j hj

end SeqState

/-! ### The calls -/

/-- A setter opens nothing and includes what it says. -/
theorem Setter.apply_spec {ss : SeqState} (h : ss.Fresh) (x : Setter) :
    (x.apply ss).Fresh ∧ (x.apply ss).includedSet = x.choose ss.includedSet := by
  have hset : ∀ n f hf, (∀ s, OneState.included (f s) = true) →
      (ss.modify n f hf).Fresh ∧ (ss.modify n f hf).includedSet = insert n ss.includedSet :=
    fun n f hf hinc => ⟨h.modify n f hf, ss.includedSet_modify_true n f hf hinc⟩
  have hclear : ∀ n f hf, (∀ s, OneState.included (f s) = false) →
      (ss.modify n f hf).Fresh ∧ (ss.modify n f hf).includedSet = ss.includedSet \ {n} :=
    fun n f hf hinc => ⟨h.modify n f hf, ss.includedSet_modify_false n f hf hinc⟩
  cases x with
  | included n b => exact hset n (·.setIncluded b) (fun _ => rfl) fun _ => rfl
  | ignored n => exact hclear n (·.setIgnored) (fun _ => rfl) fun _ => rfl
  | excluded n => exact hclear n (·.setExcluded) (fun _ => rfl) fun _ => rfl
  | explicitlyExcluded n => exact hclear n (·.setExplicitlyExcluded) (fun _ => rfl) fun _ => rfl
  | explicitlyIncluded n =>
    exact hset n (·.setExplicitlyIncluded) (fun s => s.setExplicitlyIncluded_spec.1)
      fun s => s.setExplicitlyIncluded_spec.2

theorem Setter.applyAll_spec (setters : List Setter) {ss : SeqState} (h : ss.Fresh) :
    (setters.foldl Setter.apply ss).Fresh ∧
      (setters.foldl Setter.apply ss).includedSet = setters.foldl Setter.choose ss.includedSet := by
  induction setters generalizing ss with
  | nil => exact ⟨h, rfl⟩
  | cons x setters ih =>
    obtain ⟨hf, hS⟩ := x.apply_spec h
    rw [List.foldl_cons, List.foldl_cons, ← hS]
    exact ih hf

/-- **A call that is accepted** opens or closes its region, includes nothing, and decides anew. -/
theorem Call.run_spec {ss ss' : SeqState} {x : Call} (h : x.run ss = .ok ss') :
    ss'.Decided ∧ ss'.includedSet = ss.includedSet ∧ ss'.controls = x.control ss.controls := by
  cases x with
  | start seq letter =>
    simp only [Call.run, SeqState.start] at h
    split at h
    · cases h
    · split at h
      · cases h
      · split at h
        · split at h <;> cases h
        · obtain rfl := Except.ok.inj h
          refine ⟨SeqState.decided_decideDisposition _, ?_, ?_⟩
          · ext k
            by_cases hk : k = seq
            · subst hk
              simp [SeqState.includedSet, OneState.opened]
            · simp [SeqState.includedSet, Function.update_of_ne hk]
          · funext k
            by_cases hk : k = seq
            · subst hk
              simp [Call.control, SeqState.controls, OneState.opened]
            · simp [Call.control, SeqState.controls, Function.update_of_ne hk]
  | fin seq =>
    simp only [Call.run, SeqState.end_] at h
    split at h
    · cases h
    · split at h
      · obtain rfl := Except.ok.inj h
        refine ⟨SeqState.decided_decideDisposition _, ?_, ?_⟩
        · ext k
          by_cases hk : k = seq
          · subst hk
            simp [SeqState.includedSet, OneState.shut]
          · simp [SeqState.includedSet, Function.update_of_ne hk]
        · funext k
          by_cases hk : k = seq
          · subst hk
            simp [Call.control, SeqState.controls, OneState.shut]
          · simp [Call.control, SeqState.controls, Function.update_of_ne hk]
      · cases h

theorem Call.runAll_spec (calls : List Call) {ss ss' : SeqState} (hd : ss.Decided)
    (h : calls.foldlM Call.run ss = .ok ss') :
    ss'.Decided ∧ ss'.includedSet = ss.includedSet ∧ ss'.controls = calls.foldl Call.control ss.controls := by
  induction calls generalizing ss with
  | nil =>
    obtain rfl := Except.ok.inj h
    exact ⟨hd, rfl, rfl⟩
  | cons x calls ih =>
    rw [List.foldlM_cons] at h
    rcases hx : x.run ss with e | t
    · rw [hx] at h
      cases h
    · rw [hx] at h
      obtain ⟨hd', hS, ho⟩ := Call.run_spec hx
      obtain ⟨hd'', hS', ho'⟩ := ih hd' h
      exact ⟨hd'', hS'.trans hS, by rw [ho', ho, List.foldl_cons]⟩

/-- Before the first call nothing is open, and nothing is inserted. -/
theorem SeqState.Fresh.decided {ss : SeqState} (h : ss.Fresh) : ss.Decided ∧ ss.controls = fun _ => none := by
  have hc : ss.controls = fun _ => none := by
    funext k
    simp [SeqState.controls, h.1 k]
  refine ⟨fun k => ?_, hc⟩
  rw [SeqState.openOf_eq, hc]
  simp [h.2, Shows]

/-- **After any accepted calls the rule of the weave decides** whether a line is included, and `active_seq` is
the delta whose insertion makes it visible. -/
theorem includeLine_iff (l : ℕ) (hl : l < 65535) (setters : List Setter) (calls : List Call) {ss : SeqState}
    (h : calls.foldlM Call.run (setters.foldl Setter.apply (SeqState.new l hl)) = .ok ss) :
    (ss.includeLine = true ↔ ∃ k, IsGreatest {j | Counts (chosen setters) (openControls calls) j} k ∧
        openControls calls k = some .ins ∧ k ∈ chosen setters ∧ k ≠ 0) ∧
      ∀ k, ss.includeLine = true → IsGreatest {j | Counts (chosen setters) (openControls calls) j} k →
        ss.activeSeq = k := by
  obtain ⟨hf, hS⟩ := Setter.applyAll_spec setters (SeqState.fresh_new l hl)
  obtain ⟨hd, ho⟩ := hf.decided
  obtain ⟨hd', hS', ho'⟩ := Call.runAll_spec calls hd h
  rw [SeqState.includedSet_new] at hS
  rw [hS] at hS'
  rw [ho] at ho'
  have key := hd'.iff_isGreatest
  rw [hS', ho'] at key
  refine ⟨⟨fun hi => ?_, ?_⟩, fun k hi hg => ?_⟩
  · obtain ⟨h0, hg, hins, hc⟩ := (key _).mp ⟨hi, rfl⟩
    exact ⟨_, hg, hins, hc, h0⟩
  · rintro ⟨k, hg, hins, hc, h0⟩
    exact ((key k).mpr ⟨h0, hg, hins, hc⟩).1
  · obtain ⟨-, hg', -⟩ := (key _).mp ⟨hi, rfl⟩
    exact hg'.unique hg

/-- Delta 2 deletes within an insertion of delta 1, and only delta 1 is included. -/
theorem includeLine_iff_sample : ∃ ss : SeqState,
    (ss.includeLine = true ↔ ∃ k, IsGreatest {j | Counts (chosen [.included 1 false])
        (openControls [.start 1 letterI, .start 2 letterD]) j} k ∧
        openControls [.start 1 letterI, .start 2 letterD] k = some .ins ∧ k ∈ chosen [.included 1 false] ∧ k ≠ 0) ∧
      ∀ k, ss.includeLine = true → IsGreatest {j | Counts (chosen [.included 1 false])
        (openControls [.start 1 letterI, .start 2 letterD]) j} k → ss.activeSeq = k :=
  ⟨_, includeLine_iff 2 (by decide) [.included 1 false] [.start 1 letterI, .start 2 letterD] rfl⟩

/-- **Number 0 shows nothing**, although its region is the only one and it is included. -/
theorem zero_shows_nothing : ¬ ∀ (l : ℕ) (hl : l < 65535) (setters : List Setter) (calls : List Call) (ss : SeqState),
    calls.foldlM Call.run (setters.foldl Setter.apply (SeqState.new l hl)) = .ok ss →
      (ss.includeLine = true ↔ ∃ k, IsGreatest {j | Counts (chosen setters) (openControls calls) j} k ∧
        openControls calls k = some .ins ∧ k ∈ chosen setters) := by
  intro h
  have h0 := (h 1 (by decide) [.included 0 false] [.start 0 letterI] _ rfl).mpr
    ⟨0, ⟨.inl (by simp [openControls, Call.control]), fun j hj => ?_⟩, by simp [openControls, Call.control],
      by simp [chosen, Setter.choose]⟩
  · exact absurd h0 (by decide)
  · by_contra hlt
    have hj0 : j ≠ 0 := by omega
    simp [Counts, openControls, Call.control, Function.update_of_ne hj0] at hj

end CSSC.Body
