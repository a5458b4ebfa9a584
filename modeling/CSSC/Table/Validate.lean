import CSSC.Table.FullDelta
import CSSC.Table.Reading
import Mathlib.Data.Set.Card
import Mathlib.Order.Interval.Finset.Nat

/-!
# The checks of `val`

`sccs_file::validate` goes over the current deltas, with three scratch arrays that it shares between them (`Scratch`:
how often a number was met, which numbers are known to lead down to 0, and which were met on the way down at hand),
and stops after the first delta that it finds fault with. An index out of range is `undefined`. Most of its messages
print the SID of the delta through a pointer into a string that is gone when they do (`reportSid`). Warnings are left
out, and so are `validate_isomorphism` and `validate_substituted_flags_list`, which accept everything.

`check_loop_free` is `walk`, `markLoopfree` and `clear`. The way down the predecessors ends at 0, goes on for ever or
ends elsewhere, and the check tells which, whatever it has found before (`checkLoopFree_spec`).
-/

namespace CSSC.Table

open CSSC.Lines CSSC.Body CSSC.Library.Selection CSSC.Library.Chain DeltaTable

/-! ### `check_loop_free` -/

/-- `safe_predecessor`. -/
def safePredecessor (T : DeltaTable) (s : ℕ) : Except Quit ℕ := do
  let found ← T.deltaAtSeqExists s
  if found then do
    let d ← T.deltaAtSeq s
    return d.prevSeq
  else .error (.corrupt "missing seqno %u")

/-- The first loop: whether it found no fault, the lowest number met, and the numbers met. At each turn a number
is met that was not met before, so the size of the array bounds the turns. -/
def walk (T : DeltaTable) (loopfree : ℕ → Bool) : ℕ → ℕ → ℕ → (ℕ → Bool) → Except Quit (Bool × ℕ × (ℕ → Bool))
  | 0, _, _, _ => .error .diverges
  | fuel + 1, s, lowest, seen =>
    if s = 0 then .ok (true, lowest, seen)
    else if T.highestSeqno < s then .error .undefined
    else if loopfree s then .ok (true, min s lowest, seen)
    else if seen s then .ok (false, min s lowest, seen)
    else do
      let p ← safePredecessor T s
      walk T loopfree fuel p (min s lowest) (Function.update seen s true)

/-- The second loop: the numbers met are known to be free of loops. -/
def markLoopfree (T : DeltaTable) (seen : ℕ → Bool) : ℕ → ℕ → (ℕ → Bool) → Except Quit (ℕ → Bool)
  | 0, _, _ => .error .diverges
  | fuel + 1, s, loopfree =>
    if s = 0 then .ok loopfree
    else if T.highestSeqno < s then .error .undefined
    else if loopfree s then .ok loopfree
    else do
      let d ← T.deltaAtSeq s
      markLoopfree T seen fuel d.prevSeq (if seen s then Function.update loopfree s true else loopfree)

/-- The third loop: what was met at or above the lowest number is forgotten. -/
def clear (lowest : ℕ) (seen : ℕ → Bool) : ℕ → Bool := fun i => if lowest ≤ i then false else seen i

/-- `check_loop_free`: the verdict, `loopfree` and `seen`. -/
def checkLoopFree (T : DeltaTable) (s : ℕ) (loopfree seen : ℕ → Bool) :
    Except Quit (Bool × (ℕ → Bool) × (ℕ → Bool)) := do
  let (ok, lowest, seen) ← walk T loopfree (T.highestSeqno + 2) s T.highestSeqno seen
  let loopfree ← if ok then markLoopfree T seen (T.highestSeqno + 2) s loopfree else .ok loopfree
  return (ok, loopfree, clear lowest seen)

/-! ### `validate` -/

/-- `validate_seq_numbers`. -/
def validateSeqNumbers (seqs : List ℕ) (limit : ℕ) : Bool := seqs.all (· ≤ limit)

/-- `validate_seq_lists`. -/
def validateSeqLists (T : DeltaTable) (d : Delta) : Bool :=
  validateSeqNumbers d.included T.highestSeqno && validateSeqNumbers d.excluded T.highestSeqno &&
    validateSeqNumbers d.ignored T.highestSeqno

/-- The scratch arrays of `validate`. -/
structure Scratch where
  /-- `seen_ever`, by sequence number. -/
  seenEver : ℕ → ℕ
  /-- `loopfree`. -/
  loopfree : ℕ → Bool
  /-- `seen`. -/
  seen : ℕ → Bool

/-- The arrays as they are allocated. -/
def Scratch.initial : Scratch := ⟨fun _ => 0, fun _ => false, fun _ => false⟩

/-- The checks that look at one delta alone: the counts, the date, the user. -/
def fieldsOk (d : FullDelta) : Bool :=
  d.inserted ≤ 99999 && d.deleted ≤ 99999 && d.unchanged ≤ 99999 && d.date.valid && d.user ≠ [] && 58 ∉ d.user

/-- The dates of a delta and of its predecessor are compared, for a warning. -/
def compareDates (F : FullTable) (d : FullDelta) : Except Quit Unit :=
  if d.prevSeq = 0 then .ok ()
  else do
    let ancestor ← F.deltaAtSeq d.prevSeq
    let _ ← ancestor.date.greater d.date
    return ()

/-- A fault is reported with `sz_sid`, which points into a string that does not exist any more. -/
def reportSid (ok : Bool) : Except Quit Unit := if ok then .ok () else .error .undefined

/-- One turn of the loop of `validate`: whether no fault was found, and the arrays. The entry of `seen_ever` for a
number stands one place before it, so that of 0 before the array. The verdict on the lists is dropped. -/
def validateDelta (F : FullTable) (sc : Scratch) (d : FullDelta) : Except Quit (Bool × Scratch) := do
  reportSid (fieldsOk d)
  reportSid (d.seq ≤ F.table.highestSeqno && d.prevSeq ≤ F.table.highestSeqno)
  if d.seq = 0 then .error .undefined
  else do
    let countOk := !(1 < sc.seenEver d.seq)
    let e ← F.table.deltaAtSeq d.seq
    let (ok, loopfree, seen) ← checkLoopFree F.table e.seq sc.loopfree sc.seen
    let _ ← compareDates F d
    reportSid (validateSeqLists F.table d.toDelta)
    return (countOk && ok, ⟨Function.update sc.seenEver d.seq (sc.seenEver d.seq + 1), loopfree, seen⟩)

/-- The loop of `validate`. -/
def validateDeltas (F : FullTable) : List FullDelta → Scratch → Except Quit Bool
  | [], _ => .ok true
  | d :: ds, sc => do
    let (good, sc) ← validateDelta F sc d
    if good then validateDeltas F ds sc else return false

/-- What is wrong with no user name: a colon, a blank or a tab. -/
def validUsername (u : List UInt8) : Bool := 58 ∉ u && 32 ∉ u && 9 ∉ u

/-- `validate`. -/
def validate (checksumOk : Bool) (F : FullTable) (users : List (List UInt8)) : Except Quit Bool :=
  if checksumOk = false then return false
  else do
    let good ← validateDeltas F F.current .initial
    if good then return users.all validUsername else return false

/-! ### What `check_loop_free` finds out -/

/-- The way down never ends. -/
def DeltaTable.Loops (T : DeltaTable) (s : ℕ) : Prop := ∀ y ∈ T.line s, T.next y ≠ none

/-- The way down ends at a number that no delta has. -/
def DeltaTable.EndsAt (T : DeltaTable) (s y : ℕ) : Prop := y ∈ T.line s ∧ y ≠ 0 ∧ T.at? y = none

/-- The numbers that were not met yet. -/
def unmet (n : ℕ) (seen : ℕ → Bool) : Finset ℕ := (Finset.Icc 1 n).filter fun i => seen i = false

theorem unmet_update {n s : ℕ} {seen : ℕ → Bool} (hs : s ≠ 0) (hn : s ≤ n) (h : seen s = false) :
    (unmet n (Function.update seen s true)).card < (unmet n seen).card := by
  apply Finset.card_lt_card
  refine ⟨fun i hi => ?_, fun hsub => ?_⟩
  · rw [unmet, Finset.mem_filter] at hi ⊢
    refine ⟨hi.1, ?_⟩
    by_cases his : i = s
    · exact his ▸ h
    · rw [Function.update_of_ne his] at hi
      exact hi.2
  · have hmem : s ∈ unmet n seen := Finset.mem_filter.mpr ⟨Finset.mem_Icc.mpr ⟨by omega, hn⟩, h⟩
    have hs := (Finset.mem_filter.mp (hsub hmem)).2
    rw [Function.update_self] at hs
    cases hs

/-- What the first loop reports. -/
inductive Walked (T : DeltaTable) (s : ℕ) : Except Quit (Bool × ℕ × (ℕ → Bool)) → Prop
  /-- The way down ends at 0. -/
  | free {lowest seen} : 0 ∈ T.line s → (∀ i, seen i = true → lowest ≤ i) → Walked T s (.ok (true, lowest, seen))
  /-- It never ends. -/
  | loop {lowest seen} : T.Loops s → (∀ i, seen i = true → lowest ≤ i) → Walked T s (.ok (false, lowest, seen))
  /-- It ends at a number beyond the array. -/
  | beyond {y} : T.EndsAt s y → T.highestSeqno < y → Walked T s (.error .undefined)
  /-- It ends at a number that is missing. -/
  | missing {y} : T.EndsAt s y → y ≤ T.highestSeqno → Walked T s (.error (.corrupt "missing seqno %u"))

section

variable {T : DeltaTable} {s p : ℕ}

theorem at?_beyond (h : T.highestSeqno < s) : T.at? s = none := by
  rcases hd : T.at? s with _ | d
  · rfl
  · obtain ⟨hm, rfl⟩ := mem_of_at? hd
    exact absurd (le_highestSeqno hm) (by omega)

/-- What is found out about the predecessor holds of the delta. -/
theorem Walked.of_next (hp : T.next s = some p) {r : Except Quit (Bool × ℕ × (ℕ → Bool))} (h : Walked T p r) :
    Walked T s r := by
  have hline : ∀ {y}, y ∈ T.line p → y ∈ T.line s := fun hy => (mem_chain_iff hp).mpr (.inr hy)
  cases h with
  | free h0 hlow => exact .free (hline h0) hlow
  | loop hl hlow =>
    refine .loop (fun y hy => ?_) hlow
    rcases (mem_chain_iff hp).mp hy with rfl | hy
    · rw [hp]
      simp
    · exact hl y hy
  | beyond hy hlt => exact .beyond ⟨hline hy.1, hy.2⟩ hlt
  | missing hy hle => exact .missing ⟨hline hy.1, hy.2⟩ hle

theorem safePredecessor_of_at? {d : Delta} (h : T.at? s = some d) (h0 : s ≠ 0) :
    safePredecessor T s = .ok d.prevSeq := by
  obtain ⟨h1, h2⟩ := deltaAtSeq_of_at? h (Nat.pos_of_ne_zero h0)
  rw [safePredecessor, h2, ok_bind, if_pos rfl, h1]
  rfl

theorem safePredecessor_of_none (h : T.at? s = none) (h0 : s ≠ 0) (hle : s ≤ T.highestSeqno) :
    safePredecessor T s = .error (.corrupt "missing seqno %u") := by
  have hex : T.deltaAtSeqExists s = .ok false := by
    rw [deltaAtSeqExists, if_pos ⟨Nat.pos_of_ne_zero h0, hle⟩, h]
    rfl
  rw [safePredecessor, hex, ok_bind, if_neg (by simp)]

/-- **The first loop finds out how the way down ends.** -/
theorem walk_spec {loopfree seen : ℕ → Bool} {fuel : ℕ} (s lowest : ℕ) (hfree : ∀ i, loopfree i = true → 0 ∈ T.line i)
    (hfuel : (unmet T.highestSeqno seen).card < fuel)
    (hseen : ∀ i, seen i = true → lowest ≤ i ∧ Relation.TransGen (Follows T.next) i s) :
    Walked T s (walk T loopfree fuel s lowest seen) := by
  induction fuel generalizing s lowest seen with
  | zero => omega
  | succ fuel ih =>
    have hlow : ∀ i, seen i = true → min s lowest ≤ i := fun i hi => (min_le_right s lowest).trans (hseen i hi).1
    rw [walk]
    by_cases h0 : s = 0
    · subst h0
      rw [if_pos rfl]
      exact .free (mem_chain_self _ _) fun i hi => (hseen i hi).1
    rw [if_neg h0]
    by_cases hle : T.highestSeqno < s
    · rw [if_pos hle]
      exact .beyond ⟨mem_chain_self _ _, h0, at?_beyond hle⟩ hle
    rw [if_neg hle]
    by_cases hlf : loopfree s = true
    · rw [if_pos hlf]
      exact .free (hfree s hlf) hlow
    rw [if_neg hlf]
    by_cases hs : seen s = true
    · -- the way has come back to a number it met before
      rw [if_pos hs]
      have hcyc : Cyclic T.next s := (hseen s hs).2
      exact .loop (fun y hy => (hcyc.of_mem hy).next_ne_none) hlow
    rw [if_neg hs]
    rcases hd : T.at? s with _ | d
    · rw [safePredecessor_of_none hd h0 (by omega), error_bind]
      exact .missing ⟨mem_chain_self _ _, h0, hd⟩ (by omega)
    · have hnext := next_of_at? hd h0
      rw [safePredecessor_of_at? hd h0, ok_bind]
      refine (ih _ _ ?_ fun i hi => ?_).of_next hnext
      · have := unmet_update h0 (by omega : s ≤ T.highestSeqno) (by simpa using hs)
        omega
      · by_cases his : i = s
        · subst his
          exact ⟨min_le_left _ _, .single hnext⟩
        · rw [Function.update_of_ne his] at hi
          exact ⟨hlow i hi, (hseen i hi).2.tail hnext⟩

/-- **The second loop ends**, and marks only numbers on the way down. -/
theorem markLoopfree_spec (seen : ℕ → Bool) {loopfree : ℕ → Bool} {fuel : ℕ} (h0 : 0 ∈ T.line s)
    (hfree : ∀ i, loopfree i = true → 0 ∈ T.line i)
    (hfuel : (T.line s ∩ Set.Icc 1 T.highestSeqno).ncard < fuel) :
    ∃ loopfree', markLoopfree T seen fuel s loopfree = .ok loopfree' ∧ ∀ i, loopfree' i = true → 0 ∈ T.line i := by
  induction fuel generalizing s loopfree with
  | zero => omega
  | succ fuel ih =>
    rw [markLoopfree]
    by_cases hs : s = 0
    · exact ⟨loopfree, by rw [if_pos hs], hfree⟩
    rw [if_neg hs]
    rcases hd : T.at? s with _ | d
    · -- a way that ends here does not end at 0
      exact absurd (end_unique h0 T.next_zero (mem_chain_self _ _) (next_of_none hd)) (fun e => hs e.symm)
    obtain ⟨hm, rfl⟩ := mem_of_at? hd
    have hle := le_highestSeqno hm
    have hnext := next_of_at? hd hs
    rw [if_neg (by omega), (deltaAtSeq_of_at? hd (Nat.pos_of_ne_zero hs)).1, ok_bind]
    by_cases hlf : loopfree d.seq = true
    · exact ⟨loopfree, by rw [if_pos hlf], hfree⟩
    rw [if_neg hlf]
    have h0' : 0 ∈ T.line d.prevSeq := ((mem_chain_iff hnext).mp h0).resolve_left (fun e => hs e.symm)
    refine ih h0' (fun i hi => ?_) ?_
    · split at hi
      · by_cases his : i = d.seq
        · exact his ▸ h0
        · rw [Function.update_of_ne his] at hi
          exact hfree i hi
      · exact hfree i hi
    · -- the number at hand is not met again
      have hback : d.seq ∉ T.line d.prevSeq := fun hb =>
        not_cyclic_of_end h0 T.next_zero (mem_chain_self _ _) (Relation.TransGen.head' hnext hb)
      have hlt : (T.line d.prevSeq ∩ Set.Icc 1 T.highestSeqno).ncard < (T.line d.seq ∩ Set.Icc 1 T.highestSeqno).ncard := by
        apply Set.ncard_lt_ncard _ ((Set.finite_Icc 1 T.highestSeqno).subset Set.inter_subset_right)
        refine ⟨fun i hi => ⟨(mem_chain_iff hnext).mpr (.inr hi.1), hi.2⟩, fun hsub => ?_⟩
        exact hback (hsub ⟨mem_chain_self _ _, by omega, hle⟩).1
      omega

/-- What `check_loop_free` reports, with what it knows afterwards. -/
inductive Checked (T : DeltaTable) (s : ℕ) : Except Quit (Bool × (ℕ → Bool) × (ℕ → Bool)) → Prop
  /-- The way down ends at 0. -/
  | free {loopfree} : 0 ∈ T.line s → (∀ i, loopfree i = true → 0 ∈ T.line i) →
      Checked T s (.ok (true, loopfree, fun _ => false))
  /-- It never ends. -/
  | loop {loopfree} : T.Loops s → (∀ i, loopfree i = true → 0 ∈ T.line i) →
      Checked T s (.ok (false, loopfree, fun _ => false))
  /-- It ends at a number beyond the arrays. -/
  | beyond {y} : T.EndsAt s y → T.highestSeqno < y → Checked T s (.error .undefined)
  /-- It ends at a number that is missing. -/
  | missing {y} : T.EndsAt s y → y ≤ T.highestSeqno → Checked T s (.error (.corrupt "missing seqno %u"))

theorem clear_eq {lowest : ℕ} {seen : ℕ → Bool} (h : ∀ i, seen i = true → lowest ≤ i) :
    clear lowest seen = fun _ => false := by
  funext i
  unfold clear
  split
  · rfl
  · rename_i hi
    simpa using fun hs => hi (h i hs)

/-- **The check tells how the way down ends**, whatever it has found before. -/
theorem checkLoopFree_spec {loopfree : ℕ → Bool} (hfree : ∀ i, loopfree i = true → 0 ∈ T.line i) :
    Checked T s (checkLoopFree T s loopfree fun _ => false) := by
  have hunmet : (unmet T.highestSeqno fun _ => false).card < T.highestSeqno + 2 := by
    refine lt_of_le_of_lt (Finset.card_filter_le _ _) ?_
    rw [Nat.card_Icc]
    omega
  have hwalk := walk_spec s T.highestSeqno hfree hunmet (by simp)
  unfold checkLoopFree
  generalize walk T loopfree (T.highestSeqno + 2) s T.highestSeqno (fun _ => false) = r at hwalk
  cases hwalk with
  | @free lowest seen h0 hlow =>
    have hfuel : (T.line s ∩ Set.Icc 1 T.highestSeqno).ncard < T.highestSeqno + 2 := by
      have h1 := Set.ncard_le_ncard (Set.inter_subset_right (s := T.line s)) (Set.finite_Icc 1 T.highestSeqno)
      rw [← Finset.coe_Icc, Set.ncard_coe_finset, Nat.card_Icc] at h1
      rw [← Finset.coe_Icc]
      omega
    obtain ⟨loopfree', hmark, hfree'⟩ := markLoopfree_spec seen h0 hfree hfuel
    rw [ok_bind]
    dsimp only
    rw [if_pos rfl, hmark, ok_bind, clear_eq hlow]
    exact .free h0 hfree'
  | loop hl hlow =>
    rw [ok_bind]
    dsimp only
    rw [if_neg (by simp), ok_bind, clear_eq hlow]
    exact .loop hl hfree
  | beyond hy hlt => exact .beyond hy hlt
  | missing hy hle => exact .missing hy hle

end

end CSSC.Table
