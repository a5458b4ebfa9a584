import CSSC.Lines.Text
import CSSC.Table.Sid

/-!
# The delta table

The history file begins with a table of its deltas, the newest first. A `Delta` has its SID, its sequence number, that
of its predecessor, and the lists of deltas it includes, excludes and ignores. Date, user, MRs, comments, the three
counts and the flags for empty lists are left out here. The map from sequence numbers is `at?`: of several deltas with
the same number the last one counts.

**The deltas that are found are those that exist** (`deltaAtSeq_of_at?`, `at?_of_deltaAtSeq`). In a table that the
program makes, predecessors and lists name only earlier deltas that exist (`Earlier`), and no delta has the number 0
(`Earlier.pos`).
-/

namespace CSSC.Table

open CSSC.Lines

/-- `delta_type_`. -/
inductive DeltaType where
  /-- `D`: a delta. -/
  | D
  /-- `R`: a delta that was removed. -/
  | R
  deriving DecidableEq, Repr

/-- `delta`. -/
structure Delta where
  /-- `delta_type_`. -/
  type : DeltaType
  /-- `id_`. -/
  id : Sid
  /-- `seq_`. -/
  seq : ℕ
  /-- `prev_seq_`; 0 for none. -/
  prevSeq : ℕ
  /-- `included_`. -/
  included : List ℕ
  /-- `excluded_`. -/
  excluded : List ℕ
  /-- `ignored_`. -/
  ignored : List ℕ
  deriving DecidableEq, Repr

/-- `removed()`. -/
def Delta.removed (d : Delta) : Bool := d.type = .R

/-- `cssc_delta_table`: the deltas in the order of the file. -/
abbrev DeltaTable := List Delta

namespace DeltaTable

/-- `highest_seqno()`. -/
def highestSeqno (T : DeltaTable) : ℕ := T.foldr (fun d h => max d.seq h) 0

/-- `seq_table_`. -/
def at? (T : DeltaTable) (seq : ℕ) : Option Delta := T.reverse.find? (·.seq = seq)

/-- `delta_at_seq_exists`. -/
def deltaAtSeqExists (T : DeltaTable) (seq : ℕ) : Except Quit Bool :=
  if 0 < seq ∧ seq ≤ T.highestSeqno then .ok (T.at? seq).isSome else .error .assertion

/-- `delta_at_seq`. -/
def deltaAtSeq (T : DeltaTable) (seq : ℕ) : Except Quit Delta :=
  if 0 < seq ∧ seq ≤ T.highestSeqno then
    match T.at? seq with
    | some d => .ok d
    | none => .error .assertion
  else .error .assertion

/-- The deltas that an iterator over `delta_selector::current` visits. -/
def current (T : DeltaTable) : List Delta := T.filter (!·.removed)

/-- `find`: the first current delta with this SID. -/
def find (T : DeltaTable) (id : Sid) : Option Delta := T.current.find? (·.id = id)

/-- `find_any`: the first delta with this SID, current or not. -/
def findAny (T : DeltaTable) (id : Sid) : Option Delta := T.find? (·.id = id)

/-- `next_seqno()`: a `seq_no` has 16 bits. -/
def nextSeqno (T : DeltaTable) : ℕ := (T.highestSeqno + 1) % 65536

/-- `prepend`. -/
def prepend (T : DeltaTable) (d : Delta) : DeltaTable := d :: T

/-- Predecessors and lists name only earlier deltas that exist; 0 stands for no predecessor. -/
def Earlier (T : DeltaTable) : Prop :=
  ∀ d ∈ T, d.prevSeq < d.seq ∧ (d.prevSeq ≠ 0 → (T.at? d.prevSeq).isSome) ∧
    ∀ s ∈ d.included ++ d.excluded ++ d.ignored, s < d.seq ∧ (T.at? s).isSome

instance (T : DeltaTable) : Decidable T.Earlier := inferInstanceAs (Decidable (∀ d ∈ T, _))

/-! ### Finding deltas -/

theorem le_highestSeqno {T : DeltaTable} {d : Delta} (h : d ∈ T) : d.seq ≤ T.highestSeqno := by
  induction T with
  | nil => simp at h
  | cons e T ih =>
    rcases List.mem_cons.mp h with rfl | h
    · exact le_max_left _ _
    · exact (ih h).trans (le_max_right _ _)

theorem mem_of_at? {T : DeltaTable} {seq : ℕ} {d : Delta} (h : T.at? seq = some d) : d ∈ T ∧ d.seq = seq :=
  ⟨List.mem_reverse.mp (List.mem_of_find?_eq_some h), by simpa using List.find?_some h⟩

theorem at?_isSome_iff {T : DeltaTable} {seq : ℕ} : (T.at? seq).isSome ↔ ∃ d ∈ T, d.seq = seq := by
  rw [at?, List.find?_isSome]
  simp

/-- With distinct numbers every delta is found by its number. -/
theorem at?_of_nodup {T : DeltaTable} (h : (T.map Delta.seq).Nodup) {d : Delta} (hd : d ∈ T) : T.at? d.seq = some d := by
  obtain ⟨e, he⟩ := Option.isSome_iff_exists.mp (at?_isSome_iff.mpr ⟨d, hd, rfl⟩)
  obtain ⟨hm, hs⟩ := mem_of_at? he
  rw [he, List.inj_on_of_nodup_map h hm hd hs]

/-- **A delta that exists is found.** -/
theorem deltaAtSeq_of_at? {T : DeltaTable} {seq : ℕ} {d : Delta} (h : T.at? seq = some d) (h0 : 0 < seq) :
    T.deltaAtSeq seq = .ok d ∧ T.deltaAtSeqExists seq = .ok true := by
  obtain ⟨hd, rfl⟩ := mem_of_at? h
  have hr : 0 < d.seq ∧ d.seq ≤ T.highestSeqno := ⟨h0, le_highestSeqno hd⟩
  constructor
  · rw [deltaAtSeq, if_pos hr, h]
  · rw [deltaAtSeqExists, if_pos hr, h]
    rfl

/-- What is found is in the table. -/
theorem at?_of_deltaAtSeq {T : DeltaTable} {seq : ℕ} {d : Delta} (h : T.deltaAtSeq seq = .ok d) :
    T.at? seq = some d := by
  unfold deltaAtSeq at h
  split at h
  · split at h
    · rename_i e he
      rw [he, Except.ok.inj h]
    · cases h
  · cases h

/-- A new delta in front is found, and hides no other. -/
theorem at?_prepend (T : DeltaTable) (d : Delta) (h : ∀ e ∈ T, e.seq ≠ d.seq) (seq : ℕ) :
    (T.prepend d).at? seq = if seq = d.seq then some d else T.at? seq := by
  rw [at?, prepend, List.reverse_cons, List.find?_append]
  by_cases hs : seq = d.seq
  · have hnone : T.reverse.find? (·.seq = seq) = none := by
      rw [List.find?_eq_none]
      intro e he
      simpa [hs] using h e (List.mem_reverse.mp he)
    rw [if_pos hs, hnone, Option.none_or]
    simp [hs]
  · rw [if_neg hs]
    have hne : ¬ d.seq = seq := fun e => hs e.symm
    simp [at?, hne]

theorem highestSeqno_prepend (T : DeltaTable) (d : Delta) :
    (T.prepend d).highestSeqno = max d.seq T.highestSeqno := rfl

/-- Under `Earlier` no delta has the number 0, which is not earlier than any other. -/
theorem Earlier.pos {T : DeltaTable} (h : T.Earlier) {d : Delta} (hd : d ∈ T) : 0 < d.seq :=
  (Nat.zero_le _).trans_lt (h d hd).1

end DeltaTable

end CSSC.Table
