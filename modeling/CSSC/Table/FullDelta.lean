import CSSC.Table.Date
import CSSC.Table.DeltaTable

/-!
# Deltas with all their fields

What a version consists of depends on a few fields of the deltas only; what is written to the history file, and what
`val` looks at, on all of them. A `FullDelta` is a `Delta` with its date, its user, the three counts, the MRs, the
comments, and whether each list was present; `FullTable.table` is the delta table of the rest of the development. What
the parser guarantees of a table is `Parsed`: valid SIDs and dates, and numbers of 16 bits.
-/

namespace CSSC.Table

open CSSC.Lines

/-- `delta`. Strings are lists of bytes. -/
structure FullDelta extends Delta where
  /-- `date_`. -/
  date : SccsDate
  /-- `user_`. -/
  user : List UInt8
  /-- `have_includes_`: the file has an include list, if only an empty one. -/
  haveIncludes : Bool
  /-- `have_excludes_`. -/
  haveExcludes : Bool
  /-- `have_ignores_`. -/
  haveIgnores : Bool
  /-- `mrs_`. -/
  mrs : List (List UInt8)
  /-- `comments_`. -/
  comments : List (List UInt8)
  /-- `inserted_`. -/
  inserted : ℕ
  /-- `deleted_`. -/
  deleted : ℕ
  /-- `unchanged_`. -/
  unchanged : ℕ
  deriving DecidableEq, Repr

/-- `cssc_delta_table`: the deltas in the order of the file. -/
abbrev FullTable := List FullDelta

namespace FullTable

/-- The deltas without the fields that no version depends on. -/
def table (F : FullTable) : DeltaTable := F.map (·.toDelta)

/-- `seq_table_`. -/
def at? (F : FullTable) (seq : ℕ) : Option FullDelta := F.reverse.find? (·.seq = seq)

/-- `delta_at_seq`. -/
def deltaAtSeq (F : FullTable) (seq : ℕ) : Except Quit FullDelta :=
  if 0 < seq ∧ seq ≤ F.table.highestSeqno then
    match F.at? seq with
    | some d => .ok d
    | none => .error .assertion
  else .error .assertion

/-- The deltas that an iterator over `delta_selector::current` visits. -/
def current (F : FullTable) : List FullDelta := F.filter (!·.removed)

/-- What the parser guarantees. -/
structure Parsed (F : FullTable) : Prop where
  /-- SIDs are valid. -/
  id : ∀ d ∈ F, d.id.valid = true
  /-- Dates are valid. -/
  date : ∀ d ∈ F, d.date.valid = true
  /-- A `seq_no` has 16 bits. -/
  seq : ∀ d ∈ F, d.seq < 65536 ∧ d.prevSeq < 65536
  /-- So have the entries of the lists. -/
  lists : ∀ d ∈ F, ∀ s ∈ d.included ++ d.excluded ++ d.ignored, s < 65536

theorem table_current (F : FullTable) : F.table.current = F.current.map (·.toDelta) := by
  rw [DeltaTable.current, table, List.filter_map]
  rfl

theorem mem_of_at? {F : FullTable} {seq : ℕ} {d : FullDelta} (h : F.at? seq = some d) : d ∈ F ∧ d.seq = seq :=
  ⟨List.mem_reverse.mp (List.mem_of_find?_eq_some h), by simpa using List.find?_some h⟩

/-- `delta_at_seq` finds a delta that exists, and fails for a number that no delta has. -/
theorem deltaAtSeq_of_at? {F : FullTable} {seq : ℕ} {d : FullDelta} (h : F.at? seq = some d) (h0 : 0 < seq) :
    F.deltaAtSeq seq = .ok d := by
  obtain ⟨hd, rfl⟩ := mem_of_at? h
  rw [deltaAtSeq, if_pos ⟨h0, DeltaTable.le_highestSeqno (List.mem_map_of_mem hd)⟩, h]

theorem deltaAtSeq_of_none {F : FullTable} {seq : ℕ} (h : F.at? seq = none) :
    F.deltaAtSeq seq = .error .assertion := by
  unfold deltaAtSeq
  split
  · rw [h]
  · rfl

theorem mem_table {F : FullTable} {d : FullDelta} (h : d ∈ F) : d.toDelta ∈ F.table := List.mem_map_of_mem h

theorem mem_of_mem_current {F : FullTable} {d : FullDelta} (h : d ∈ F.current) : d ∈ F := List.mem_of_mem_filter h

end FullTable

/-! ### Small tables -/

/-- A day in the first month of 2001. -/
def january (day : ℤ) : SccsDate := ⟨2001, 1, day, 12, 0, 0⟩

/-- A delta of the trunk with these numbers and lists, made on the day of January that its number says. -/
def trunkDelta (seq prevSeq : ℕ) (included excluded : List ℕ) : FullDelta where
  type := .D
  id := ⟨1, Int16.ofNat seq, 0, 0⟩
  seq := seq
  prevSeq := prevSeq
  included := included
  excluded := excluded
  ignored := []
  date := january seq
  user := [97]
  haveIncludes := included ≠ []
  haveExcludes := excluded ≠ []
  haveIgnores := false
  mrs := []
  comments := []
  inserted := 0
  deleted := 0
  unchanged := 0

end CSSC.Table
