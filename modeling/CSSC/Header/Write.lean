import CSSC.Body.ReadBack
import CSSC.Header.Parse

/-!
# Writing the header

`sccs_file::write` prints the header of a history file: the deltas, the users, the flags and the description.

Lines are strings, and each is printed with a newline after it; a `std::string` that is printed through `c_str()` ends
at its first NUL. The counts of a delta are at most 99999 and take five characters (`cap5`, `padded`). `sid::print`
asserts that the SID is valid. Users and lines of the description that begin with `^A` run into an assertion, and so
does a file without a delta table; otherwise `write_eq_ok` says what is written.
-/

namespace CSSC.Header

open CSSC.Lines CSSC.Body CSSC.Table CSSC.Library.Decimal

/-- Lines that are written, without their newlines. -/
abbrev Texts := List (List UInt8)

/-- Each line is printed with a newline after it. -/
def printed (ls : Texts) : List UInt8 := ls.flatMap fun l => l ++ [10]

/-! ### Deltas -/

/-- `cap5`. -/
def cap5 (n : ℕ) : ℕ := min n 99999

/-- A number that is printed with zeros in front, up to this width. -/
def padded (width n : ℕ) : List UInt8 := List.replicate (width - (decimal n).length) 48 ++ decimal n

/-- The counts in a line `^As`. -/
def iduText (d : FullDelta) : List UInt8 :=
  padded 5 (cap5 d.inserted) ++ 47 :: (padded 5 (cap5 d.deleted) ++ 47 :: padded 5 (cap5 d.unchanged))

/-- The character for a type. -/
def typeLetter : DeltaType → UInt8
  | .D => 68
  | .R => 82

/-- The fields of a line `^Ad`. -/
def fieldTexts (d : FullDelta) : Texts :=
  [[typeLetter d.type], d.id.text, d.date.dateText, d.date.timeText, cstr d.user, decimal d.seq, decimal d.prevSeq]

/-- `print_seqs`: nothing for an empty list. -/
def printSeqs (k : ListKind) (seqs : List ℕ) : Texts :=
  if seqs = [] then [] else [1 :: k.letter :: seqs.flatMap fun s => 32 :: decimal s]

/-- The lines of a delta. -/
def deltaLines (d : FullDelta) : Texts :=
  [1 :: 115 :: 32 :: iduText d, 1 :: 100 :: 32 :: [32].intercalate (fieldTexts d)] ++
    printSeqs .i d.included ++ printSeqs .x d.excluded ++ printSeqs .g d.ignored ++
    (d.mrs.map fun s => 1 :: 109 :: 32 :: cstr s) ++ (d.comments.map fun s => 1 :: 99 :: 32 :: cstr s) ++ [[1, 101]]

/-- `write_delta`. -/
def writeDelta (d : FullDelta) : Except Quit Texts :=
  if d.id.valid then .ok (deltaLines d) else .error .assertion

/-! ### Flags -/

/-- What is written of a flag: its argument, if it is set and has one. -/
def Flags.shown (f : Flags) : FlagName → Option (Option (List UInt8))
  | .b => if f.branch then some none else none
  | .c => (f.ceiling.filter (0 < ·)).map fun r => some (intDecimal r.toInt)
  | .d => (f.defaultSid.filter (·.valid)).map fun s => some s.text
  | .f => (f.floor.filter (0 < ·)).map fun r => some (intDecimal r.toInt)
  | .i => if f.noIdKeywordsIsFatal then some none else none
  | .j => if f.jointEdit then some none else none
  | .l => if f.allLocked then some (some [97]) else if f.locked ≠ [] then some (some f.locked.text) else none
  | .m => f.module_.map fun s => some (cstr s)
  | .n => if f.nullDeltas then some none else none
  | .q => f.userDef.map fun s => some (cstr s)
  | .t => f.type.map fun s => some (cstr s)
  | .v => f.mrChecker.map fun s => some (cstr s)
  | .e => some (some [if f.encoded then 49 else 48])
  | .x => if f.executable then some none else none
  | .y => if f.letters ≠ [] then some (some ([32].intercalate (f.letters.map fun c => [c]))) else none
  | .z => f.reserved.map fun s => some (cstr s)

/-- The order in which the flags are written. -/
def flagOrder : List FlagName := [.b, .c, .d, .f, .i, .j, .l, .m, .n, .q, .t, .v, .e, .x, .y, .z]

/-- A line `^Af`. -/
def flagLine (name : FlagName) : Option (List UInt8) → List UInt8
  | none => [1, 102, 32, name.letter]
  | some arg => 1 :: 102 :: 32 :: name.letter :: 32 :: arg

/-- The lines of the flags. -/
def flagLines (f : Flags) : Texts := flagOrder.filterMap fun name => (f.shown name).map (flagLine name)

/-! ### The header -/

/-- A user or a line of the description. -/
def writeText (s : List UInt8) : Except Quit (List UInt8) :=
  if s.head? ≠ some 1 then .ok (cstr s) else .error .assertion

/-- `write`. -/
def write (file : SccsFile) : Except Quit Texts :=
  match file.deltaTable with
  | none => .error .assertion
  | some T => do
    let deltas ← T.mapM writeDelta
    let users ← file.users.mapM writeText
    let comments ← file.comments.mapM writeText
    return deltas.flatten ++ [1, 117] :: users ++ [1, 85] :: flagLines file.flags ++ [1, 116] :: comments ++ [[1, 84]]

/-! ### What is written -/

@[simp] theorem printed_nil : printed [] = [] := rfl
@[simp] theorem printed_cons (l : List UInt8) (ls : Texts) : printed (l :: ls) = l ++ 10 :: printed ls := by
  simp [printed]

theorem printed_append (ls ms : Texts) : printed (ls ++ ms) = printed ls ++ printed ms := by
  simp [printed]

/-- What is printed ends with a newline. -/
theorem endsLine_printed (ls : Texts) : EndsLine (printed ls) := by
  rcases List.eq_nil_or_concat ls with rfl | ⟨ls, l, rfl⟩
  · rfl
  · rw [List.concat_eq_append, printed_append, printed_cons, printed_nil, EndsLine, ← List.append_assoc,
      List.getLastD_concat]

theorem decimal_cap5_length (n : ℕ) : (decimal (cap5 n)).length ≤ 5 :=
  decimal_length_le (by rw [cap5]; omega)

theorem padded_length {width n : ℕ} (h : (decimal n).length ≤ width) : (padded width n).length = width := by
  rw [padded, List.length_append, List.length_replicate]
  omega

/-- The counts take five characters each. -/
theorem padded_cap5_length (n : ℕ) : (padded 5 (cap5 n)).length = 5 := padded_length (decimal_cap5_length n)

/-- A check of every element that goes through. -/
theorem mapM_check {α β : Type} {p : α → Prop} [DecidablePred p] {f : α → β} {q : Quit} {as : List α} {bs : List β} :
    (as.mapM fun a => if p a then Except.ok (f a) else .error q) = .ok bs ↔ (∀ a ∈ as, p a) ∧ bs = as.map f := by
  induction as generalizing bs with
  | nil => simp [pure, Except.pure, eq_comm]
  | cons a as ih =>
    rw [List.mapM_cons]
    by_cases ha : p a
    · rw [if_pos ha, ok_bind, bind_eq_ok]
      constructor
      · rintro ⟨cs, hcs, hbs⟩
        obtain ⟨has, rfl⟩ := ih.mp hcs
        exact ⟨List.forall_mem_cons.mpr ⟨ha, has⟩, (Except.ok.inj hbs).symm⟩
      · rintro ⟨has, rfl⟩
        exact ⟨as.map f, ih.mpr ⟨(List.forall_mem_cons.mp has).2, rfl⟩, rfl⟩
    · rw [if_neg ha, error_bind]
      simp [ha]

/-- The header of a file with these deltas. -/
def headerLines (T : FullTable) (file : SccsFile) : Texts :=
  T.flatMap deltaLines ++ [1, 117] :: file.users.map cstr ++ [1, 85] :: flagLines file.flags ++
    [1, 116] :: file.comments.map cstr ++ [[1, 84]]

/-- **What is written**, if no assertion fails. -/
theorem write_eq_ok {file : SccsFile} {ls : Texts} :
    write file = .ok ls ↔ ∃ T, file.deltaTable = some T ∧ (∀ d ∈ T, d.id.valid = true) ∧
      (∀ s ∈ file.users, s.head? ≠ some 1) ∧ (∀ s ∈ file.comments, s.head? ≠ some 1) ∧ ls = headerLines T file := by
  unfold write
  cases file.deltaTable with
  | none => simp
  | some T =>
    simp only [bind_eq_ok, Option.some.injEq, exists_eq_left']
    constructor
    · rintro ⟨ds, hds, us, hus, cs, hcs, h⟩
      obtain ⟨hd, rfl⟩ := mapM_check.mp hds
      obtain ⟨hu, rfl⟩ := mapM_check.mp hus
      obtain ⟨hc, rfl⟩ := mapM_check.mp hcs
      exact ⟨hd, hu, hc, by rw [headerLines, List.flatMap]; exact (Except.ok.inj h).symm⟩
    · rintro ⟨hd, hu, hc, rfl⟩
      refine ⟨_, mapM_check.mpr ⟨hd, rfl⟩, _, mapM_check.mpr ⟨hu, rfl⟩, _, mapM_check.mpr ⟨hc, rfl⟩, ?_⟩
      rw [headerLines, List.flatMap]
      rfl

end CSSC.Header
