import CSSC.Body.WriteSubst

/-!
# The names that go with a history file

From the name `dir/s.foo` of a history file the names of the files that a command uses are made: `dir/p.foo`,
`dir/z.foo` and so on, by another letter in the place of the `s`. The lock is taken with the help of files
`dir/nfslck0`, `dir/nfslck1`, … in the same directory.

**No two of the names made from valid names are the same**, unless the history file and the letter are the same
(`subFile_inj`), and a file `nfslck` is none of them (`lockname_ne_subFile`).
-/

namespace CSSC.Files

open CSSC.Library.Decimal CSSC.Body

/-- The name of a file. -/
abbrev PathName := List UInt8

/-- `split_filename`: the directory with its slash, and the base name. -/
def splitFilename (fullname : PathName) : PathName × PathName :=
  ((fullname.reverse.dropWhile (· ≠ 47)).reverse, (fullname.reverse.takeWhile (· ≠ 47)).reverse)

/-- `sccs_name::valid_filename`. -/
def validFilename (thename : PathName) : Bool := ([115, 46] : PathName).isPrefixOf (splitFilename thename).2

/-- `name_front_`. -/
def nameFront (sname : PathName) : PathName := (splitFilename sname).1

/-- `name_rear_`: the base name without its first letter. -/
def nameRear (sname : PathName) : PathName :=
  if 2 ≤ (splitFilename sname).2.length then (splitFilename sname).2.drop 1 else (splitFilename sname).2

/-- `sub_file`. -/
def subFile (sname : PathName) (insertme : UInt8) : PathName := nameFront sname ++ insertme :: nameRear sname

/-- `zfile()`, the lock file. -/
def zfile (sname : PathName) : PathName := subFile sname 122

/-- `pfile()`. -/
def pfile (sname : PathName) : PathName := subFile sname 112

/-- `qfile()`, the p-file that is being written. -/
def qfile (sname : PathName) : PathName := subFile sname 113

/-- `xfile()`, the history file that is being written. -/
def xfile (sname : PathName) : PathName := subFile sname 120

/-- `dfile()`, what `delta` compares with. -/
def dfile (sname : PathName) : PathName := subFile sname 100

/-- `ufile()`, the encoded g-file. -/
def ufile (sname : PathName) : PathName := subFile sname 117

/-- `"nfslck"`. -/
def nfslck : PathName := [110, 102, 115, 108, 99, 107]

/-- `lockname`: the file of an attempt to lock `path`. -/
def lockname (path : PathName) (attempt : ℕ) : PathName := (splitFilename path).1 ++ nfslck ++ decimal attempt

/-! ### Splitting -/

variable {s t dir base : PathName} {c c' : UInt8}

/-- A directory part: it is empty, or it ends in a slash. -/
def IsDir (dir : PathName) : Prop := dir = [] ∨ ∃ d, dir = d ++ [47]

theorem splitFilename_append (s : PathName) : (splitFilename s).1 ++ (splitFilename s).2 = s := by
  rw [splitFilename, ← List.reverse_append, List.takeWhile_append_dropWhile, List.reverse_reverse]

/-- The base name has no slash. -/
theorem splitFilename_base (s : PathName) : (47 : UInt8) ∉ (splitFilename s).2 := by
  rw [splitFilename, List.mem_reverse]
  intro h
  simpa using List.mem_takeWhile_imp h

/-- What comes before it ends in a slash. -/
theorem splitFilename_dir (s : PathName) : IsDir (splitFilename s).1 := by
  rcases h : s.reverse.dropWhile (· ≠ 47) with _ | ⟨x, l⟩
  · left
    rw [splitFilename, h]
    rfl
  · right
    have hx := List.head_dropWhile_not (· ≠ 47) (l := s.reverse) (by rw [h]; simp)
    simp only [h, List.head_cons, decide_eq_false_iff_not, not_not] at hx
    exact ⟨l.reverse, by rw [splitFilename, h, List.reverse_cons, hx]⟩

/-- **Splitting finds the last slash.** -/
theorem splitFilename_of (hd : IsDir dir) (hb : (47 : UInt8) ∉ base) : splitFilename (dir ++ base) = (dir, base) := by
  have hall : ∀ x ∈ base.reverse, decide (x ≠ 47) = true := by
    intro x hx
    rw [decide_eq_true_eq]
    rintro rfl
    exact hb (List.mem_reverse.mp hx)
  rw [splitFilename, List.reverse_append, List.dropWhile_append_of_pos hall, List.takeWhile_append_of_pos hall]
  rcases hd with rfl | ⟨d, rfl⟩
  · simp
  · simp

/-! ### The names of a history file -/

/-- A valid name, taken apart. -/
theorem validFilename_iff :
    validFilename s = true ↔ ∃ dir g, IsDir dir ∧ (47 : UInt8) ∉ g ∧ s = dir ++ [115, 46] ++ g := by
  rw [validFilename, List.isPrefixOf_iff_prefix]
  constructor
  · rintro ⟨g, hg⟩
    refine ⟨_, g, splitFilename_dir s, fun h => ?_, ?_⟩
    · exact splitFilename_base s (hg ▸ List.mem_append_right _ h)
    · rw [List.append_assoc, hg, splitFilename_append]
  · rintro ⟨dir, g, hd, hg, rfl⟩
    rw [List.append_assoc, splitFilename_of hd (by simpa using hg)]
    exact ⟨g, rfl⟩

/-- Another letter in a valid name. -/
theorem subFile_of (hd : IsDir dir) (hg : (47 : UInt8) ∉ base) :
    subFile (dir ++ [115, 46] ++ base) c = dir ++ c :: 46 :: base := by
  rw [subFile, nameFront, nameRear, List.append_assoc, splitFilename_of hd (by simpa using hg)]
  simp

/-- The letter `s` gives the name of the history file back. -/
theorem subFile_sfile (hs : validFilename s = true) : subFile s 115 = s := by
  obtain ⟨dir, g, hd, hg, rfl⟩ := validFilename_iff.mp hs
  rw [subFile_of hd hg]
  simp

/-- A name with another letter is in the same directory. -/
theorem splitFilename_subFile (hs : validFilename s = true) (hc : c ≠ 47) :
    splitFilename (subFile s c) = ((splitFilename s).1, c :: nameRear s) := by
  obtain ⟨dir, g, hd, hg, rfl⟩ := validFilename_iff.mp hs
  rw [nameRear, subFile_of hd hg, splitFilename_of hd (by simp [hg, Ne.symm hc]), List.append_assoc,
    splitFilename_of hd (by simpa using hg)]
  simp

/-- **No two names made from valid names are the same**, unless all is the same. -/
theorem subFile_inj (hs : validFilename s = true) (ht : validFilename t = true) (hc : c ≠ 47) (hc' : c' ≠ 47) :
    subFile s c = subFile t c' ↔ s = t ∧ c = c' := by
  constructor
  · intro h
    have hsplit := congrArg splitFilename h
    rw [splitFilename_subFile hs hc, splitFilename_subFile ht hc', Prod.mk.injEq, List.cons.injEq] at hsplit
    obtain ⟨hdir, rfl, hrear⟩ := hsplit
    refine ⟨?_, rfl⟩
    rw [← subFile_sfile hs, ← subFile_sfile ht, subFile, subFile, nameFront, nameFront, hdir, hrear]
  · rintro ⟨rfl, rfl⟩
    rfl

/-! ### The files of the lock -/

theorem lockname_base (k : ℕ) : (47 : UInt8) ∉ nfslck ++ decimal k := by
  rw [List.mem_append, not_or]
  refine ⟨by decide, fun h => ?_⟩
  have := decimal_isDigit k _ h
  revert this
  decide

theorem splitFilename_lockname (path : PathName) (k : ℕ) :
    splitFilename (lockname path k) = ((splitFilename path).1, nfslck ++ decimal k) := by
  rw [lockname, List.append_assoc, splitFilename_of (splitFilename_dir path) (lockname_base k)]

/-- A file `nfslck` is none of the names that are made from a valid name. -/
theorem lockname_ne_subFile (hs : validFilename s = true) (hc : c ≠ 47) (path : PathName) (k : ℕ) :
    lockname path k ≠ subFile s c := by
  intro h
  have hsplit := congrArg (fun n => (splitFilename n).2) h
  obtain ⟨dir, g, hd, hg, rfl⟩ := validFilename_iff.mp hs
  rw [subFile_of hd hg] at hsplit
  simp only [splitFilename_lockname, splitFilename_of hd (show (47 : UInt8) ∉ c :: 46 :: g by simp [hg, Ne.symm hc])]
    at hsplit
  simp [nfslck] at hsplit

end CSSC.Files
