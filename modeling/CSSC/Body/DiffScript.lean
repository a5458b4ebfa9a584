import CSSC.Body.DiffState

/-!
# Normal-format diff scripts

What diff(1) prints for two files, as the program's line buffer delivers it. A `Hunk` is some unchanged lines and then
a change, and a `Script` the hunks, separated by at least one unchanged line, the unchanged lines after the last one,
and perhaps the mark for a missing newline. The inserted lines are strings, since a line of the new file may contain a
NUL and is then delivered without what follows it. `Script.render` is what is delivered, with the line numbers.

`strtol` reads a number in decimal back (`getNum_decimal`), and so a command is understood, as one for a place further
on (`takeCommand_ahead`) or as the change to make now (`takeCommand_here`).
-/

namespace CSSC.Body

open CSSC.Lines CSSC.Library.Decimal

/-- A change, and the unchanged lines before it. -/
structure Hunk where
  /-- The unchanged lines since the last change. -/
  keep : List Line
  /-- The lines deleted. -/
  del : List Line
  /-- The lines inserted, each as it is delivered. -/
  ins : List CLine
  /-- Something is changed. -/
  changes : del ≠ [] ∨ ins ≠ []

/-- The script that diff prints for two files. -/
structure Script where
  /-- The changes. -/
  hunks : List Hunk
  /-- The unchanged lines after the last change. -/
  tail : List Line
  /-- Whether the mark for a missing newline at the end of the file is there. -/
  marker : Bool
  /-- Changes are separated by unchanged lines. -/
  separated : ∀ h ∈ hunks.tail, h.keep ≠ []

/-- A string with two characters before it. -/
def quoted (c : UInt8) (hc : 32 < c) (s : CLine) : CLine where
  bytes := c :: 32 :: s.bytes
  no_nul := by
    simp only [List.mem_cons, not_or]
    exact ⟨fun e => by subst e; simp at hc, by decide, s.no_nul⟩
  newline_last := by
    rcases h : s.bytes with _ | ⟨d, ds⟩
    · simp only [List.dropLast_cons_cons, List.dropLast_singleton, List.mem_singleton]
      exact fun e => by subst e; exact absurd hc (by decide)
    · simp only [List.dropLast_cons_cons, List.mem_cons, not_or]
      exact ⟨fun e => by subst e; exact absurd hc (by decide), by decide, h ▸ s.newline_last⟩

/-- A line number, or a range of them. -/
def rangeBytes (a b : ℕ) : List UInt8 := if a = b then decimal a else decimal a ++ 44 :: decimal b

/-- The letter of a change: `a`, `d` or `c`. -/
def Hunk.letter (h : Hunk) : UInt8 := if h.del = [] then 97 else if h.ins = [] then 100 else 99

/-- The first number before the letter, when `a` lines of the old file come before the change: the
line before an insertion, the first line of another change. -/
def Hunk.leftFirst (h : Hunk) (a : ℕ) : ℕ := if h.del = [] then a else a + 1

/-- The first number after the letter, when `b` lines of the new file come before the change: the
line before a deletion, the first line of another change. -/
def Hunk.rightFirst (h : Hunk) (b : ℕ) : ℕ := if h.ins = [] then b else b + 1

/-- The numbers before the letter. -/
def Hunk.left (h : Hunk) (a : ℕ) : List UInt8 := rangeBytes (h.leftFirst a) (a + h.del.length)

/-- The numbers after the letter. -/
def Hunk.right (h : Hunk) (b : ℕ) : List UInt8 := rangeBytes (h.rightFirst b) (b + h.ins.length)

/-- The command of a change. -/
def Hunk.command (h : Hunk) (a b : ℕ) : List UInt8 := h.left a ++ h.letter :: h.right b

/-- The characters of a command are digits, commas and letters. -/
theorem decimal_bounds {n : ℕ} {c : UInt8} (h : c ∈ decimal n) : 32 < c.toNat := by
  have := isDigit_bounds (decimal_isDigit n c h)
  omega

theorem rangeBytes_bounds {a b : ℕ} {c : UInt8} (h : c ∈ rangeBytes a b) : 32 < c.toNat := by
  unfold rangeBytes at h
  split at h
  · exact decimal_bounds h
  · simp only [List.mem_append, List.mem_cons] at h
    rcases h with h | rfl | h
    · exact decimal_bounds h
    · decide
    · exact decimal_bounds h

theorem Hunk.command_bounds {h : Hunk} {a b : ℕ} {c : UInt8} (hc : c ∈ h.command a b) : 32 < c.toNat := by
  simp only [command, List.mem_append, List.mem_cons] at hc
  rcases hc with hc | rfl | hc
  · exact rangeBytes_bounds hc
  · unfold letter
    split
    · decide
    · split <;> decide
  · exact rangeBytes_bounds hc

/-- A line of printable characters. -/
def plainLine (bytes : List UInt8) (h : ∀ c ∈ bytes, 32 ≤ c.toNat) : Line where
  bytes := bytes
  no_nul := fun hm => absurd (h 0 hm) (by decide)
  no_newline := fun hm => absurd (h 10 hm) (by decide)

/-- The command of a change as a line. -/
def Hunk.commandLine (h : Hunk) (a b : ℕ) : Line := plainLine (h.command a b) fun _ hc => (command_bounds hc).le

/-- The line between the deleted and the inserted lines of a change. -/
def dashes : Line := plainLine [45, 45, 45] (by simp)

/-- A deleted line. -/
def deletedLine (l : Line) : CLine := quoted 60 (by decide) l.delivered

/-- An inserted line. -/
def insertedLine (s : CLine) : CLine := quoted 62 (by decide) s

/-- What follows the deleted lines of a change. -/
def insertPart (del : List Line) (ins : List CLine) : List CLine :=
  (if del ≠ [] ∧ ins ≠ [] then [dashes.delivered] else []) ++ ins.map insertedLine

/-- What follows the command of a change. -/
def Hunk.body (h : Hunk) : List CLine := h.del.map deletedLine ++ insertPart h.del h.ins

/-- The changes with their commands, when `a` and `b` lines come before them. -/
def renderHunks : ℕ → ℕ → List Hunk → List CLine
  | _, _, [] => []
  | a, b, h :: hs =>
    (h.commandLine (a + h.keep.length) (b + h.keep.length)).delivered :: h.body ++
      renderHunks (a + h.keep.length + h.del.length) (b + h.keep.length + h.ins.length) hs

/-- The mark for a missing newline: `\ No newline at end of file`. -/
def markerLine : Line :=
  plainLine [92, 32, 78, 111, 32, 110, 101, 119, 108, 105, 110, 101, 32, 97, 116, 32, 101, 110, 100, 32, 111, 102,
    32, 102, 105, 108, 101] (by simp)

/-- The end of the script. -/
def markerPart (marker : Bool) : List CLine := if marker then [markerLine.delivered] else []

/-- The script as it is delivered. -/
def Script.render (s : Script) : List CLine := renderHunks 0 0 s.hunks ++ markerPart s.marker

/-- The lines of the old file. -/
def Script.oldLines (s : Script) : List Line := s.hunks.flatMap (fun h => h.keep ++ h.del) ++ s.tail

/-! ### Reading numbers -/

theorem takeWhile_digits {s t : List UInt8} (hs : ∀ c ∈ s, isDigit c = true) (ht : isDigit (t.headD 0) = false) :
    (s ++ t).takeWhile isDigit = s ∧ (s ++ t).dropWhile isDigit = t := by
  induction s with
  | nil =>
    cases t with
    | nil => simp
    | cons c t =>
      have : isDigit c = false := ht
      simp [this]
  | cons c s ih =>
    have hc := hs c List.mem_cons_self
    obtain ⟨h1, h2⟩ := ih fun d hd => hs d (List.mem_cons_of_mem c hd)
    simp [hc, h1, h2]

/-- `strtol` reads digits. -/
theorem strtol_digits {ds t : List UInt8} (hd : ∀ c ∈ ds, isDigit c = true) (hne : ds ≠ [])
    (ht : isDigit (t.headD 0) = false) : strtol (ds ++ t) = ((valueFrom 0 ds : ℤ), t) := by
  obtain ⟨c, s, rfl⟩ := List.exists_cons_of_ne_nil hne
  have hc := isDigit_bounds (hd c List.mem_cons_self)
  have hsp : isSpace c = false := by
    have h1 : c ≠ 32 := fun e => by subst e; simp at hc
    have h2 : ¬ c ≤ 13 := fun e => by
      have : c.toNat ≤ 13 := UInt8.le_iff_toNat_le.mp e
      omega
    simp [isSpace, h1, h2]
  have hq : (c :: s ++ t).dropWhile isSpace = c :: s ++ t := by
    rw [List.cons_append, List.dropWhile_cons_of_neg (by simp [hsp])]
  have hhead : (c :: s ++ t).head? = some c := rfl
  have h45 : c ≠ 45 := fun e => by subst e; simp at hc
  have h43 : c ≠ 43 := fun e => by subst e; simp at hc
  obtain ⟨h1, h2⟩ := takeWhile_digits hd ht
  have hs1 : ¬ (some c = some (45 : UInt8) ∨ some c = some (43 : UInt8)) := by simp [h45, h43]
  have hs2 : ¬ (some c = some (45 : UInt8)) := by simp [h45]
  simp only [strtol, hq, hhead, if_neg hs1, if_neg hs2, h1, h2, if_neg hne]

/-- **`strtol` reads back a decimal number.** -/
theorem getNum_decimal (n : ℕ) {t : List UInt8} (ht : isDigit (t.headD 0) = false) :
    getNum (decimal n ++ t) = ((n : ℤ), t) := by
  rw [getNum, strtol_digits (decimal_isDigit n) (decimal_ne_nil n) ht, valueFrom_decimal]

namespace DiffState

/-- A range that is printed is read back, with its end. -/
theorem range_read {a b : ℕ} (hab : a ≤ b) {t : List UInt8} (ht : isDigit (t.headD 0) = false)
    (htc : t.headD 0 ≠ 44) (msg : String) :
    (getNum (rangeBytes a b ++ t)).1 = a ∧
      rangeEnd a (getNum (rangeBytes a b ++ t)).2 msg = .ok ((b : ℤ), t) := by
  unfold rangeBytes
  split
  · rename_i he
    subst he
    rw [getNum_decimal a ht]
    exact ⟨rfl, if_neg htc⟩
  · rename_i hne
    rw [List.append_assoc, List.cons_append, getNum_decimal a rfl]
    refine ⟨rfl, ?_⟩
    have hcomma : (44 :: (decimal b ++ t)).headD 0 = 44 := rfl
    simp only [rangeEnd, hcomma, if_true, List.drop_succ_cons, List.drop_zero, getNum_decimal b ht]
    rw [if_neg (by omega)]

section

variable {d : DiffState} {h : Hunk} {a b : ℕ}

theorem letter_facts (h : Hunk) : h.letter ≠ 0 ∧ h.letter ≠ 44 ∧ isDigit h.letter = false := by
  unfold Hunk.letter
  split
  · decide
  · split <;> decide

/-- The left numbers of a command are read back. -/
theorem left_read (hb : d.linebuf = (h.commandLine a b).delivered) :
    (getNum d.linebuf.bytes).1 = h.leftFirst a ∧
      rangeEnd (h.leftFirst a) (getNum d.linebuf.bytes).2 "left end line" =
        .ok (((a + h.del.length : ℕ) : ℤ), h.letter :: (h.right b ++ [10])) := by
  obtain ⟨-, h1, h2⟩ := letter_facts h
  have hbytes : d.linebuf.bytes = h.left a ++ (h.letter :: (h.right b ++ [10])) := by
    rw [hb]
    simp [Hunk.commandLine, plainLine, Hunk.command]
  rw [hbytes]
  refine range_read ?_ (t := h.letter :: (h.right b ++ [10])) h2 h1 _
  unfold Hunk.leftFirst
  split
  · omega
  · rename_i hd
    have := List.length_pos_iff.mpr hd
    omega

/-- The right numbers of a command are read back. -/
theorem right_read (h : Hunk) (b : ℕ) :
    (getNum (h.right b ++ [10])).1 = h.rightFirst b ∧
      rangeEnd (h.rightFirst b) (getNum (h.right b ++ [10])).2 "right end line" =
        .ok (((b + h.ins.length : ℕ) : ℤ), [10]) := by
  refine range_read ?_ (by decide) (by decide) _
  unfold Hunk.rightFirst
  split
  · omega
  · rename_i hd
    have := List.length_pos_iff.mpr hd
    omega

/-- A command is placed by its letter and its numbers. -/
theorem takeCommand_eq (hb : d.linebuf = (h.commandLine a b).delivered) : takeCommand d =
    placeCommand d (h.leftFirst a) (((a + h.del.length : ℕ) : ℤ), h.letter :: (h.right b ++ [10])) := by
  obtain ⟨h1, h2⟩ := left_read hb
  rw [takeCommand, h1, h2, ok_bind]

/-- **A command for a place further on** makes the lines before it unchanged. -/
theorem takeCommand_ahead (hb : d.linebuf = (h.commandLine a b).delivered) (hin : d.inLineno ≤ a) :
    takeCommand d = .ok { d with state := .nochange, linesLeft := a - d.inLineno + 1 } := by
  obtain ⟨hl0, -, -⟩ := letter_facts h
  rw [takeCommand_eq hb, placeCommand, List.headD_cons, if_neg hl0]
  by_cases hd : h.del = []
  · have hl : h.letter = 97 := if_pos hd
    have hf : h.leftFirst a = a := if_pos hd
    rw [if_pos hl, hf, if_pos hin]
  · have hl : h.letter ≠ 97 := by
      unfold Hunk.letter
      rw [if_neg hd]
      split <;> decide
    have hf : h.leftFirst a = a + 1 := if_neg hd
    have hlt : d.inLineno < ((a + 1 : ℕ) : ℤ) := by omega
    have hnum : ((a + 1 : ℕ) : ℤ) - d.inLineno = a - d.inLineno + 1 := by omega
    rw [if_neg hl, hf, if_pos hlt, hnum]

/-- The state after the command of a change at the place where the old body is. -/
def atChange (d : DiffState) (h : Hunk) : DiffState :=
  if h.del = [] then { d with state := .insert, linesLeft := h.ins.length }
  else { d with state := .delete, linesLeft := h.del.length, changeLeft := h.ins.length }

/-- The change that a command at its place asks for is entered. -/
theorem takeChange_here (hout : d.outLineno = b) (hcl : d.changeLeft = 0) :
    takeChange d h.letter (h.leftFirst a) ((a + h.del.length : ℕ) : ℤ) (h.right b ++ [10]) =
      .ok (atChange d h) := by
  obtain ⟨h3, h4⟩ := right_read h b
  rw [takeChange, h3, h4, ok_bind, hout, enterChange]
  by_cases hd : h.del = []
  · have hi : h.ins ≠ [] := h.changes.resolve_left (fun hne => hne hd)
    have hl : h.letter = 97 := if_pos hd
    have hr : h.rightFirst b = b + 1 := if_neg hi
    have hnum : ((b + h.ins.length : ℕ) : ℤ) - ((b + 1 : ℕ) : ℤ) + 1 = h.ins.length := by omega
    rw [hl, hr, if_neg (by simp), if_neg (by simp), if_neg (by simp), if_pos rfl, hnum, atChange, if_pos hd]
  · have hf : h.leftFirst a = a + 1 := if_neg hd
    have hnum : ((a + h.del.length : ℕ) : ℤ) - ((a + 1 : ℕ) : ℤ) + 1 = h.del.length := by omega
    rw [atChange, if_neg hd, hf, hnum]
    by_cases hi : h.ins = []
    · have hl : h.letter = 100 := by
        unfold Hunk.letter
        rw [if_neg hd, if_pos hi]
      have hr : h.rightFirst b = b := if_pos hi
      have hzero : (h.ins.length : ℤ) = d.changeLeft := by simp [hi, hcl]
      rw [hl, hr, if_neg (by simp), if_neg (by simp), if_neg (by simp), if_neg (by decide), if_pos rfl, hzero]
    · have hl : h.letter = 99 := by
        unfold Hunk.letter
        rw [if_neg hd, if_neg hi]
      have hr : h.rightFirst b = b + 1 := if_neg hi
      have hnum' : ((b + h.ins.length : ℕ) : ℤ) - ((b + 1 : ℕ) : ℤ) + 1 = h.ins.length := by omega
      rw [hl, hr, if_neg (by simp), if_neg (by simp), if_neg (by simp), if_neg (by decide), if_neg (by decide), if_pos rfl,
        hnum']

/-- **A command for this place** starts the change. -/
theorem takeCommand_here (hb : d.linebuf = (h.commandLine a b).delivered) (hin : d.inLineno = a + 1)
    (hout : d.outLineno = b) (hcl : d.changeLeft = 0) : takeCommand d = .ok (atChange d h) := by
  obtain ⟨hl0, -, -⟩ := letter_facts h
  have htake := takeChange_here (h := h) (a := a) hout hcl
  rw [takeCommand_eq hb, placeCommand, List.headD_cons, if_neg hl0, List.drop_succ_cons, List.drop_zero, htake]
  by_cases hd : h.del = []
  · have hl : h.letter = 97 := if_pos hd
    have hf : h.leftFirst a = a := if_pos hd
    rw [if_pos hl, hf, if_neg (by omega), if_neg (by simp [hin])]
  · have hl : h.letter ≠ 97 := by
      unfold Hunk.letter
      rw [if_neg hd]
      split <;> decide
    have hf : h.leftFirst a = a + 1 := if_neg hd
    rw [if_neg hl, hf, if_neg (by omega), if_neg (by simp [hin])]

end

end DiffState

end CSSC.Body
