import CSSC.Header.Flags
import CSSC.Table.DateText
import CSSC.Table.FullDelta

/-!
# Opening a history file

The parser reads the header of a history file line by line, and the constructor of `sccs_file` takes over what it
found.

`readDelta`, `parseTable` and `parseHeader` are the parser, for a file that is opened for reading, with the option
`silent_checksum_error`; `openFile` is the constructor, for a file that exists. Dates, warnings and the place where
the body begins are left out. A pointer that `split` did not assign (`field`) is not initialised, or left over from
another line; the model does not look at what is read through it.

The parser reads lines by `readLine` and, where it reads on as long as the last line is of some kind, by `readLoop`.
When no line is left, the file has ended, or a line starts with a NUL, and chomping it writes in front of the buffer
(`stopOf`). Every delta takes a line (`readDelta_length`), so the number of lines is enough fuel.
-/

namespace CSSC.Header

open CSSC.Lines CSSC.Body CSSC.Table CSSC.Library.Decimal

/-! ### Lines -/

/-- What happens when no line is left to read. -/
def stopOf (r : Reading) : Quit :=
  match r.ending with
  | .ok () => .corrupt "Unexpected end-of-file"
  | .error q => q

/-- The lines that are read before their number, an `int`, overflows, and what happens after the last one. -/
def countedLines [IntOverflow] (r : Reading) : List Line × Quit :=
  if IntOverflow.undefined && 2 ^ 31 ≤ r.lines.length then (r.lines.take (2 ^ 31 - 1), .undefined)
  else (r.lines, stopOf r)

@[simp] theorem countedLines_wrapping (r : Reading) : @countedLines IntOverflow.wrapping r = (r.lines, stopOf r) := rfl

/-- `READ_LINE`. -/
def readLine (stop : Quit) : List Line → Except Quit (Line × List Line)
  | [] => .error stop
  | l :: ls => .ok (l, ls)

/-- A loop that reads on after each line for which `again` holds. -/
def readLoop {σ : Type} (stop : Quit) (again : Line → Bool) (step : σ → Line → Except Quit σ) :
    σ → Line → List Line → Except Quit (σ × Line × List Line)
  | st, l, [] => if again l then step st l >>= fun _ => .error stop else .ok (st, l, [])
  | st, l, l' :: ls =>
    if again l then step st l >>= fun st => readLoop stop again step st l' ls else .ok (st, l, l' :: ls)

/-- A line of another kind is an error. -/
def expect (l : Line) (kind : UInt8) (msg : String) : Except Quit Unit :=
  if l.kind = kind then .ok () else .error (.corrupt msg)

/-- `check_noarg`. -/
def checkNoarg (l : Line) : Except Quit Unit :=
  if l.bufchar 2 ≠ 0 then .error (.corrupt "Unexpected arg") else .ok ()

/-! ### Deltas -/

/-- `strtoul(s, &end, 10)`, which puts a minus sign on the result. -/
def strtoul (s : List UInt8) : ℕ × List UInt8 :=
  let r := strtol s
  (if 2 ^ 64 ≤ r.1.natAbs then 2 ^ 64 - 1 else (r.1 % 2 ^ 64).toNat, r.2)

/-- `strict_atoul_idu`. -/
def strictAtoulIdu (s : List UInt8) : Except Quit ℕ :=
  let s := s.dropWhile (· = 32)
  if s.head? = some 45 then .error (.corrupt "Line counts should be positive")
  else
    let r := strtoul s
    if r.2 = [] ∨ r.2.head? = some 32 then .ok r.1
    else .error (.corrupt "Unexpected suffix %s on line number count")

/-- The pointer `args[i]`. -/
def field (a : Args) (i : ℕ) : Except Quit (List UInt8) :=
  match a.args[i]? with
  | none => .error .undefined
  | some s => .ok s

/-- A line `^As`: the three counts. -/
def readIdu (l : Line) : Except Quit (ℕ × ℕ × ℕ) := do
  checkArg l
  let a := Linebuf.split 3 47 (l.bytes.drop 3)
  if a.argc ≠ 3 then .error (.corrupt "Two /'s expected")
  else
    let s ← field a 0
    let i ← strictAtoulIdu s
    let s ← field a 1
    let d ← strictAtoulIdu s
    let s ← field a 2
    let u ← strictAtoulIdu s
    return (i, d, u)

/-- `is_valid_delta_type`, of a string of one character. -/
def deltaType (s : List UInt8) : Except Quit DeltaType :=
  if s = [68] then .ok .D else if s = [82] then .ok .R else .error (.corrupt "Bad delta type %s")

/-- The SID of a delta. -/
def deltaSid [IntOverflow] (s : List UInt8) : Except Quit Sid :=
  intResult (Sid.overflows s) <|
    if (Sid.ofText s).valid then .ok (Sid.ofText s) else .error (.corrupt "Bad SID %s")

/-- The date of a delta. -/
def deltaDate (date time : List UInt8) : Except Quit SccsDate := do
  let d ← SccsDate.ofText date time
  if d.valid then .ok d else .error (.corrupt "Bad Date/Time %s %s")

/-- A line `^Ad`: what the result of `split` is, is not looked at. -/
def readFields [IntOverflow] (a : Args) (idu : ℕ × ℕ × ℕ) : Except Quit FullDelta := do
  let s ← field a 0
  let type ← deltaType s
  let s ← field a 1
  let id ← deltaSid s
  let s ← field a 2
  let t ← field a 3
  let date ← deltaDate s t
  let user ← field a 4
  let s ← field a 5
  let seq ← strictAtous s
  let s ← field a 6
  let prevSeq ← strictAtous s
  return ⟨⟨type, id, seq, prevSeq, [], [], []⟩, date, user, false, false, false, [], [], idu.1, idu.2.1, idu.2.2⟩

/-- The lists of a delta. -/
inductive ListKind where
  /-- Included. -/
  | i
  /-- Excluded. -/
  | x
  /-- Ignored. -/
  | g
  deriving DecidableEq, Repr

namespace ListKind

/-- The letter in the file. -/
def letter : ListKind → UInt8
  | i => 105
  | x => 120
  | g => 103

/-- `set_has_includes` and its like, and then the entries are added. -/
def add (d : FullDelta) (seqs : List ℕ) : ListKind → FullDelta
  | i => { d with haveIncludes := true, included := d.included ++ seqs }
  | x => { d with haveExcludes := true, excluded := d.excluded ++ seqs }
  | g => { d with haveIgnores := true, ignored := d.ignored ++ seqs }

/-- The entries of a line: none without a blank. -/
def readSeqs (l : Line) : Except Quit (List ℕ) :=
  if l.bufchar 2 ≠ 32 then .ok [] else ((l.bytes.drop 3).splitOn 32).mapM strictAtous

end ListKind

/-- The loop over the lists: for each of them, in this order, there may be a line. -/
def readLists (stop : Quit) : List ListKind → FullDelta → Line → List Line →
    Except Quit (FullDelta × Line × List Line)
  | [], d, l, ls => .ok (d, l, ls)
  | k :: ks, d, l, ls =>
    if l.kind = k.letter then do
      let seqs ← ListKind.readSeqs l
      let (l, ls) ← readLine stop ls
      readLists stop ks (k.add d seqs) l ls
    else readLists stop ks d l ls

/-- A line `^Am` or `^Ac`. -/
def isNote (l : Line) : Bool := l.kind = 109 || l.kind = 99

/-- An MR without an argument is none. Another character than a blank in a comment is only worth a warning. -/
def addNote (d : FullDelta) (l : Line) : Except Quit FullDelta :=
  if l.kind = 109 then
    .ok (if l.bufchar 2 = 32 then { d with mrs := d.mrs ++ [l.bytes.drop 3] } else d)
  else .ok { d with comments := d.comments ++ [l.bytes.drop 3] }

/-- `read_delta`, at the line `l`. -/
def readDelta [IntOverflow] (stop : Quit) (l : Line) (ls : List Line) : Except Quit (FullDelta × List Line) := do
  let idu ← readIdu l
  let (l, ls) ← readLine stop ls
  expect l 100 "Expected '@d'"
  checkArg l
  let d ← readFields (Linebuf.split 7 32 (l.bytes.drop 3)) idu
  let (l, ls) ← readLine stop ls
  let (d, l, ls) ← readLists stop [.i, .x, .g] d l ls
  let (d, l, ls) ← readLoop stop isNote addNote d l ls
  expect l 101 "Expected '@e'"
  checkNoarg l
  return (d, ls)

/-! ### The header -/

/-- What `parse_header` finds. -/
structure HeaderTable where
  /-- `delta_table`: there is none without a delta. -/
  deltaTable : Option FullTable
  /-- `users`. -/
  users : List (List UInt8)
  /-- `flags`. -/
  flags : List ParsedFlag
  /-- `comments`. -/
  comments : List (List UInt8)
  deriving DecidableEq, Repr

/-- The deltas, from the line `l` on. -/
def readDeltas [IntOverflow] (stop : Quit) : ℕ → FullTable → Line → List Line → Except Quit (FullTable × Line × List Line)
  | 0, _, _, _ => .error .diverges
  | fuel + 1, T, l, ls =>
    if l.kind = 115 then do
      let (d, ls) ← readDelta stop l ls
      let (l, ls) ← readLine stop ls
      readDeltas stop fuel (T ++ [d]) l ls
    else .ok (T, l, ls)

/-- A line of the user list. -/
def addUser (users : List (List UInt8)) (l : Line) : Except Quit (List (List UInt8)) := do
  expect l 0 "User name expected."
  return users ++ [l.bytes]

/-- A line `^Af`. -/
def addFlag (flags : List ParsedFlag) (l : Line) : Except Quit (List ParsedFlag) := do
  checkArg l
  if l.bufchar 3 = 0 ∨ (l.bufchar 4 ≠ 0 ∧ l.bufchar 4 ≠ 32) then .error (.corrupt "Bad flag arg")
  else .ok (flags ++ [⟨l.bufchar 3, if l.bufchar 4 = 32 then some (l.bytes.drop 5) else none⟩])

/-- A line of the description. -/
def addComment (comments : List (List UInt8)) (l : Line) : Except Quit (List (List UInt8)) :=
  .ok (comments ++ [l.bytes])

/-- `parse_header`, after the line with the checksum. -/
def parseTable [IntOverflow] (stop : Quit) (ls : List Line) : Except Quit HeaderTable := do
  let (l, ls) ← readLine stop ls
  let (T, l, ls) ← readDeltas stop (ls.length + 1) [] l ls
  expect l 117 "Expected '@u'"
  checkNoarg l
  let (l, ls) ← readLine stop ls
  let (users, _, ls) ← readLoop stop (fun l => l.kind ≠ 85) addUser [] l ls
  let (l, ls) ← readLine stop ls
  let (flags, l, ls) ← readLoop stop (fun l => l.kind = 102) addFlag [] l ls
  expect l 116 "Expected '@t'"
  let (l, ls) ← readLine stop ls
  let (comments, l, _) ← readLoop stop (fun l => l.kind = 0) addComment [] l ls
  expect l 84 "Expected '@T'"
  return ⟨if T = [] then none else some T, users, flags, comments⟩

/-- The first two characters: whether this is a file of BitKeeper. -/
def magic : List UInt8 → Except Quit Bool
  | 1 :: 72 :: _ => .ok true
  | 1 :: 104 :: _ => .ok false
  | _ => .error (.corrupt "No SCCS-file magic number.")

/-- `eat_rest_of_line`: what comes after the first line. -/
def eatFirstLine (f : List UInt8) : Except Quit (List UInt8) :=
  if 10 ∈ f then .ok ((f.dropWhile (· ≠ 10)).drop 1) else .error (.corrupt "Unexpected EOF.")

/-- The sum of the characters, which are signed. -/
def charSum (f : List UInt8) : ℤ := (f.map fun c => c.toInt8.toInt).sum

/-- `computed_sum`: 16 bits of the sum. -/
def computedSum (f : List UInt8) : ℤ := charSum f % 65536

/-- The `int` overflows in which the characters are summed up, from `sum` on. -/
def sumOverflows (sum : ℤ) : List UInt8 → Bool
  | [] => false
  | c :: f =>
    sum + c.toInt8.toInt < -2 ^ 31 || 2 ^ 31 ≤ sum + c.toInt8.toInt || sumOverflows (sum + c.toInt8.toInt) f

/-- The checksum in the file: `stored_sum` and `checksum_valid_`. A wrong sum is only worth a warning. -/
def checkSum (silent : Bool) (computed : ℤ) (s : List UInt8) : Except Quit (ℤ × Bool) :=
  let r := strtol s
  if 2 ^ 63 - 1 < r.1 then
    if silent then .ok (2 ^ 31 - 1, false) else .error (.corrupt "checksum value too large")
  else if r.1 < -2 ^ 63 then
    if silent then .ok (-2 ^ 31, false) else .error (.corrupt "checksum value too small")
  else
    let stored := max (-2 ^ 31) (min (2 ^ 31 - 1) r.1)
    if r.2 ≠ [] ∧ silent = false then .error (.corrupt "trailing junk after checksum, expected just newline")
    else .ok (stored, stored = computed)

/-- `open_result`. -/
structure OpenResult where
  /-- `computed_sum`. -/
  computedSum : ℤ
  /-- `stored_sum`. -/
  storedSum : ℤ
  /-- `checksum_valid_`. -/
  checksumValid : Bool
  /-- `is_bk`. -/
  isBk : Bool
  /-- What the header holds. -/
  table : HeaderTable
  deriving DecidableEq, Repr

/-- `parse_header`. The first line is read again, and its kind is asserted. -/
def parseHeader [IntOverflow] (silent : Bool) (f : List UInt8) : Except Quit OpenResult := do
  let isBk ← magic f
  let rest ← eatFirstLine f
  let computed ← intResult (sumOverflows 0 rest) (.ok (computedSum rest))
  let r := countedLines (readBody Linebuf.initial f)
  let (l, ls) ← readLine r.2 r.1
  if l.kind ≠ (if isBk then 72 else 104) then .error .assertion
  else
    let sum ← checkSum silent computed (l.bytes.drop 2)
    let table ← parseTable r.2 ls
    return ⟨computed, sum.1, sum.2, isBk, table⟩

/-! ### The constructor of `sccs_file` -/

/-- `sccs_file_open_mode`, for a file that exists. -/
inductive OpenMode where
  /-- `READ`. -/
  | read
  /-- `UPDATE`. -/
  | update
  /-- `FIX_CHECKSUM`. -/
  | fixChecksum
  deriving DecidableEq, Repr

/-- What `sccs_file` keeps of the header. -/
structure SccsFile where
  /-- `delta_table_`. -/
  deltaTable : Option FullTable
  /-- `users_`. -/
  users : List (List UInt8)
  /-- `flags`. -/
  flags : Flags
  /-- `comments_`. -/
  comments : List (List UInt8)
  deriving DecidableEq, Repr

/-- What the constructor makes of what was parsed. -/
def SccsFile.ofTable [IntOverflow] (t : HeaderTable) : Except Quit SccsFile := do
  let flags ← setFlags .initial t.flags
  return ⟨t.deltaTable, t.users, flags, t.comments⟩

/-- An `sccs_file` after its constructor. -/
structure Opened where
  /-- The header. -/
  file : SccsFile
  /-- `checksum_valid_`. -/
  checksumValid : Bool
  /-- `edit_mode_ok_`: this is no file of BitKeeper. -/
  editModeOk : Bool
  deriving DecidableEq, Repr

/-- `sccs_file(name, mode, opts)`. -/
def openFile [IntOverflow] (mode : OpenMode) (silent : Bool) (f : List UInt8) : Except Quit Opened := do
  let r ← parseHeader (silent || mode = .fixChecksum) f
  if r.isBk = true ∧ mode ≠ .read then .error (.failure "%s is a BitKeeper file.")
  else
    let file ← SccsFile.ofTable r.table
    return ⟨file, mode = .fixChecksum || r.checksumValid, !r.isBk⟩

/-! ### Lines that are known -/

section

variable {σ : Type} {stop : Quit} {again : Line → Bool} {step : σ → Line → Except Quit σ}

/-- A loop takes the lines for which it reads on, if they are accepted. -/
theorem readLoop_lines {st st' : σ} {run : List Line} {l : Line} {ls : List Line} (hrun : ∀ r ∈ run, again r = true)
    (hfold : run.foldlM step st = .ok st') (hl : again l = false) :
    ∀ {l₀ : Line} {ls₀ : List Line}, l₀ :: ls₀ = run ++ l :: ls →
      readLoop stop again step st l₀ ls₀ = .ok (st', l, ls) := by
  induction run generalizing st with
  | nil =>
    intro l₀ ls₀ h
    obtain ⟨rfl, rfl⟩ := List.cons.inj h
    obtain rfl : st = st' := Except.ok.inj hfold
    cases ls₀ <;> simp [readLoop, hl]
  | cons r run ih =>
    intro l₀ ls₀ h
    rw [List.cons_append] at h
    obtain ⟨rfl, rfl⟩ := List.cons.inj h
    rw [List.foldlM_cons, bind_eq_ok] at hfold
    obtain ⟨st₁, hst, hfold⟩ := hfold
    obtain ⟨l₁, ls₁, h₁⟩ : ∃ l₁ ls₁, run ++ l :: ls = l₁ :: ls₁ := by
      cases run with
      | nil => exact ⟨l, ls, rfl⟩
      | cons r' run => exact ⟨r', run ++ l :: ls, rfl⟩
    rw [h₁, readLoop, if_pos (hrun l₀ List.mem_cons_self), hst, ok_bind]
    exact ih (fun r hr => hrun r (List.mem_cons_of_mem _ hr)) hfold h₁.symm

/-- A loop leaves fewer lines, or as many. -/
theorem readLoop_length {st st' : σ} {l l' : Line} {ls ls' : List Line}
    (h : readLoop stop again step st l ls = .ok (st', l', ls')) : ls'.length ≤ ls.length := by
  induction ls generalizing st l with
  | nil =>
    rw [readLoop] at h
    split at h
    · rw [bind_eq_ok] at h
      obtain ⟨_, _, h⟩ := h
      cases h
    · simp only [Except.ok.injEq, Prod.mk.injEq] at h
      rw [← h.2.2]
  | cons l₁ ls ih =>
    rw [readLoop] at h
    split at h
    · rw [bind_eq_ok] at h
      obtain ⟨st₁, _, h⟩ := h
      exact (ih h).trans (Nat.le_succ _)
    · simp only [Except.ok.injEq, Prod.mk.injEq] at h
      rw [← h.2.2]

end

theorem readLine_eq_ok {stop : Quit} {ls ls' : List Line} {l : Line} :
    readLine stop ls = .ok (l, ls') ↔ ls = l :: ls' := by
  cases ls with
  | nil => simp [readLine]
  | cons l₀ ls => simp [readLine]

theorem readLists_length {stop : Quit} {ks : List ListKind} {d d' : FullDelta} {l l' : Line} {ls ls' : List Line}
    (h : readLists stop ks d l ls = .ok (d', l', ls')) : ls'.length ≤ ls.length := by
  induction ks generalizing d l ls with
  | nil =>
    simp only [readLists, Except.ok.injEq, Prod.mk.injEq] at h
    rw [← h.2.2]
  | cons k ks ih =>
    rw [readLists] at h
    split at h
    · obtain ⟨seqs, -, h⟩ := bind_eq_ok.mp h
      obtain ⟨⟨l₁, ls₁⟩, hl, h⟩ := bind_eq_ok.mp h
      obtain rfl := readLine_eq_ok.mp hl
      exact (ih h).trans (Nat.le_succ _)
    · exact ih h

/-- A delta takes lines. -/
theorem readDelta_length [IntOverflow] {stop : Quit} {l : Line} {ls ls' : List Line} {d : FullDelta}
    (h : readDelta stop l ls = .ok (d, ls')) : ls'.length < ls.length := by
  simp only [readDelta, bind_eq_ok] at h
  obtain ⟨idu, -, ⟨l₁, ls₁⟩, h1, -, -, -, -, d₁, -, ⟨l₂, ls₂⟩, h2, ⟨d₂, l₃, ls₃⟩, h3, ⟨d₃, l₄, ls₄⟩, h4, -, -, -, -, h⟩ := h
  obtain rfl := readLine_eq_ok.mp h1
  obtain rfl := readLine_eq_ok.mp h2
  obtain ⟨rfl, rfl⟩ := Prod.mk.inj (Except.ok.inj h)
  have h5 : ls₃.length ≤ ls₂.length := readLists_length h3
  have h6 : ls₄.length ≤ ls₃.length := readLoop_length h4
  simp only [List.length_cons]
  omega

end CSSC.Header
