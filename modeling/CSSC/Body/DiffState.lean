import CSSC.Body.Scanner

/-!
# Following the output of diff

`diff_state` reads the normal-format output of diff(1) alongside the old body. It is asked about the visible lines one
by one, and answers what happens next: the line is unchanged, it is deleted, or a line is inserted before it.

The counters `int` and the numbers `long` are unbounded integers, so that the range exception of `get_num` does not
occur. The input is what the line buffer delivers.
-/

namespace CSSC.Body

open CSSC.Lines CSSC.Library.Decimal

/-- `diffstate`. -/
inductive Diffstate where
  /-- `START`. -/
  | start
  /-- `NOCHANGE`. -/
  | nochange
  /-- `DELETE`. -/
  | delete
  /-- `INSERT`. -/
  | insert
  /-- `END`. -/
  | end_
  deriving DecidableEq, Repr

/-- `diff_state`. -/
structure DiffState where
  /-- `state_`. -/
  state : Diffstate
  /-- `in_lineno_`. -/
  inLineno : ℤ
  /-- `out_lineno_`. -/
  outLineno : ℤ
  /-- `lines_left_`. -/
  linesLeft : ℤ
  /-- `change_left_`. -/
  changeLeft : ℤ
  /-- The string in `linebuf_`. -/
  linebuf : CLine
  /-- What is still to be read of the output of diff. -/
  input : List CLine
  deriving DecidableEq

/-- What is written to the new body. -/
inductive Out where
  /-- `fprintf(out, "\001%c %d\n", letter, seq)`. -/
  | control (letter : UInt8) (seq : ℕ)
  /-- A line of the old body, with its newline. -/
  | copied (l : Line)
  /-- A string from the output of diff. -/
  | inserted (s : CLine)
  deriving DecidableEq

/-- The line of a bracket as the program writes it. -/
def controlBytes (letter : UInt8) (seq : ℕ) : List UInt8 := 1 :: letter :: 32 :: decimal seq

/-- The bytes that are written. -/
def Out.bytes : Out → List UInt8
  | .control letter seq => controlBytes letter seq ++ [10]
  | .copied l => l.stored
  | .inserted s => s.bytes

/-- The bytes of everything that is written. -/
def outBytes (out : List Out) : List UInt8 := out.flatMap Out.bytes

/-- `isspace` in the C locale. -/
def isSpace (c : UInt8) : Bool := c = 32 || (9 ≤ c && c ≤ 13)

/-- `strtol(p, &end, 10)`: the number and what follows it; without a number, 0 and the whole string. -/
def strtol (p : List UInt8) : ℤ × List UInt8 :=
  let q := p.dropWhile isSpace
  let r := if q.head? = some 45 ∨ q.head? = some 43 then q.tail else q
  if r.takeWhile isDigit = [] then (0, p)
  else (if q.head? = some 45 then -(valueFrom 0 (r.takeWhile isDigit) : ℤ)
    else valueFrom 0 (r.takeWhile isDigit), r.dropWhile isDigit)

/-- `get_num`. -/
def getNum (p : List UInt8) : ℤ × List UInt8 := strtol p

namespace DiffState

/-- `diff_state(f, echo)`. -/
def initial (input : List CLine) : DiffState := ⟨.start, 0, 0, 0, 0, ⟨[], by simp, by simp⟩, input⟩

/-- `read_line`: `none` at the end of the input. -/
def readLine (d : DiffState) : Option DiffState :=
  match d.input with
  | [] => none
  | s :: r => some { d with linebuf := s, input := r }

/-- `diff_output_corrupt()` at the end of the input. -/
def unexpectedEOF : Quit := .fatalQuit "(diff output): Unexpected EOF."

/-- The second number of a range, or the first once more. -/
def rangeEnd (line : ℤ) (s : List UInt8) (msg : String) : Except Quit (ℤ × List UInt8) :=
  if s.headD 0 = 44 then
    if (getNum (s.drop 1)).1 ≤ line then .error (.diffOutputCorrupt msg) else .ok (getNum (s.drop 1))
  else .ok (line, s)

/-- The change that a command asks for: its letter is `c`, `r` is its last number and what follows. -/
def enterChange (d : DiffState) (c : UInt8) (line1 line2 line3 : ℤ) (r : ℤ × List UInt8) : Except Quit DiffState :=
  if r.2.headD 0 ≠ 10 then .error (.diffOutputCorrupt "EOL")
  else if c = 97 then .ok { d with state := .insert, linesLeft := r.1 - line3 + 1 }
  else if c = 100 then .ok { d with state := .delete, linesLeft := line2 - line1 + 1 }
  else if c = 99 then
    .ok { d with state := .delete, linesLeft := line2 - line1 + 1, changeLeft := r.1 - line3 + 1 }
  else .error (.diffOutputCorrupt "unknown operation")

/-- The end of `next_state`: the numbers after the letter `c` are read from `s`. -/
def takeChange (d : DiffState) (c : UInt8) (line1 line2 : ℤ) (s : List UInt8) : Except Quit DiffState :=
  if c = 100 ∧ (getNum s).1 ≠ d.outLineno then .error (.diffOutputCorrupt "right start line [case 1]")
  else if c ≠ 100 ∧ (getNum s).1 ≠ d.outLineno + 1 then
    .error (.diffOutputCorrupt "right start line [case 2]")
  else (rangeEnd (getNum s).1 (getNum s).2 "right end line") >>= enterChange d c line1 line2 (getNum s).1

/-- The middle of `next_state`: a command with the first number `line1`, where `r` is the end of the
range and what follows it, is for the place where the old body is or for one further on. -/
def placeCommand (d : DiffState) (line1 : ℤ) (r : ℤ × List UInt8) : Except Quit DiffState :=
  if r.2.headD 0 = 0 then .error .assertion
  else if r.2.headD 0 = 97 then
    if d.inLineno ≤ line1 then .ok { d with state := .nochange, linesLeft := line1 - d.inLineno + 1 }
    else if line1 + 1 ≠ d.inLineno then .error (.diffOutputCorrupt "left start line [case 1]")
    else takeChange d (r.2.headD 0) line1 r.1 (r.2.drop 1)
  else if d.inLineno < line1 then .ok { d with state := .nochange, linesLeft := line1 - d.inLineno }
  else if line1 ≠ d.inLineno then .error (.diffOutputCorrupt "left start line [case 2]")
  else takeChange d (r.2.headD 0) line1 r.1 (r.2.drop 1)

/-- The line in the buffer is a command of diff. -/
def takeCommand (d : DiffState) : Except Quit DiffState :=
  (rangeEnd (getNum d.linebuf.bytes).1 (getNum d.linebuf.bytes).2 "left end line") >>=
    placeCommand d (getNum d.linebuf.bytes).1

/-- `next_state`. -/
def nextState (d : DiffState) : Except Quit DiffState :=
  if d.state = .delete ∧ d.changeLeft ≠ 0 then
    match d.readLine with
    | none => .error unexpectedEOF
    | some d =>
      if d.linebuf.bytes ≠ [45, 45, 45, 10] then .error (.diffOutputCorrupt "expected ---")
      else .ok { d with linesLeft := d.changeLeft, changeLeft := 0, state := .insert }
  else if d.state ≠ .nochange then
    match d.readLine with
    | none => .ok { d with state := .end_ }
    | some d =>
      -- "\ No newline at end of file" is ignored at the end
      if d.linebuf.bytes.headD 0 = 92 then
        match d.readLine with
        | some _ => .error (.diffOutputCorrupt "Expected EOF")
        | none => .ok { d with state := .end_ }
      else takeCommand d
  else takeCommand d

/-- The bracket that ends the last change. -/
def closing (seq : ℕ) (state : Diffstate) : List Out :=
  if state = .delete ∨ state = .insert then [.control letterE seq] else []

/-- The bracket that begins a change. -/
def opening (seq : ℕ) (state : Diffstate) : List Out :=
  if state = .insert then [.control letterI seq]
  else if state = .delete then [.control letterD seq]
  else []

/-- `lines_left_--`. -/
def lineTaken (d : DiffState) : DiffState := { d with linesLeft := d.linesLeft - 1 }

/-- `out_lineno_++`. -/
def lineWritten (d : DiffState) : DiffState := { d with outLineno := d.outLineno + 1 }

/-- The middle of `process`: with no line left of the last change, brackets are written and the next
change is looked for. -/
def turn (seq : ℕ) (d : DiffState) : Except Quit (DiffState × List Out) :=
  if d.linesLeft < 0 then .error .assertion
  else if d.linesLeft = 0 then do
    let d' ← nextState d
    return (d'.lineTaken, closing seq d.state ++ opening seq d'.state)
  else .ok (d.lineTaken, [])

/-- A line of a change must be there and start with `letter` and a space. -/
def expect (letter : UInt8) (msg : String) (d : DiffState) : Except Quit DiffState :=
  match d.readLine with
  | none => .error unexpectedEOF
  | some d =>
    if d.linebuf.bytes.getD 0 0 ≠ letter ∨ d.linebuf.bytes.getD 1 0 ≠ 32 then .error (.diffOutputCorrupt msg)
    else .ok d

/-- The beginning of `process`: a line of the old body is gone past, unless lines are inserted. -/
def advance (d : DiffState) : DiffState :=
  if d.state ≠ .insert then { d with inLineno := d.inLineno + 1 } else d

/-- The end of `process`: a line of a change is read, and the lines of the new body are counted. -/
def answer (d : DiffState) : Except Quit DiffState :=
  if d.state = .delete then expect 60 "expected <" d
  else if d.state = .insert then do
    let d ← expect 62 "expected >" d
    return d.lineWritten
  else .ok d.lineWritten

/-- `process`: the new state, and what is written. -/
def process (seq : ℕ) (d : DiffState) : Except Quit (DiffState × List Out) := do
  let r ← if d.advance.state ≠ .end_ then turn seq d.advance else .ok (d.advance, [])
  let d' ← answer r.1
  return (d', r.2)

/-- `get_insert_line`. -/
def getInsertLine (d : DiffState) : Except Quit CLine :=
  if d.state ≠ .insert then .error .assertion
  else if d.linebuf.bytes.getD 0 0 ≠ 62 ∨ d.linebuf.bytes.getD 1 0 ≠ 32 then .error .assertion
  else .ok (d.linebuf.drop 2)

end DiffState

end CSSC.Body
