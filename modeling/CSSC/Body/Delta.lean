import CSSC.Body.DiffState

/-!
# Writing the body of a new delta

`sccs_file_body_scanner::delta` copies the old body and splices in the brackets and the new lines that the output of
diff asks for. `lineLoop` is its inner loop, for a visible line, and `eofLoop` the loop at the end of the old body.
Each turn that goes on has read a line of the output of diff, so the length of that bounds the turns; the bound is a
parameter, and `diverges` is its end. `deltaLoop` and `delta` are the outer loop.

At the end of the old body the variable `c` has no value; it is the parameter `c0`. A failing `fputs` is left out.
-/

namespace CSSC.Body

open CSSC.Lines CSSC.Library.Decimal

/-- `delta_result`, with what is written. -/
structure DeltaResult where
  /-- What is written to the new body. -/
  out : List Out
  /-- Lines inserted. -/
  inserted : ℕ
  /-- Lines deleted. -/
  deleted : ℕ
  /-- Lines left unchanged. -/
  unchanged : ℕ
  deriving DecidableEq

namespace DeltaResult

/-- Nothing is written. -/
def empty : DeltaResult := ⟨[], 0, 0, 0⟩

/-- One part of the work after the other. -/
def append (r s : DeltaResult) : DeltaResult :=
  ⟨r.out ++ s.out, r.inserted + s.inserted, r.deleted + s.deleted, r.unchanged + s.unchanged⟩

/-- The bytes of the new body. -/
def bytes (r : DeltaResult) : List UInt8 := outBytes r.out

end DeltaResult

/-- The value -1 of the variable `c`. -/
def minusOne : UInt8 := 255

/-- A line may be inserted: there is no limit, or its length without the newline is below it. -/
def fits (lenMax : ℕ) (s : CLine) : Prop := lenMax = 0 ∨ s.bytes.length - 1 < lenMax

instance (lenMax : ℕ) (s : CLine) : Decidable (fits lenMax s) := inferInstanceAs (Decidable (_ ∨ _))

/-- A line of the diff output is written, after the brackets `out`. -/
def insertLine (out : List Out) (s : CLine) : DeltaResult := ⟨out ++ [.inserted s], 1, 0, 0⟩

/-- The inner loop: what diff says up to and including the line just read. -/
def lineLoop (seq lenMax : ℕ) (c : UInt8) : ℕ → DiffState → Except Quit (DiffState × DeltaResult)
  | 0, _ => .error .diverges
  | fuel + 1, d => do
    let a ← d.process seq
    match a.1.state with
    | .delete => if c = minusOne then .error .assertion else .ok (a.1, ⟨a.2, 0, 1, 0⟩)
    | .insert => do
      let s ← a.1.getInsertLine
      if fits lenMax s then do
        let r ← lineLoop seq lenMax c fuel a.1
        return (r.1, (insertLine a.2 s).append r.2)
      else .error (.failure "Input line is too long")
    | .end_ => if c = minusOne then .ok (a.1, ⟨a.2, 0, 0, 0⟩) else .ok (a.1, ⟨a.2, 0, 0, 1⟩)
    | .nochange => if c = minusOne then .error .assertion else .ok (a.1, ⟨a.2, 0, 0, 1⟩)
    | .start => .error .aborted

/-- The loop at the end of the old body: a block may still have to be inserted. -/
def eofLoop (seq lenMax : ℕ) : ℕ → DiffState → Except Quit DeltaResult
  | 0, _ => .error .diverges
  | fuel + 1, d => do
    let a ← d.process seq
    if a.1.state = .insert then do
      let s ← a.1.getInsertLine
      if fits lenMax s then do
        let r ← eofLoop seq lenMax fuel a.1
        return (insertLine a.2 s).append r
      else .error (.failure "Input line is too long")
    else return ⟨a.2, 0, 0, 0⟩

/-- What a delta is written with. -/
structure DeltaParms where
  /-- `highest_delta_seqno`. -/
  highest : ℕ
  /-- `new_seq`. -/
  newSeq : ℕ
  /-- `max_sfile_line_len()`. -/
  lenMax : ℕ
  /-- The value of the variable `c` at the end of the old body. -/
  c0 : UInt8
  /-- A `seq_no` has 16 bits. -/
  newSeq_le : newSeq ≤ 65535

/-- A line of the old body is copied. -/
def copyLine (l : Line) : DeltaResult := ⟨[.copied l], 0, 0, 0⟩

/-- The outer loop. -/
def deltaLoop (p : DeltaParms) (ending : Except Quit Unit) :
    SeqState → DiffState → List Line → Except Quit DeltaResult
  | ss, d, [] => do
    ending
    let a ← if ss.includeLine then lineLoop p.newSeq p.lenMax p.c0 (d.input.length + 1) d
      else .ok (d, .empty)
    let r ← eofLoop p.newSeq p.lenMax (a.1.input.length + 1) a.1
    return a.2.append r
  | ss, d, l :: ls =>
    if l.kind ≠ 0 then do
      let seq ← lineNumber l
      if seq < 1 ∨ p.highest < seq then .error (.corrupt "Invalid sequence number %u")
      else do
        let ss' ← control ss l.kind seq "Unexpected control line '%c'"
        let r ← deltaLoop p ending ss' d ls
        return (copyLine l).append r
    else if ss.includeLine then do
      let a ← lineLoop p.newSeq p.lenMax 0 (d.input.length + 1) d
      let r ← deltaLoop p ending ss a.1 ls
      return a.2.append ((copyLine l).append r)
    else do
      let r ← deltaLoop p ending ss d ls
      return (copyLine l).append r

/-- `sccs_file_body_scanner::delta`, on what the old body and the output of diff deliver. -/
def delta (p : DeltaParms) (ss : SeqState) (script : List CLine) (r : Reading) : Except Quit DeltaResult :=
  deltaLoop p r.ending ss (DiffState.initial script) r.lines

end CSSC.Body
