import CSSC.Body.SeqState
import CSSC.Library.Strip
import CSSC.Library.Decimal
import CSSC.Lines.Linebuf

/-!
# Reading the body

`sccs_file_body_scanner` reads the body of a history file line by line. A line that starts with `^A` is a bracket:
`^AI n`, `^AD n` or `^AE n`.

`readBody` is what `read_line` delivers from the bytes of the body, through the line buffer: lines, and how the
reading ends. A line that starts with a NUL makes `read_line_param` write before the buffer. `get` is the main loop of
`get`, without keyword substitution: the lines that are part of the version, each with the delta it is attributed to,
and the state in which the loop leaves `seq_state`. `remove` is the copy that leaves one delta out. Left out are the
partial output of a failed run, the columns of `-m` and `-n`, and the line numbers in messages.

A body of whole lines is read back line by line (`readBody_storedLines`), and a number printed in decimal is read back
(`strictAtous_decimal`).
-/

namespace CSSC.Body

open CSSC.Lines CSSC.Library.Weave CSSC.Library.Decimal

/-! ### The lines of the body -/

/-- What reading a body to its end gives. -/
structure Reading where
  /-- The lines that `read_line` delivers. -/
  lines : List Line
  /-- The end of the file, or what stops the reading. -/
  ending : Except Quit Unit

/-- The lines of the delivered strings, up to one that cannot be chomped. -/
def chompAll : List CLine → Reading
  | [] => ⟨[], .ok ()⟩
  | s :: r =>
    match s.chomp with
    | none => ⟨[], .error .undefined⟩
    | some l => ⟨l :: (chompAll r).lines, (chompAll r).ending⟩

/-- The lines of a body whose bytes are read through the buffer `b`. -/
def readBody (b : Linebuf) (f : List UInt8) : Reading := chompAll (deliveries b f)

/-- **A body of whole lines is read back line by line.** -/
theorem readBody_storedLines (b : Linebuf) (ls : List Line) :
    readBody b (storedLines ls) = ⟨ls, .ok ()⟩ := by
  rw [readBody, deliveries_storedLines]
  induction ls with
  | nil => rfl
  | cons l ls ih => simp [chompAll, ih]

/-- Whole lines in front of other bytes are read, and then the others. -/
theorem readBody_append (b : Linebuf) (ls : List Line) (f : List UInt8) :
    ∃ b', readBody b (storedLines ls ++ f) = ⟨ls ++ (readBody b' f).lines, (readBody b' f).ending⟩ := by
  induction ls generalizing b with
  | nil => exact ⟨b, rfl⟩
  | cons l ls ih =>
    have h₁ := Linebuf.readData_stored b l (storedLines ls ++ f)
    obtain ⟨b', h'⟩ := ih (b.after l.stored.length)
    have hs : CLine.ofData l.stored (Linebuf.readData_newline h₁) = l.delivered :=
      CLine.ext (cstr_eq_self l.zero_not_mem_stored)
    refine ⟨b', ?_⟩
    rw [storedLines_cons, List.append_assoc, readBody, deliveries_cons h₁, hs, chompAll, Line.chomp_delivered]
    show Reading.mk (l :: (readBody (b.after l.stored.length) _).lines) (readBody (b.after l.stored.length) _).ending = _
    rw [h']
    rfl

/-! ### The argument of a bracket -/

/-- The loop of `strict_atous`: the number so far, and whether there is none yet. -/
def strictAtousLoop : ℕ → Bool → List UInt8 → Except Quit ℕ
  | n, empty, [] => if empty then .error (.corrupt "Missing number") else .ok n
  | n, _, c :: s =>
    if isDigit c = false then .error (.corrupt "Invalid number")
    else if 65535 < n * 10 + digitValue c then .error (.corrupt "Number too big")
    else strictAtousLoop (n * 10 + digitValue c) false s

/-- `strict_atous`. -/
def strictAtous (s : List UInt8) : Except Quit ℕ := strictAtousLoop 0 true s

/-- `check_arg`. -/
def checkArg (l : Line) : Except Quit Unit :=
  if l.bufchar 2 ≠ 32 then .error (.corrupt "Missing arg") else .ok ()

/-- The number in a bracket line: `strict_atous` from the fourth character on. -/
def lineNumber (l : Line) : Except Quit ℕ := strictAtous (l.bytes.drop 3)

theorem strictAtousLoop_digits {n : ℕ} {e : Bool} {s : List UInt8} (hd : ∀ c ∈ s, isDigit c = true)
    (hv : valueFrom n s ≤ 65535) (he : e = true → s ≠ []) :
    strictAtousLoop n e s = .ok (valueFrom n s) := by
  induction s generalizing n e with
  | nil =>
    cases e with
    | true => exact absurd rfl (he rfl)
    | false => rfl
  | cons c s ih =>
    have hc := hd c List.mem_cons_self
    rw [valueFrom_cons] at hv
    have hle : n * 10 + digitValue c ≤ 65535 := (le_valueFrom _ s).trans hv
    rw [strictAtousLoop, if_neg (by simp [hc]), if_neg (by omega), valueFrom_cons]
    exact ih (fun d hd' => hd d (List.mem_cons_of_mem c hd')) hv (by simp)

/-- **A number that is printed in decimal is read back**, if it has 16 bits. -/
theorem strictAtous_decimal {n : ℕ} (h : n ≤ 65535) : strictAtous (decimal n) = .ok n := by
  have := strictAtousLoop_digits (n := 0) (e := true) (decimal_isDigit n)
    (by rw [valueFrom_decimal]; exact h) (fun _ => decimal_ne_nil n)
  rwa [valueFrom_decimal] at this

/-! ### `get` -/

/-- The reaction of `seq_state` to a bracket; `unexpected` is the message for another letter. -/
def control (ss : SeqState) (letter : UInt8) (seq : ℕ) (unexpected : String) : Except Quit SeqState :=
  if letter = letterE then (ss.end_ seq).mapError .corrupt
  else if letter = letterD ∨ letter = letterI then (ss.start seq letter).mapError .corrupt
  else .error (.corrupt unexpected)

/-- The lines that are part of a version, each with the delta it is attributed to. -/
abbrev Visible := List (ℕ × Line)

/-- The main loop of `get`. -/
def getLoop (highest : ℕ) (ending : Except Quit Unit) :
    SeqState → List Line → Except Quit (Visible × SeqState)
  | ss, [] => do
    ending
    return ([], ss)
  | ss, l :: ls =>
    if l.kind = 0 then do
      let r ← getLoop highest ending ss ls
      return if ss.includeLine then ((ss.activeSeq, l) :: r.1, r.2) else r
    else do
      checkArg l
      let seq ← lineNumber l
      if seq < 1 ∨ highest < seq then .error (.corrupt "Invalid serial number %u converted from '%s'")
      else do
        let ss' ← control ss l.kind seq "Unexpected control line"
        getLoop highest ending ss' ls

/-- `sccs_file_body_scanner::get`. The first line must be an `^AI`; its number is not checked, and
neither is the outcome of `start`. -/
def get (highest : ℕ) (ss : SeqState) (r : Reading) : Except Quit (Visible × SeqState) :=
  match r.lines with
  | [] => do
    r.ending
    .error (.corrupt "Expected '@I'")
  | l :: ls =>
    if l.kind ≠ letterI then .error (.corrupt "Expected '@I'")
    else do
      checkArg l
      let first ← lineNumber l
      getLoop highest r.ending ((ss.start first letterI).toOption.getD ss) ls

theorem chompAll_ne_diverges (ls : List CLine) : (chompAll ls).ending ≠ .error .diverges := by
  induction ls with
  | nil => nofun
  | cons s ls ih =>
    rw [chompAll]
    split
    · simp
    · exact ih

theorem strictAtousLoop_ne_diverges (n : ℕ) (e : Bool) (s : List UInt8) : strictAtousLoop n e s ≠ .error .diverges := by
  induction s generalizing n e with
  | nil => cases e <;> nofun
  | cons c s ih =>
    rw [strictAtousLoop]
    split_ifs
    · simp
    · simp
    · exact ih _ _

theorem checkArg_ne_diverges (l : Line) : checkArg l ≠ .error .diverges := by
  rw [checkArg]
  split <;> simp

theorem control_ne_diverges (ss : SeqState) (letter : UInt8) (seq : ℕ) (s : String) :
    control ss letter seq s ≠ .error .diverges := by
  rw [control]
  split
  · cases ss.end_ seq <;> simp [Except.mapError]
  · split
    · cases ss.start seq letter <;> simp [Except.mapError]
    · simp

theorem getLoop_ne_diverges (highest : ℕ) {ending : Except Quit Unit} (he : ending ≠ .error .diverges) (ss : SeqState)
    (ls : List Line) : getLoop highest ending ss ls ≠ .error .diverges := by
  induction ls generalizing ss with
  | nil => exact bind_ne_diverges he fun _ _ => by simp [pure, Except.pure]
  | cons l ls ih =>
    rw [getLoop]
    split
    · exact bind_ne_diverges (ih ss) fun r _ => by simp [pure, Except.pure]
    · refine bind_ne_diverges (checkArg_ne_diverges l) fun _ _ => ?_
      refine bind_ne_diverges (strictAtousLoop_ne_diverges _ _ _) fun seq _ => ?_
      split
      · simp
      · exact bind_ne_diverges (control_ne_diverges _ _ _ _) fun ss' _ => ih ss'

/-- Reading a version returns. -/
theorem get_ne_diverges (highest : ℕ) (ss : SeqState) {r : Reading} (he : r.ending ≠ .error .diverges) :
    get highest ss r ≠ .error .diverges := by
  rw [get]
  split
  · exact bind_ne_diverges he fun _ _ => by simp
  · split
    · simp
    · refine bind_ne_diverges (checkArg_ne_diverges _) fun _ _ => ?_
      exact bind_ne_diverges (strictAtousLoop_ne_diverges _ _ _) fun first _ => getLoop_ne_diverges highest he _ _

/-! ### `remove` -/

/-- `update_state`: `COPY`, `DELETE` and `INSERT`. -/
abbrev UpdateState := Mode

/-- `next_state`: the state after a bracket of the delta that is removed. -/
def nextState (current : UpdateState) (key : UInt8) : Option UpdateState :=
  if current = .copy then
    if key = letterI then some .insert
    else if key = letterD then some .delete
    else none
  else if key = letterE then some .copy
  else none

/-- The loop of `remove`. The failure at its end is made of `errno`, and a failure of the error number 0 is none. -/
def removeLoop (errno seq : ℕ) (ending : Except Quit Unit) : UpdateState → List Line → Except Quit (List Line)
  | state, [] => do
    ending
    if state ≠ .copy ∧ errno ≠ 0 then .error (.failure "unexpected EOF at ") else .ok []
  | state, l :: ls =>
    if l.kind ≠ 0 then do
      checkArg l
      let n ← lineNumber l
      if n = seq then
        match nextState state l.kind with
        | none => .error (.failure "unexpected control line at ")
        | some state' => removeLoop errno seq ending state' ls
      else if state = .insert then .error (.failure "non-terminal delta at ")
      else do
        let out ← removeLoop errno seq ending state ls
        return l :: out
    else if state ≠ .insert then do
      let out ← removeLoop errno seq ending state ls
      return l :: out
    else removeLoop errno seq ending state ls

/-- `sccs_file_body_scanner::remove`: the lines that are written. `errno` is the error number that it finds when the
file ends. -/
def remove (errno seq : ℕ) (r : Reading) : Except Quit (List Line) := removeLoop errno seq r.ending .copy r.lines

end CSSC.Body
