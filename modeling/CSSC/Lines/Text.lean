import Mathlib.Data.UInt
import Mathlib.Data.List.TakeWhile

/-!
# Bytes, C strings and lines

The program handles text as NUL-terminated buffers filled one line at a time. `cstr` is what the string functions of C
see of a buffer, the bytes before the first NUL, and `CString` is such a string for any buffer. A `CLine` is one that
a line buffer can hold after a read: a newline can only be its last byte, and when a NUL came first there is none.
With its last byte chomped it is a `Line`, which has neither.

How an operation can fail to return normally is said by `Quit`.
-/

namespace CSSC.Lines

/-- How an operation ends when it does not return a result. -/
inductive Quit where
  /-- `corrupt(here(), format, …)`: the history file is not well formed. -/
  | corrupt (format : String)
  /-- `diff_output_corrupt(msg)`: the output of diff is not as expected. -/
  | diffOutputCorrupt (msg : String)
  /-- `fatal_quit` with this text. -/
  | fatalQuit (msg : String)
  /-- An `ASSERT` failed. -/
  | assertion
  /-- `abort()` was called. -/
  | aborted
  /-- A `cssc::Failure` with this text, or `false`, is returned to the caller. -/
  | failure (msg : String)
  /-- The C++ standard does not define what happens. -/
  | undefined
  /-- The program does not return. -/
  | diverges
  deriving DecidableEq, Repr

/-- A computation in two steps succeeds when both steps do. -/
theorem bind_eq_ok {α β : Type} {x : Except Quit α} {f : α → Except Quit β} {b : β} :
    (x >>= f) = .ok b ↔ ∃ a, x = .ok a ∧ f a = .ok b := by
  cases x with
  | error q => simp [bind, Except.bind]
  | ok a => simp [bind, Except.bind]

/-- It fails when one of them does. -/
theorem bind_eq_error {α β : Type} {x : Except Quit α} {f : α → Except Quit β} {q : Quit} :
    (x >>= f) = .error q ↔ x = .error q ∨ ∃ a, x = .ok a ∧ f a = .error q := by
  cases x with
  | error r => simp [bind, Except.bind]
  | ok a => simp [bind, Except.bind]

/-- It returns when both steps do. -/
theorem bind_ne_diverges {α β : Type} {x : Except Quit α} {f : α → Except Quit β} (hx : x ≠ .error .diverges)
    (hf : ∀ a, x = .ok a → f a ≠ .error .diverges) : (x >>= f) ≠ .error .diverges := by
  intro h
  rcases bind_eq_error.mp h with h | ⟨a, ha, h⟩
  · exact hx h
  · exact hf a ha h

@[simp] theorem ok_bind {α β : Type} (a : α) (f : α → Except Quit β) : (Except.ok a >>= f) = f a := rfl
@[simp] theorem error_bind {α β : Type} (q : Quit) (f : α → Except Quit β) :
    (Except.error q >>= f) = .error q := rfl

/-- The C string in a buffer: everything before the first NUL. -/
def cstr (buf : List UInt8) : List UInt8 := buf.takeWhile (· ≠ 0)

/-- A string of C. -/
structure CString where
  /-- The bytes before the terminator. -/
  bytes : List UInt8
  /-- The terminator is the first NUL. -/
  no_nul : (0 : UInt8) ∉ bytes
  deriving DecidableEq, Repr

/-- A string that a line buffer holds after a successful read. -/
structure CLine where
  /-- The bytes before the terminator. -/
  bytes : List UInt8
  /-- The terminator is the first NUL. -/
  no_nul : (0 : UInt8) ∉ bytes
  /-- A read stops at a newline. -/
  newline_last : (10 : UInt8) ∉ bytes.dropLast
  deriving DecidableEq, Repr

/-- A line with its last byte chomped. -/
structure Line where
  /-- The bytes of the line. -/
  bytes : List UInt8
  /-- No line contains a NUL. -/
  no_nul : (0 : UInt8) ∉ bytes
  /-- No line contains a newline. -/
  no_newline : (10 : UInt8) ∉ bytes
  deriving DecidableEq, Repr

theorem zero_not_mem_cstr (buf : List UInt8) : (0 : UInt8) ∉ cstr buf := by
  intro h
  simpa using List.mem_takeWhile_imp h

theorem cstr_eq_self {buf : List UInt8} (h : (0 : UInt8) ∉ buf) : cstr buf = buf := by
  rw [cstr, List.takeWhile_eq_self_iff]
  intro c hc
  simpa using fun e : c = 0 => h (e ▸ hc)

theorem dropLast_mono {xs ys : List UInt8} (h : xs <+: ys) : xs.dropLast <+: ys.dropLast := by
  obtain ⟨zs, rfl⟩ := h
  rcases List.eq_nil_or_concat zs with rfl | ⟨zs', z, rfl⟩
  · simp
  · rw [List.concat_eq_append, ← List.append_assoc, List.dropLast_concat]
    exact ( List.dropLast_prefix xs).trans (List.prefix_append xs zs')

theorem mem_dropLast_of_drop {c : UInt8} {n : ℕ} {xs : List UInt8} (h : c ∈ (xs.drop n).dropLast) :
    c ∈ xs.dropLast := by
  by_cases hn : xs.drop n = []
  · simp [hn] at h
  · rw [← List.take_append_drop n xs, List.dropLast_append_of_ne_nil hn]
    exact List.mem_append_right _ h

namespace CLine

/-- The string a buffer holds after a read that stopped at the first newline. -/
def ofData (data : List UInt8) (h : (10 : UInt8) ∉ data.dropLast) : CLine where
  bytes := cstr data
  no_nul := zero_not_mem_cstr data
  newline_last := fun hm => h ((dropLast_mono ( List.takeWhile_prefix _)).subset hm)

@[ext] theorem ext {s t : CLine} (h : s.bytes = t.bytes) : s = t := by
  cases s
  cases t
  cases h
  rfl

/-- The string from a position on. -/
def drop (s : CLine) (n : ℕ) : CLine where
  bytes := s.bytes.drop n
  no_nul := fun h => s.no_nul (List.mem_of_mem_drop h)
  newline_last := fun h => s.newline_last (mem_dropLast_of_drop h)

/-- The line a string is read as: its last byte is overwritten by the terminator. For an empty
string the byte before the buffer would be overwritten. -/
def chomp (s : CLine) : Option Line :=
  if s.bytes = [] then none
  else some ⟨s.bytes.dropLast, fun h => s.no_nul (List.dropLast_subset _ h), s.newline_last⟩

end CLine

namespace Line

@[ext] theorem ext {l m : Line} (h : l.bytes = m.bytes) : l = m := by
  cases l
  cases m
  cases h
  rfl

theorem byte_ne (l : Line) : ∀ c ∈ l.bytes, c ≠ 0 ∧ c ≠ 10 :=
  fun _ hc => ⟨fun e => l.no_nul (e ▸ hc), fun e => l.no_newline (e ▸ hc)⟩

/-- A line as it is stored: with its newline. -/
def stored (l : Line) : List UInt8 := l.bytes ++ [10]

theorem zero_not_mem_stored (l : Line) : (0 : UInt8) ∉ l.stored := by
  simp [stored, l.no_nul]

/-- The string that reading a stored line gives. -/
def delivered (l : Line) : CLine where
  bytes := l.stored
  no_nul := l.zero_not_mem_stored
  newline_last := by
    rw [stored, List.dropLast_concat]
    exact l.no_newline

@[simp] theorem delivered_bytes (l : Line) : l.delivered.bytes = l.bytes ++ [10] := rfl

@[simp] theorem chomp_delivered (l : Line) : l.delivered.chomp = some l := by
  simp [CLine.chomp]

/-- The character at a position of the buffer; the terminator stands after the last byte. -/
def bufchar (l : Line) (pos : ℕ) : UInt8 := l.bytes.getD pos 0

/-- What `read_line` returns for a line: for a `^A` line the character after it, else NUL. -/
def kind (l : Line) : UInt8 := if l.bufchar 0 = 1 then l.bufchar 1 else 0

end Line

/-- A file made of whole lines. -/
def storedLines (ls : List Line) : List UInt8 := ls.flatMap Line.stored

@[simp] theorem storedLines_nil : storedLines [] = [] := rfl
@[simp] theorem storedLines_cons (l : Line) (ls : List Line) :
    storedLines (l :: ls) = l.stored ++ storedLines ls := rfl

theorem storedLines_append (ls ms : List Line) :
    storedLines (ls ++ ms) = storedLines ls ++ storedLines ms := by
  simp [storedLines]

end CSSC.Lines
