import Mathlib.Data.UInt
import Mathlib.Data.List.Basic
import Mathlib.Data.List.TakeWhile

/-!
# `what`

`what` prints the strings that follow `@(#)` in a file. It reads the file in blocks, and keeps the last three bytes of
a block in front of the next one. A string that is not finished at the end of a block is read on byte by byte.

What should be printed is said by a scan of the whole file from left to right (`search`). The program is `printWhat`
for one string and `scanBuf` for one block; `Run` is the loop over the blocks, where each read gives as many bytes as
it likes. There are two ways to go wrong: the bytes kept may belong to a string that has been printed, and a byte 255
that is read by itself is taken for the end of the file. A string is `Good` if neither can happen at it.

`scanBuf_spec` says what is found in one block. From it **good strings are printed wherever the blocks end**
(`run_right`), by induction over the blocks, and **only good strings are** (`what_right_iff`): for each other string a
way to read the file is given that prints something else. There is one case in which the two errors together come to
what is wanted, `Lookalike`: a string found by mistake is cut at a byte 255 that no block reaches, and what is printed
of it is just the one string that was still to come.
-/

namespace CSSC.Commands

/-! ### The strings of a file -/

/-- A string that is printed. -/
structure Occurrence where
  /-- The file, from where the string begins. -/
  start : List UInt8
  /-- What is printed. -/
  text : List UInt8
  deriving DecidableEq, Repr

/-- `terminator`. -/
def terminator (c : UInt8) : Bool := c = 34 || c = 62 || c = 10 || c = 92 || c = 0

mutual

/-- The strings of a file. -/
def search : List UInt8 → List Occurrence
  | a :: b :: c :: d :: l =>
    if a = 64 ∧ b = 40 ∧ c = 35 ∧ d = 41 then inString l [] l else search (b :: c :: d :: l)
  | _ => []

/-- The same, within a string. -/
def inString (start text : List UInt8) : List UInt8 → List Occurrence
  | [] => [⟨start, text⟩]
  | c :: l => if terminator c then ⟨start, text⟩ :: search l else inString start (text ++ [c]) l

end

/-- With `one_match` the first string is enough. -/
def limit (one : Bool) (l : List Occurrence) : List Occurrence := if one then l.take 1 else l

/-! ### The program -/

/-- The second loop of `print_what`: the characters printed, and the rest of the file after the terminator; `none` at the
end of the file. A `char` of -1 looks like it. -/
def getcLoop : List UInt8 → List UInt8 × Option (List UInt8)
  | [] => ([], none)
  | c :: f =>
    if c = 255 then ([], none)
    else if terminator c then ([], some f)
    else (c :: (getcLoop f).1, (getcLoop f).2)

/-- What `print_what` returns. -/
inductive Where where
  /-- A pointer to the terminator in the buffer. -/
  | inBuffer
  /-- `end`; this is the rest of the file. -/
  | beyond (f : List UInt8)
  /-- `nullptr`. -/
  | atEof
  deriving DecidableEq, Repr

/-- `print_what`, for what is left of the buffer and of the file. -/
def printWhat : List UInt8 → List UInt8 → List UInt8 × Where
  | [], f => ((getcLoop f).1, (getcLoop f).2.elim .atEof .beyond)
  | c :: s, f => if terminator c then ([], .inBuffer) else (c :: (printWhat s f).1, (printWhat s f).2)

/-- How the loop over a block ends. -/
inductive BlockEnd where
  /-- The next block is read from this rest of the file. -/
  | again (f : List UInt8)
  /-- `done`. -/
  | done
  deriving DecidableEq, Repr

/-- The loop over a block, from `at` on: the last three bytes are only looked at. After a string the pointer goes on from
its terminator; this is the number of bytes to skip. -/
def scanBuf (one : Bool) (f : List UInt8) : ℕ → List UInt8 → List Occurrence × BlockEnd
  | skip + 1, _ :: b => scanBuf one f skip b
  | 0, a :: b :: c :: d :: l =>
    if a = 64 ∧ b = 40 ∧ c = 35 ∧ d = 41 then
      match printWhat l f with
      | (text, .atEof) => ([⟨l ++ f, text⟩], .done)
      | (text, .beyond f') => ([⟨l ++ f, text⟩], if one then .done else .again f')
      | (text, .inBuffer) =>
        if one then ([⟨l ++ f, text⟩], .done)
        else
          (⟨l ++ f, text⟩ :: (scanBuf one f (text.length + 4) (b :: c :: d :: l)).1,
            (scanBuf one f (text.length + 4) (b :: c :: d :: l)).2)
    else scanBuf one f 0 (b :: c :: d :: l)
  | _, _ => ([], .again f)

/-- `CONFIG_WHAT_BUFFER_SIZE`. -/
def bufferSize : ℕ := 16 * 1024

/-- The loop over the blocks, from a state with these three bytes and this rest of the file: what is printed. Each `read`
gives as many bytes as it likes. -/
inductive Run (one : Bool) : List UInt8 → List UInt8 → List Occurrence → Prop
  /-- The file is at its end. -/
  | eof (carry : List UInt8) : Run one carry [] []
  /-- The loop is left. -/
  | last {n : ℕ} {carry f : List UInt8} {out : List Occurrence} (h0 : 0 < n) (hf : n ≤ f.length) (hs : n ≤ bufferSize)
      (h : scanBuf one (f.drop n) 0 (carry ++ f.take n) = (out, .done)) : Run one carry f out
  /-- The last three bytes are kept, and the next block is read. -/
  | more {n : ℕ} {carry f f' : List UInt8} {out out' : List Occurrence} (h0 : 0 < n) (hf : n ≤ f.length)
      (hs : n ≤ bufferSize) (h : scanBuf one (f.drop n) 0 (carry ++ f.take n) = (out, .again f'))
      (hr : Run one ((carry ++ f.take n).drop n) f' out') : Run one carry f (out ++ out')

/-- `what`. -/
def What (one : Bool) (content : List UInt8) (out : List Occurrence) : Prop := Run one [0, 0, 0] content out

/-! ### The condition -/

/-- The characters of a string. -/
def textOf (start : List UInt8) : List UInt8 := start.takeWhile (!terminator ·)

/-- The file after the terminator of a string. -/
def after (start : List UInt8) : List UInt8 := (start.dropWhile (!terminator ·)).tail

/-- The string has a byte that looks like the end of the file, and up to there, which is too far for one block, it is the
only string that is wanted. -/
def Lookalike (start : List UInt8) : Prop :=
  255 ∈ textOf start ∧ bufferSize ≤ ((textOf start).takeWhile (· ≠ 255)).length + 1 ∧
    (search start).map Occurrence.text = [(textOf start).takeWhile (· ≠ 255)]

/-- The string contains a beginning of `@(#)`, so near that it can be the end of a block, what is missing comes after the
terminator, and the string that seems to begin there is not printed as if it were the one that is wanted. -/
def Completed (start : List UInt8) : Prop :=
  ∃ u p v q g, textOf start = u ++ p ++ v ∧ p ++ q = [64, 40, 35, 41] ∧ p ≠ [] ∧ q ≠ [] ∧ (u ++ p).length < bufferSize ∧
    after start = q ++ g ∧ ¬ Lookalike g

/-- The string is printed alike for every choice of blocks. -/
structure Good (one : Bool) (o : Occurrence) : Prop where
  /-- No byte looks like the end of the file. -/
  no_eof : 255 ∉ o.text
  /-- No string is found by mistake after it. -/
  not_completed : one = false → ¬ Completed o.start

/-! ### The scan of a whole file -/

theorem search_marker (l : List UInt8) : search (64 :: 40 :: 35 :: 41 :: l) = inString l [] l := by
  rw [search, if_pos ⟨rfl, rfl, rfl, rfl⟩]

theorem search_nil : search [] = [] := rfl

/-- Anything but `@(#)` is passed over. -/
theorem search_cons {x : UInt8} {l : List UInt8} (h : ∀ r, x :: l ≠ 64 :: 40 :: 35 :: 41 :: r) :
    search (x :: l) = search l := by
  match l with
  | [] => rfl
  | [b] => rfl
  | [b, c] => rfl
  | b :: c :: d :: l =>
    rw [search, if_neg]
    rintro ⟨rfl, rfl, rfl, rfl⟩
    exact h l rfl

/-- A list begins with `@(#)` or it does not. -/
theorem marker_or (l : List UInt8) :
    (∃ r, l = 64 :: 40 :: 35 :: 41 :: r) ∨ ∀ r, l ≠ 64 :: 40 :: 35 :: 41 :: r := by
  by_cases h : ∃ r, l = 64 :: 40 :: 35 :: 41 :: r
  · exact .inl h
  · exact .inr fun r hr => h ⟨r, hr⟩

theorem inString_eq (start text l : List UInt8) :
    inString start text l = ⟨start, text ++ textOf l⟩ :: search (after l) := by
  induction l generalizing text with
  | nil => simp [inString, textOf, after, search]
  | cons c l ih =>
    rw [inString, textOf, after]
    by_cases hc : terminator c
    · simp [hc]
    · rw [if_neg hc, ih, List.takeWhile_cons_of_pos (by simpa using hc), List.dropWhile_cons_of_pos (by simpa using hc),
        textOf, after, List.append_assoc]
      rfl

theorem search_string (l : List UInt8) :
    search (64 :: 40 :: 35 :: 41 :: l) = ⟨l, textOf l⟩ :: search (after l) := by
  rw [search_marker, inString_eq, List.nil_append]

theorem textOf_append {t l : List UInt8} (h : ∀ c ∈ t, terminator c = false) : textOf (t ++ l) = t ++ textOf l :=
  List.takeWhile_append_of_pos fun c hc => by simp [h c hc]

theorem after_append {t l : List UInt8} (h : ∀ c ∈ t, terminator c = false) : after (t ++ l) = after l := by
  rw [after, List.dropWhile_append_of_pos fun c hc => by simp [h c hc], after]

theorem textOf_terminator {c : UInt8} (h : terminator c = true) (l : List UInt8) : textOf (c :: l) = [] := by
  simp [textOf, h]

theorem after_terminator {c : UInt8} (h : terminator c = true) (l : List UInt8) : after (c :: l) = l := by
  simp [after, h]

/-- A terminator is not a part of `@(#)`. -/
theorem search_terminator {u : List UInt8} (hu : u.length ≤ 2) {c : UInt8} (hc : terminator c = true) (l : List UInt8) :
    search (u ++ c :: l) = search l := by
  have hne : c ≠ 64 ∧ c ≠ 40 ∧ c ≠ 35 ∧ c ≠ 41 := by
    refine ⟨?_, ?_, ?_, ?_⟩ <;>
    · rintro rfl
      exact absurd hc (by decide)
  match u with
  | [] => exact search_cons fun r h => hne.1 (by simpa using congrArg List.head? h)
  | [x] =>
    rw [List.cons_append, List.nil_append, search_cons, search_cons]
    · exact fun r h => hne.1 (by simpa using congrArg List.head? h)
    · exact fun r h => hne.2.1 (by simp_all)
  | [x, y] =>
    rw [List.cons_append, List.cons_append, List.nil_append, search_cons, search_cons, search_cons]
    · exact fun r h => hne.1 (by simpa using congrArg List.head? h)
    · exact fun r h => hne.2.1 (by simp_all)
    · exact fun r h => hne.2.2.1 (by simp_all)

/-- The rest of `@(#)` makes no string. -/
theorem search_rest {p q : List UInt8} (hpq : p ++ q = [64, 40, 35, 41]) (hp : p ≠ []) (g : List UInt8) :
    search (q ++ g) = search g := by
  have hq : ∀ x ∈ q, x ≠ 64 := by
    match p with
    | [] => exact absurd rfl hp
    | x :: p =>
      have htail := (List.cons.inj hpq).2
      rintro c hc rfl
      have hmem : (64 : UInt8) ∈ [40, 35, 41] := htail ▸ List.mem_append_right p hc
      exact absurd hmem (by decide)
  clear hpq
  induction q with
  | nil => rfl
  | cons x q ih =>
    obtain ⟨hx, hq⟩ := List.forall_mem_cons.mp hq
    rw [List.cons_append, search_cons fun r h => hx (List.cons.inj h).1]
    exact ih hq

/-- The first string of a file is after the first terminator, or shorter than what comes before it. -/
theorem search_or (g : List UInt8) :
    search g = search (after g) ∨ ∃ o rest, search g = o :: rest ∧ o.text.length < (textOf g).length := by
  induction g with
  | nil => exact .inl rfl
  | cons c g ih =>
    rcases marker_or (c :: g) with ⟨r, hr⟩ | hno
    · rw [hr, search_string]
      have ht : textOf ([64, 40, 35, 41] ++ r) = [64, 40, 35, 41] ++ textOf r := by
        apply textOf_append
        simp [terminator]
      refine .inr ⟨_, _, rfl, ?_⟩
      show (textOf r).length < (textOf ([64, 40, 35, 41] ++ r)).length
      rw [ht, List.length_append]
      simp
    · rw [search_cons hno]
      by_cases hc : terminator c = true
      · rw [after_terminator hc]
        exact .inl rfl
      · have hc1 : ∀ x ∈ [c], terminator x = false := by simpa using hc
        have ht : textOf (c :: g) = c :: textOf g := textOf_append hc1
        have ha : after (c :: g) = after g := after_append hc1
        rw [ha, ht, List.length_cons]
        exact ih.imp_right fun h => by
          obtain ⟨o, rest, ho, hlt⟩ := h
          exact ⟨o, rest, ho, hlt.trans (Nat.lt_succ_self _)⟩

/-! ### What is printed of one string -/

theorem getcLoop_some {f t f' : List UInt8} (h : getcLoop f = (t, some f')) :
    ∃ c, f = t ++ c :: f' ∧ terminator c = true ∧ ∀ x ∈ t, terminator x = false ∧ x ≠ 255 := by
  induction f generalizing t with
  | nil => cases h
  | cons c f ih =>
    rw [getcLoop] at h
    split at h
    · cases h
    · next h255 =>
      split at h
      · next hc =>
        cases h
        exact ⟨c, rfl, hc, by simp⟩
      · next hc =>
        simp only [Prod.mk.injEq] at h
        obtain ⟨rfl, h⟩ := h
        obtain ⟨d, hd, hd', ht⟩ := ih (Prod.ext rfl h)
        refine ⟨d, congrArg (c :: ·) hd, hd', List.forall_mem_cons.mpr ⟨⟨by simpa using hc, h255⟩, ht⟩⟩

theorem getcLoop_none {f t : List UInt8} (h : getcLoop f = (t, none)) :
    (∀ x ∈ t, terminator x = false ∧ x ≠ 255) ∧ (f = t ∨ ∃ g, f = t ++ 255 :: g) := by
  induction f generalizing t with
  | nil =>
    cases h
    exact ⟨by simp, .inl rfl⟩
  | cons c f ih =>
    rw [getcLoop] at h
    split at h
    · next h255 =>
      cases h
      exact ⟨by simp, .inr ⟨f, by rw [h255]; rfl⟩⟩
    · next h255 =>
      split at h
      · cases h
      · next hc =>
        simp only [Prod.mk.injEq] at h
        obtain ⟨rfl, h⟩ := h
        obtain ⟨ht, hf⟩ := ih (Prod.ext rfl h)
        refine ⟨List.forall_mem_cons.mpr ⟨⟨by simpa using hc, h255⟩, ht⟩, ?_⟩
        rcases hf with hf | ⟨g, hf⟩
        · exact .inl (congrArg (c :: ·) hf)
        · exact .inr ⟨g, congrArg (c :: ·) hf⟩

/-- The terminator is in the buffer. -/
theorem printWhat_inBuffer {s f text : List UInt8} (h : printWhat s f = (text, .inBuffer)) :
    ∃ c r, s = text ++ c :: r ∧ terminator c = true ∧ text = textOf (s ++ f) ∧ after (s ++ f) = r ++ f := by
  induction s generalizing text with
  | nil =>
    simp only [printWhat, Prod.mk.injEq] at h
    cases hg : (getcLoop f).2 <;> simp [hg] at h
  | cons c s ih =>
    rw [printWhat] at h
    split at h
    · next hc =>
      cases h
      exact ⟨c, s, rfl, hc, (textOf_terminator hc _).symm, after_terminator hc _⟩
    · next hc =>
      simp only [Prod.mk.injEq] at h
      obtain ⟨rfl, h⟩ := h
      obtain ⟨d, r, hd, hd', ht, ha⟩ := ih (Prod.ext rfl h)
      have hc1 : ∀ x ∈ [c], terminator x = false := by simpa using hc
      refine ⟨d, r, congrArg (c :: ·) hd, hd', ?_, ?_⟩
      · exact (congrArg (c :: ·) ht).trans (textOf_append hc1).symm
      · exact (after_append hc1).trans ha

/-- Otherwise the buffer is printed, and then what is read from the file. -/
theorem printWhat_file {s f text : List UInt8} {w : Where} (h : printWhat s f = (text, w)) (hw : w ≠ .inBuffer) :
    (∀ x ∈ s, terminator x = false) ∧ text = s ++ (getcLoop f).1 ∧ w = (getcLoop f).2.elim .atEof .beyond := by
  induction s generalizing text with
  | nil =>
    simp only [printWhat, Prod.mk.injEq] at h
    exact ⟨by simp, h.1.symm, h.2.symm⟩
  | cons c s ih =>
    rw [printWhat] at h
    split at h
    · cases h
      exact absurd rfl hw
    · next hc =>
      simp only [Prod.mk.injEq] at h
      obtain ⟨rfl, h⟩ := h
      obtain ⟨hs, ht, hw'⟩ := ih (Prod.ext rfl h)
      exact ⟨List.forall_mem_cons.mpr ⟨by simpa using hc, hs⟩, congrArg (c :: ·) ht, hw'⟩

/-- A string that is finished beyond the buffer. -/
theorem printWhat_beyond {s f text f' : List UInt8} (h : printWhat s f = (text, .beyond f')) :
    (∀ x ∈ s, terminator x = false) ∧ text = textOf (s ++ f) ∧ after (s ++ f) = f' ∧ f'.length < f.length := by
  obtain ⟨hs, rfl, hw⟩ := printWhat_file h nofun
  cases hg : getcLoop f with
  | mk t r =>
    rw [hg] at hw
    cases r with
    | none => cases hw
    | some g =>
      cases hw
      obtain ⟨c, rfl, hc, ht⟩ := getcLoop_some hg
      have ht := fun x hx => (ht x hx).1
      refine ⟨hs, ?_, ?_, by simp; omega⟩
      · rw [textOf_append hs, textOf_append ht, textOf_terminator hc, List.append_nil]
      · rw [after_append hs, after_append ht, after_terminator hc]

/-- A string at the end of the file, or one with a byte that looks like it. -/
theorem printWhat_atEof {s f text : List UInt8} (h : printWhat s f = (text, .atEof)) :
    text = textOf (s ++ f) ∧ after (s ++ f) = [] ∨ 255 ∈ textOf (s ++ f) := by
  obtain ⟨hs, rfl, hw⟩ := printWhat_file h nofun
  cases hg : getcLoop f with
  | mk t r =>
    rw [hg] at hw
    cases r with
    | some g => cases hw
    | none =>
      obtain ⟨ht, hf⟩ := getcLoop_none hg
      have ht := fun x hx => (ht x hx).1
      rcases hf with rfl | ⟨g, rfl⟩
      · refine .inl ⟨?_, ?_⟩
        · have := textOf_append (l := []) ht
          rw [List.append_nil] at this
          rw [textOf_append hs, this]
          exact congrArg _ (List.append_nil _).symm
        · rw [after_append hs]
          have := after_append (l := []) ht
          rwa [List.append_nil] at this
      · refine .inr ?_
        rw [textOf_append hs, textOf_append ht]
        have h255 : textOf (255 :: g) = 255 :: textOf g := rfl
        simp [h255]

/-! ### What is found in one block -/

/-- How the strings printed in a block compare with the strings that are there, `found`. -/
inductive Scanned (one : Bool) (buf f : List UInt8) (found out : List Occurrence) : BlockEnd → Prop
  /-- The block is over, and the search goes on in its last three bytes. -/
  | again (h : found = out ++ search (buf.drop (buf.length - 3) ++ f)) (h1 : one = true → out = []) :
      Scanned one buf f found out (.again f)
  /-- A string goes beyond the end of the block. -/
  | crossed {w : List Occurrence} {pre l : List UInt8} (hb : buf = pre ++ 64 :: 40 :: 35 :: 41 :: l)
      (hl : ∀ x ∈ l, terminator x = false) (ho : out = w ++ [⟨l ++ f, textOf (l ++ f)⟩])
      (hlen : (after (l ++ f)).length < f.length) (h : found = out ++ search (after (l ++ f))) (h1 : one = false) :
      Scanned one buf f found out (.again (after (l ++ f)))
  /-- No other string is wanted, or the file seems to be at its end. -/
  | done {w rest : List Occurrence} {o o' : Occurrence} (ho : out = w ++ [o]) (h : found = w ++ o' :: rest)
      (hs : o.start = o'.start) (hgood : 255 ∉ o'.text → o = o' ∧ (one = false → rest = []))
      (h1 : one = true → w = []) : Scanned one buf f found out .done

/-- A string before the others. -/
theorem Scanned.cons {buf f : List UInt8} {found out : List Occurrence} {e : BlockEnd}
    (h : Scanned false buf f found out e) (o : Occurrence) : Scanned false buf f (o :: found) (o :: out) e := by
  cases h with
  | again h h1 => exact .again (congrArg (o :: ·) h) nofun
  | @crossed w _ _ hb hl ho hlen h h1 =>
    exact .crossed (w := o :: w) hb hl (congrArg (o :: ·) ho) hlen (congrArg (o :: ·) h) rfl
  | @done w _ _ _ ho h hs hgood h1 =>
    exact .done (w := o :: w) (congrArg (o :: ·) ho) (congrArg (o :: ·) h) hs hgood nofun

/-- At the end of a block the search starts again with its last three bytes, of which some may be the end of a string. -/
theorem search_carry {buf pre rem : List UInt8} (hb : buf = pre ++ rem) (h3 : 3 ≤ buf.length) (hr : rem.length ≤ 3)
    (hs : 3 ≤ rem.length ∨ ∃ pre' c, pre = pre' ++ [c] ∧ terminator c = true) (f : List UInt8) :
    search (rem ++ f) = search (buf.drop (buf.length - 3) ++ f) := by
  subst hb
  rw [List.length_append] at h3 ⊢
  rcases hs with hs | ⟨pre', c, rfl, hc⟩
  · rw [List.drop_left' (by omega)]
  · by_cases hr3 : rem.length = 3
    · rw [List.drop_left' (by omega)]
    · rw [List.length_append, List.length_singleton] at h3 ⊢
      rw [List.append_assoc, List.drop_append_of_le_length (by omega), List.append_assoc, List.append_assoc,
        List.singleton_append, search_terminator _ hc]
      rw [List.length_drop]
      omega

/-- What is found in a block. -/
theorem scanBuf_spec {one : Bool} {f : List UInt8} {skip : ℕ} {b buf p : List UInt8} {out : List Occurrence}
    {e : BlockEnd} (h : scanBuf one f skip b = (out, e)) (hb : buf = p ++ b.drop skip) (h3 : 3 ≤ buf.length)
    (hs : 3 ≤ (b.drop skip).length ∨ ∃ p' c, p = p' ++ [c] ∧ terminator c = true) :
    Scanned one buf f (search (b.drop skip ++ f)) out e := by
  fun_induction scanBuf one f skip b generalizing p out e with
  | case1 skip x b ih => exact ih h hb hs
  | case2 a b c d l hm text hw =>
    obtain ⟨rfl, rfl, rfl, rfl⟩ := hm
    cases h
    refine .done (w := []) rfl (search_string (l ++ f)) rfl (fun h255 => ?_) fun _ => rfl
    rcases printWhat_atEof hw with ⟨rfl, ha⟩ | h'
    · exact ⟨rfl, fun _ => by rw [ha, search_nil]⟩
    · exact absurd h' h255
  | case3 a b c d l hm text f' hw =>
    obtain ⟨rfl, rfl, rfl, rfl⟩ := hm
    obtain ⟨hl, rfl, rfl, hlen⟩ := printWhat_beyond hw
    cases h
    cases one with
    | true => exact .done (w := []) rfl (search_string (l ++ f)) rfl (fun _ => ⟨rfl, nofun⟩) fun _ => rfl
    | false => exact .crossed (w := []) hb hl rfl hlen (search_string (l ++ f)) rfl
  | case4 a b c d l hm text hw hone =>
    obtain ⟨rfl, rfl, rfl, rfl⟩ := hm
    obtain ⟨x, r, -, -, rfl, -⟩ := printWhat_inBuffer hw
    cases h
    exact .done (w := []) rfl (search_string _) rfl (fun _ => ⟨rfl, by simp [hone]⟩) fun _ => rfl
  | case5 a b c d l hm text hw hone ih =>
    obtain ⟨rfl, rfl, rfl, rfl⟩ := hm
    obtain ⟨x, r, hl, hx, ht, ha⟩ := printWhat_inBuffer hw
    obtain rfl : one = false := by simpa using hone
    cases h
    have hdrop : (40 :: 35 :: 41 :: l).drop (text.length + 4) = r := by
      have hsplit : 40 :: 35 :: 41 :: l = (40 :: 35 :: 41 :: (text ++ [x])) ++ r := by simp [hl]
      rw [hsplit]
      exact List.drop_left' (by simp)
    have hfound : search (64 :: 40 :: 35 :: 41 :: l ++ f) = ⟨l ++ f, text⟩ :: search (r ++ f) := by
      rw [ht, ← ha]
      exact search_string (l ++ f)
    rw [List.drop_zero, hfound]
    have := ih (p := p ++ 64 :: 40 :: 35 :: 41 :: (text ++ [x])) rfl (by rw [hb, hdrop, hl]; simp)
      (.inr ⟨p ++ 64 :: 40 :: 35 :: 41 :: text, x, by simp, hx⟩)
    rw [hdrop] at this
    exact this.cons _
  | case6 a b c d l hm ih =>
    have hne : search (a :: b :: c :: d :: l ++ f) = search (b :: c :: d :: l ++ f) := by
      refine search_cons fun r hr => hm ?_
      have hr' : a :: b :: c :: d :: (l ++ f) = 64 :: 40 :: 35 :: 41 :: r := hr
      simp only [List.cons.injEq] at hr'
      exact ⟨hr'.1, hr'.2.1, hr'.2.2.1, hr'.2.2.2.1⟩
    rw [List.drop_zero, hne]
    exact ih (p := p ++ [a]) h (by simpa using hb) (.inl (by simp))
  | case7 b skip h1 h2 =>
    cases h
    have hlen : (b.drop skip).length ≤ 3 := by
      match skip, b with
      | skip + 1, [] => simp
      | skip + 1, x :: b => exact (h1 skip x b rfl rfl).elim
      | 0, [] => simp
      | 0, [x] => simp
      | 0, [x, y] => simp
      | 0, [x, y, z] => simp
      | 0, x :: y :: z :: w :: b => exact (h2 x y z w b rfl rfl).elim
    exact .again (search_carry hb h3 hlen hs f) fun _ => rfl

/-! ### The bytes that are kept -/

/-- Some bytes in front of a file make no string, or their end and the beginning of the file are `@(#)`. -/
theorem search_append_or {w : List UInt8} (hw : w.length ≤ 3) (f : List UInt8) :
    search (w ++ f) = search f ∨
      ∃ a p q, w = a ++ p ∧ p ≠ [] ∧ q ≠ [] ∧ p ++ q = [64, 40, 35, 41] ∧ q <+: f := by
  induction w with
  | nil => exact .inl rfl
  | cons x w ih =>
    rcases marker_or (x :: w ++ f) with ⟨r, hr⟩ | hno
    · refine .inr ⟨[], x :: w, [64, 40, 35, 41].drop (w.length + 1), rfl, List.cons_ne_nil _ _, ?_⟩
      match w with
      | [] =>
        simp only [List.cons_append, List.nil_append, List.cons.injEq] at hr
        obtain ⟨rfl, rfl⟩ := hr
        exact ⟨by decide, by decide, r, rfl⟩
      | [y] =>
        simp only [List.cons_append, List.nil_append, List.cons.injEq] at hr
        obtain ⟨rfl, rfl, rfl⟩ := hr
        exact ⟨by decide, by decide, r, rfl⟩
      | [y, z] =>
        simp only [List.cons_append, List.nil_append, List.cons.injEq] at hr
        obtain ⟨rfl, rfl, rfl, rfl⟩ := hr
        exact ⟨by decide, by decide, r, rfl⟩
      | _ :: _ :: _ :: _ =>
        simp only [List.length_cons] at hw
        omega
    · rcases ih (by simp at hw; omega) with h | ⟨a, p, q, rfl, h⟩
      · exact .inl ((search_cons hno).trans h)
      · exact .inr ⟨x :: a, p, q, rfl, h⟩

/-- There is nothing in three bytes. -/
theorem search_three {w : List UInt8} (hw : w.length ≤ 3) : search (w ++ []) = [] := by
  rcases search_append_or hw [] with h | ⟨a, p, q, -, -, hq, -, h⟩
  · exact h
  · exact absurd (List.prefix_nil.mp h) hq

/-- A beginning of `@(#)` has no closing parenthesis. -/
theorem not_mem_beginning {p q : List UInt8} (h : p ++ q = [64, 40, 35, 41]) (hq : q ≠ []) :
    41 ∉ p ∧ p.length ≤ 3 := by
  match p with
  | [] => simp
  | [x] => simp_all
  | [x, y] => simp_all
  | [x, y, z] => simp_all
  | x :: y :: z :: w :: p => simp_all

/-- What is kept of a block that ends in a string makes no string with what comes after it, unless the string is one that
is completed there, or what seems to begin there is printed as if it were wanted. -/
theorem search_kept {n : ℕ} {buf pre l f : List UInt8} (hb : buf = pre ++ 64 :: 40 :: 35 :: 41 :: l)
    (hlen : buf.length = n + 3) (hn : n ≤ bufferSize) (hl : ∀ x ∈ l, terminator x = false)
    (hc : ¬ Completed (l ++ f)) :
    search (buf.drop (buf.length - 3) ++ after (l ++ f)) = search (after (l ++ f)) ∨
      ∃ a p q g, buf.drop (buf.length - 3) = a ++ p ∧ p ≠ [] ∧ q ≠ [] ∧ p ++ q = [64, 40, 35, 41] ∧
        after (l ++ f) = q ++ g ∧ Lookalike g := by
  refine (search_append_or (by rw [List.length_drop]; omega) _).imp_right ?_
  rintro ⟨a, p, q, hp, hp0, hq0, hpq, g, hg⟩
  refine ⟨a, p, q, g, hp, hp0, hq0, hpq, hg.symm, ?_⟩
  obtain ⟨h41, -⟩ := not_mem_beginning hpq hq0
  have hpbuf : p <:+ buf := (hp ▸ List.suffix_append a p : p <:+ _).trans (List.drop_suffix _ _)
  have hlbuf : l <:+ buf := ⟨pre ++ [64, 40, 35, 41], by rw [hb]; simp⟩
  -- the beginning lies within the string, since the parenthesis before it is none of its characters
  have hpl : p <:+ l := by
    rcases List.suffix_or_suffix_of_suffix hpbuf hlbuf with h | ⟨p₁, rfl⟩
    · exact h
    · rcases List.eq_nil_or_concat p₁ with rfl | ⟨p₂, x, rfl⟩
      · exact List.suffix_refl _
      · obtain ⟨y, hy⟩ := hpbuf
        have hx : (y ++ p₂ ++ [x]) ++ l = (pre ++ [64, 40, 35] ++ [41]) ++ l := by
          rw [hb] at hy
          simpa using hy
        have hx := (List.append_inj' (List.append_cancel_right hx) rfl).2
        simp only [List.cons.injEq, and_true] at hx
        exact absurd (by simp [hx]) h41
  obtain ⟨u, rfl⟩ := hpl
  by_contra hno
  refine hc ⟨u, p, textOf f, q, g, textOf_append hl, hpq, hp0, hq0, ?_, hg.symm, hno⟩
  have := congrArg List.length hb
  simp only [List.length_append, List.length_cons] at this ⊢
  omega

/-! ### A string that is cut -/

/-- Anything but `@(#)` is passed over in a block, too. -/
theorem scanBuf_cons {one : Bool} {x : UInt8} {f l : List UInt8} (h : ∀ r, x :: l ≠ 64 :: 40 :: 35 :: 41 :: r) :
    scanBuf one f 0 (x :: l) = scanBuf one f 0 l := by
  match l with
  | [] => rfl
  | [b] => rfl
  | [b, c] => rfl
  | b :: c :: d :: l =>
    rw [scanBuf, if_neg]
    rintro ⟨rfl, rfl, rfl, rfl⟩
    exact h l rfl

/-- A block of one byte that ends no `@(#)`. -/
theorem scanBuf_other {one : Bool} {x y z w : UInt8} {f : List UInt8}
    (h : ∀ r, x :: y :: z :: w :: f ≠ 64 :: 40 :: 35 :: 41 :: r) : scanBuf one f 0 [x, y, z, w] = ([], .again f) := by
  rw [scanBuf_cons]
  · rfl
  · intro r hr
    simp only [List.cons.injEq] at hr
    obtain ⟨rfl, rfl, rfl, rfl, -⟩ := hr
    exact h f rfl

/-- A block that only has a beginning of `@(#)`, at its end. -/
theorem scanBuf_part {one : Bool} {a p q f : List UInt8} (ha : a.length ≤ 2) (hpq : p ++ q = [64, 40, 35, 41])
    (hq : q ≠ []) : scanBuf one f 0 (a ++ p) = ([], .again f) := by
  have hno : ∀ b, b <:+ a ++ p → ∀ r, b ≠ 64 :: 40 :: 35 :: 41 :: r := by
    rintro b ⟨u, hu⟩ r rfl
    have hsplit : (u ++ [64, 40, 35]) ++ 41 :: r = a ++ p := by simpa using hu
    rcases List.append_eq_append_iff.mp hsplit with ⟨s, hs, -⟩ | ⟨s, -, hs⟩
    · have := congrArg List.length hs
      simp only [List.length_append, List.length_cons, List.length_nil] at this
      omega
    · exact (not_mem_beginning hpq hq).1 (by simp [hs])
  generalize a ++ p = b at hno
  induction b with
  | nil => rfl
  | cons x b ih =>
    rw [scanBuf_cons (hno _ List.suffix_rfl)]
    exact ih fun b' hb' => hno b' (hb'.trans (List.suffix_cons x b))

/-- A block that has `@(#)` right after the bytes kept. -/
theorem scanBuf_at {one : Bool} {a f l : List UInt8} (ha : a.length ≤ 2) :
    scanBuf one f 0 (a ++ 64 :: 40 :: 35 :: 41 :: l) = scanBuf one f 0 (64 :: 40 :: 35 :: 41 :: l) := by
  match a with
  | [] => rfl
  | [x] => exact scanBuf_cons (by simp)
  | [x, y] => exact (scanBuf_cons (by simp)).trans (scanBuf_cons (by simp))

/-- Characters in front of what is left of the buffer. -/
theorem printWhat_append {t : List UInt8} (ht : ∀ x ∈ t, terminator x = false) (s f : List UInt8) :
    printWhat (t ++ s) f = (t ++ (printWhat s f).1, (printWhat s f).2) := by
  induction t with
  | nil => rfl
  | cons c t ih =>
    obtain ⟨hc, ht⟩ := List.forall_mem_cons.mp ht
    rw [List.cons_append, printWhat, hc, ih ht]
    rfl

/-- A byte that looks like the end of the file. -/
theorem getcLoop_append {t : List UInt8} (ht : ∀ x ∈ t, terminator x = false ∧ x ≠ 255) (f : List UInt8) :
    getcLoop (t ++ f) = (t ++ (getcLoop f).1, (getcLoop f).2) := by
  induction t with
  | nil => rfl
  | cons c t ih =>
    obtain ⟨⟨hc, h255⟩, ht⟩ := List.forall_mem_cons.mp ht
    rw [List.cons_append, getcLoop, if_neg h255, hc, ih ht]
    rfl

/-- A string with such a byte: what is in front of the byte. -/
theorem exists_cut {g : List UInt8} (h : 255 ∈ textOf g) :
    ∃ t g', g = t ++ 255 :: g' ∧ (∀ x ∈ t, terminator x = false ∧ x ≠ 255) ∧ (textOf g).takeWhile (· ≠ 255) = t := by
  obtain ⟨t, r, hsplit, h255⟩ := List.eq_append_cons_of_mem h
  have ht : ∀ x ∈ t, terminator x = false ∧ x ≠ 255 := by
    refine fun x hx => ⟨?_, fun h => h255 (h ▸ hx)⟩
    have hmem : x ∈ textOf g := hsplit ▸ List.mem_append_left _ hx
    simpa using List.mem_takeWhile_imp hmem
  refine ⟨t, r ++ g.dropWhile (!terminator ·), ?_, ht, ?_⟩
  · calc g = textOf g ++ g.dropWhile (!terminator ·) := List.takeWhile_append_dropWhile.symm
      _ = t ++ 255 :: (r ++ g.dropWhile (!terminator ·)) := by rw [hsplit, List.append_assoc, List.cons_append]
  · rw [hsplit, List.takeWhile_append_of_pos fun x hx => by simpa using (ht x hx).2]
    simp

theorem length_buf {n : ℕ} {carry f : List UInt8} (hcarry : carry.length = 3) (hf : n ≤ f.length) :
    (carry ++ f.take n).length = n + 3 := by
  rw [List.length_append, List.length_take, hcarry]
  omega

theorem length_kept {n : ℕ} {carry f : List UInt8} (hcarry : carry.length = 3) (hf : n ≤ f.length) :
    ((carry ++ f.take n).drop n).length = 3 := by
  rw [List.length_drop, length_buf hcarry hf]
  omega

/-- What a block does: nothing, if it does not have all of `@(#)`, and else the string is cut. -/
theorem scanBuf_cut {n : ℕ} {a p q t g : List UInt8} (h3 : (a ++ p).length = 3) (hpq : p ++ q = [64, 40, 35, 41])
    (hp : p ≠ []) (hq : q ≠ []) (hn : n ≤ bufferSize) (ht : ∀ x ∈ t, terminator x = false ∧ x ≠ 255)
    (hfar : bufferSize ≤ t.length + 1) :
    n < q.length ∧ scanBuf false ((q ++ (t ++ 255 :: g)).drop n) 0 (a ++ p ++ (q ++ (t ++ 255 :: g)).take n) =
        ([], .again ((q ++ (t ++ 255 :: g)).drop n)) ∨
      ∃ o : Occurrence, o.text = t ∧
        scanBuf false ((q ++ (t ++ 255 :: g)).drop n) 0 (a ++ p ++ (q ++ (t ++ 255 :: g)).take n) = ([o], .done) := by
  have ha : a.length ≤ 2 := by
    have := List.length_pos_iff.mpr hp
    rw [List.length_append] at h3
    omega
  rcases Nat.lt_or_ge n q.length with hnq | hnq
  · refine .inl ⟨hnq, ?_⟩
    rw [List.take_append_of_le_length hnq.le, List.append_assoc a p]
    have hrest : p ++ q.take n ++ q.drop n = [64, 40, 35, 41] := by rw [List.append_assoc, List.take_append_drop, hpq]
    exact scanBuf_part ha hrest (by simpa using hnq)
  · obtain ⟨m, rfl⟩ := Nat.exists_eq_add_of_le hnq
    have hm : m ≤ t.length := by
      have := List.length_pos_iff.mpr hq
      omega
    have hbuf : a ++ p ++ (q ++ (t ++ 255 :: g)).take (q.length + m) = a ++ 64 :: 40 :: 35 :: 41 :: t.take m := by
      rw [List.take_length_add_append, List.take_append_of_le_length hm, List.append_assoc a p, ← List.append_assoc p,
        hpq]
      rfl
    have hrest : (q ++ (t ++ 255 :: g)).drop (q.length + m) = t.drop m ++ 255 :: g := by
      rw [List.drop_length_add_append, List.drop_append_of_le_length hm]
    have hprint : printWhat (t.take m) (t.drop m ++ 255 :: g) = (t, .atEof) := by
      have hloop := getcLoop_append (t := t.drop m) (fun x hx => ht x (List.mem_of_mem_drop hx)) (255 :: g)
      have htake := printWhat_append (t := t.take m) (fun x hx => (ht x (List.mem_of_mem_take hx)).1) []
        (t.drop m ++ 255 :: g)
      rw [List.append_nil] at htake
      rw [htake, printWhat, hloop]
      simp [getcLoop]
    refine .inr ⟨⟨t.take m ++ (t.drop m ++ 255 :: g), t⟩, rfl, ?_⟩
    rw [hbuf, hrest, scanBuf_at ha, scanBuf, if_pos ⟨rfl, rfl, rfl, rfl⟩, hprint]

/-- **A string that looks like the one that is wanted is all that is printed**, wherever the blocks end. -/
theorem run_lookalike {carry f a p q g : List UInt8} {out : List Occurrence} (h : Run false carry f out)
    (hcarry : carry.length = 3) (ha : carry = a ++ p) (hf : f = q ++ g) (hpq : p ++ q = [64, 40, 35, 41]) (hp : p ≠ [])
    (hq : q ≠ []) (hg : Lookalike g) : out.map Occurrence.text = [(textOf g).takeWhile (· ≠ 255)] := by
  obtain ⟨h255, hfar, -⟩ := hg
  obtain ⟨t, g', rfl, ht, htext⟩ := exists_cut h255
  rw [htext] at hfar ⊢
  induction h generalizing a p q with
  | eof carry =>
    exact absurd (List.append_eq_nil_iff.mp hf.symm).1 hq
  | @last n carry f out h0 hf' hs h =>
    subst ha hf
    rcases scanBuf_cut (g := g') hcarry hpq hp hq hs ht hfar with ⟨-, hscan⟩ | ⟨o, ho, hscan⟩
    · cases hscan.symm.trans h
    · cases hscan.symm.trans h
      rw [List.map_singleton, ho]
  | @more n carry f f' out out' h0 hf' hs h hr ih =>
    subst ha hf
    rcases scanBuf_cut (g := g') hcarry hpq hp hq hs ht hfar with ⟨hn, hscan⟩ | ⟨o, ho, hscan⟩
    · cases hscan.symm.trans h
      have hna : n ≤ a.length := by
        have := congrArg List.length hpq
        simp only [List.length_append, List.length_cons, List.length_nil] at hcarry this
        omega
      rw [List.nil_append]
      apply ih (length_kept hcarry hf') (a := a.drop n) (p := p ++ q.take n) (q := q.drop n)
      · rw [List.take_append_of_le_length hn.le, List.append_assoc, List.drop_append_of_le_length hna]
      · rw [List.append_assoc, List.take_append_drop, hpq]
      · simp [hp]
      · simpa using hn
      · rw [List.drop_append_of_le_length hn.le]
    · cases hscan.symm.trans h

/-! ### Good strings are found -/

/-- What is found in the block that is read next. -/
theorem block_spec {one : Bool} {n : ℕ} {carry f : List UInt8} {out : List Occurrence} {e : BlockEnd}
    (hcarry : carry.length = 3) (h : scanBuf one (f.drop n) 0 (carry ++ f.take n) = (out, e)) :
    Scanned one (carry ++ f.take n) (f.drop n) (search (carry ++ f)) out e := by
  have h3 : 3 ≤ (carry ++ f.take n).length := by
    rw [List.length_append]
    omega
  have := scanBuf_spec (p := []) h rfl h3 (.inl h3)
  rwa [List.drop_zero, List.append_assoc, List.take_append_drop] at this

/-- If all the strings that are wanted are good, they are printed. -/
theorem run_right {one : Bool} {carry f : List UInt8} {out : List Occurrence} (h : Run one carry f out)
    (hcarry : carry.length = 3) (hgood : ∀ o ∈ limit one (search (carry ++ f)), Good one o) :
    out.map Occurrence.text = (limit one (search (carry ++ f))).map Occurrence.text := by
  induction h with
  | eof carry =>
    rw [search_three hcarry.le, limit]
    split <;> rfl
  | @last n carry f out h0 hf hs h =>
    cases block_spec hcarry h with
    | @done out' rest o o' ho hfound hstart hgood' h1 =>
      rw [hfound] at hgood ⊢
      cases one with
      | true =>
        obtain rfl := h1 rfl
        obtain ⟨rfl, -⟩ := hgood' (hgood o' (by simp [limit])).no_eof
        rw [ho]
        rfl
      | false =>
        obtain ⟨rfl, hrest⟩ := hgood' (hgood o' (by simp [limit])).no_eof
        rw [ho, hrest rfl]
        rfl
  | @more n carry f f' out out' h0 hf hs h hr ih =>
    have hkept : (carry ++ f.take n).length - 3 = n := by
      rw [length_buf hcarry hf]
      omega
    have ih := ih (length_kept hcarry hf)
    cases block_spec hcarry h with
    | again hfound h1 =>
      rw [hkept] at hfound
      rw [hfound] at hgood ⊢
      cases one with
      | true =>
        obtain rfl := h1 rfl
        exact ih hgood
      | false =>
        simp only [limit, Bool.false_eq_true, if_false, List.map_append] at ih hgood ⊢
        rw [ih fun o ho => hgood o (List.mem_append_right _ ho)]
    | @crossed out₁ pre l hb hl ho hlen hfound h1 =>
      subst h1
      rw [hfound] at hgood ⊢
      simp only [limit, Bool.false_eq_true, if_false, List.map_append] at ih hgood ⊢
      have hc : ¬ Completed (l ++ f.drop n) := by
        refine (hgood ⟨l ++ f.drop n, textOf (l ++ f.drop n)⟩ ?_).not_completed rfl
        rw [ho]
        simp
      -- nothing is found in what was kept of the string, or something that looks like the string after it
      rcases search_kept hb (length_buf hcarry hf) hs hl hc with hsame | ⟨a, p, q, g, hap, hp, hq, hpq, hrest, hg⟩
      · rw [hkept] at hsame
        rw [hsame] at ih
        rw [ih fun o ho => hgood o (List.mem_append_right _ ho)]
      · rw [hkept] at hap
        rw [run_lookalike hr (length_kept hcarry hf) hap hrest hpq hp hq hg, hrest, search_rest hpq hp, hg.2.2]

/-! ### Only good strings are found -/

/-- No block makes the rest of the file longer. -/
theorem length_of_again {one : Bool} {buf f f' : List UInt8} {found out : List Occurrence}
    (h : Scanned one buf f found out (.again f')) : f'.length ≤ f.length := by
  cases h with
  | again => exact le_rfl
  | crossed hb hl ho hlen => exact hlen.le

/-- The loop over the blocks ends. -/
theorem exists_run (one : Bool) {carry f : List UInt8} (hcarry : carry.length = 3) : ∃ out, Run one carry f out := by
  induction hn : f.length using Nat.strong_induction_on generalizing carry f with
  | _ m ih =>
    cases f with
    | nil => exact ⟨[], .eof carry⟩
    | cons w f =>
      have hf : 1 ≤ (w :: f).length := by simp
      cases h : scanBuf one ((w :: f).drop 1) 0 (carry ++ (w :: f).take 1) with
      | mk out e =>
        cases e with
        | done => exact ⟨out, .last (by decide) hf (by decide) h⟩
        | again f' =>
          have hlen := length_of_again (block_spec hcarry h)
          simp only [List.drop_succ_cons, List.drop_zero] at hlen
          obtain ⟨out', hr⟩ := ih f'.length (by rw [← hn, List.length_cons]; omega) (length_kept hcarry hf) rfl
          exact ⟨out ++ out', .more (by decide) hf (by decide) h hr⟩


/-- A block that ends within a string. -/
theorem scanBuf_string {l f f' : List UInt8} (hl : ∀ c ∈ l, terminator c = false)
    (hf : getcLoop f = (textOf f, some f')) :
    scanBuf false f 0 (64 :: 40 :: 35 :: 41 :: l) = ([⟨l ++ f, textOf (l ++ f)⟩], .again f') := by
  have hw : printWhat l f = (textOf (l ++ f), .beyond f') := by
    induction l with
    | nil => rw [printWhat, hf]; rfl
    | cons c l ih =>
      have hc := hl c List.mem_cons_self
      have ih := ih fun d hd => hl d (List.mem_cons_of_mem _ hd)
      rw [printWhat, hc, ih]
      simp [textOf, hc]
  rw [scanBuf, if_pos ⟨rfl, rfl, rfl, rfl⟩, hw]
  rfl

/-- Without a byte that looks like the end of the file, the characters up to the terminator are read. -/
theorem getcLoop_eq {f : List UInt8} (h : 255 ∉ textOf f) :
    getcLoop f = (textOf f, none) ∧ after f = [] ∨ getcLoop f = (textOf f, some (after f)) := by
  cases hg : getcLoop f with
  | mk t r =>
    cases r with
    | some g =>
      obtain ⟨c, rfl, hc, ht⟩ := getcLoop_some hg
      have ht := fun x hx => (ht x hx).1
      refine .inr ?_
      rw [textOf_append ht, after_append ht, textOf_terminator hc, after_terminator hc, List.append_nil]
    | none =>
      obtain ⟨ht, hf⟩ := getcLoop_none hg
      have ht := fun x hx => (ht x hx).1
      rcases hf with rfl | ⟨g, rfl⟩
      · have htext := textOf_append (l := []) ht
        have hafter := after_append (l := []) ht
        rw [List.append_nil] at htext hafter
        refine .inl ⟨?_, hafter⟩
        rw [htext]
        exact congrArg (·, none) (List.append_nil _).symm
      · rw [textOf_append ht] at h
        have h255 : textOf (255 :: g) = 255 :: textOf g := rfl
        simp [h255] at h

/-- A string that is cut short. -/
theorem scanBuf_eof {one : Bool} {f t : List UInt8} (h : getcLoop f = (t, none)) :
    scanBuf one f 0 [64, 40, 35, 41] = ([⟨f, t⟩], .done) := by
  have hw : printWhat [] f = (t, .atEof) := by rw [printWhat, h]; rfl
  rw [scanBuf, if_pos ⟨rfl, rfl, rfl, rfl⟩, hw]
  rfl

/-- With a block that ends right after its `@(#)`, a string with a byte that looks like the end of the file is cut. -/
theorem no_eof_of_right {one : Bool} {f : List UInt8} {rest : List Occurrence}
    (h : ∀ out, Run one [64, 40, 35] (41 :: f) out →
      out.map Occurrence.text = (limit one (⟨f, textOf f⟩ :: rest)).map Occurrence.text) : 255 ∉ textOf f := by
  intro h255
  cases hg : getcLoop f with
  | mk t r =>
    cases r with
    | some g =>
      obtain ⟨c, rfl, hc, ht⟩ := getcLoop_some hg
      rw [textOf_append fun x hx => (ht x hx).1, textOf_terminator hc, List.append_nil] at h255
      exact (ht 255 h255).2 rfl
    | none =>
      have hout := h _ (.last (n := 1) (by decide) (by simp) (by decide) (scanBuf_eof hg))
      have htext : t = textOf f := by
        cases one <;> simpa [limit] using congrArg List.head? hout
      exact ((getcLoop_none hg).1 255 (htext ▸ h255)).2 rfl

/-- The blocks may end so that the bytes kept are the beginning of `@(#)`. -/
theorem run_beginning {a p q g : List UInt8} {out : List Occurrence} (h3 : (a ++ p).length = 3)
    (hpq : p ++ q = [64, 40, 35, 41]) (hp : p ≠ []) (hq : q ≠ []) (h : Run false [64, 40, 35] (41 :: g) out) :
    Run false (a ++ p) (q ++ g) out := by
  obtain ⟨r, rfl⟩ : ∃ r, q = r ++ [41] := by
    refine ⟨q.dropLast, ?_⟩
    have hlast := congrArg List.getLast? hpq
    rw [List.getLast?_append_of_ne_nil _ hq] at hlast
    exact (List.dropLast_append_getLast? _ hlast).symm
  have hpr : p ++ r = [64, 40, 35] := by
    have := congrArg List.dropLast hpq
    simpa [← List.append_assoc] using this
  have hlen : p.length + r.length = 3 := by simpa using congrArg List.length hpr
  have ha : a.length = r.length := by
    rw [List.length_append] at h3
    omega
  have htake : (r ++ [41] ++ g).take r.length = r := by rw [List.append_assoc, List.take_left]
  have hdrop : (r ++ [41] ++ g).drop r.length = 41 :: g := by
    rw [List.append_assoc, List.drop_left]
    rfl
  have hkept : (a ++ p ++ r).drop r.length = [64, 40, 35] := by rw [List.append_assoc, ← ha, List.drop_left, hpr]
  by_cases h0 : r = []
  · rw [h0, List.append_nil, List.length_nil, List.drop_zero] at hkept
    rw [h0, hkept]
    exact h
  · have hscan : scanBuf false (41 :: g) 0 (a ++ p ++ r) = ([], .again (41 :: g)) := by
      rw [List.append_assoc]
      have hpos := List.length_pos_iff.mpr hp
      have ha2 : a.length ≤ 2 := by omega
      exact scanBuf_part (q := [41]) ha2 (by rw [hpr]; rfl) (by simp)
    have hsize : r.length ≤ bufferSize := (by omega : r.length ≤ 3).trans (by decide)
    refine @Run.more false r.length (a ++ p) _ (41 :: g) [] out (List.length_pos_iff.mpr h0) ?_ hsize ?_ ?_
    · simp
    · rw [htake, hdrop, hscan]
    · rwa [htake, hkept]

/-- A block that goes on to behind a byte that looks like the end of the file prints it. -/
theorem exists_run_beyond {t : List UInt8} (ht : ∀ x ∈ t, terminator x = false) (hnear : t.length + 2 ≤ bufferSize)
    (g : List UInt8) :
    ∃ o rest, o.text = t ++ [255] ++ (getcLoop g).1 ∧ Run false [64, 40, 35] (41 :: (t ++ 255 :: g)) (o :: rest) := by
  have hn : t.length + 2 ≤ (41 :: (t ++ 255 :: g)).length := by
    simp only [List.length_cons, List.length_append]
    omega
  have hbuf : [64, 40, 35] ++ (41 :: (t ++ 255 :: g)).take (t.length + 2) = 64 :: 40 :: 35 :: 41 :: (t ++ [255]) := by
    rw [List.take_succ_cons, List.take_length_add_append]
    rfl
  have hrest : (41 :: (t ++ 255 :: g)).drop (t.length + 2) = g := by
    rw [List.drop_succ_cons, List.drop_length_add_append]
    rfl
  have ht' : ∀ x ∈ t ++ [255], terminator x = false := by
    refine List.forall_mem_append.mpr ⟨ht, ?_⟩
    simp [terminator]
  have hprint := printWhat_append ht' [] g
  rw [List.append_nil, printWhat] at hprint
  cases hloop : (getcLoop g).2 with
  | none =>
    rw [hloop] at hprint
    refine ⟨⟨t ++ [255] ++ g, _⟩, [], rfl, .last (by omega) hn hnear ?_⟩
    rw [hbuf, hrest, scanBuf, if_pos ⟨rfl, rfl, rfl, rfl⟩, hprint]
    rfl
  | some f =>
    rw [hloop] at hprint
    obtain ⟨rest, hr⟩ := exists_run false (f := f) (length_kept (rfl : ([64, 40, 35] : List UInt8).length = 3) hn)
    have hscan : scanBuf false ((41 :: (t ++ 255 :: g)).drop (t.length + 2)) 0
        ([64, 40, 35] ++ (41 :: (t ++ 255 :: g)).take (t.length + 2)) =
          ([⟨t ++ [255] ++ g, t ++ [255] ++ (getcLoop g).1⟩], .again f) := by
      rw [hbuf, hrest, scanBuf, if_pos ⟨rfl, rfl, rfl, rfl⟩, hprint]
      rfl
    exact ⟨⟨t ++ [255] ++ g, _⟩, rest, rfl, .more (by omega) hn hnear hscan hr⟩

/-- A string found by mistake that ends at a terminator is one string too many. -/
theorem noticed_of_terminator {g g' t : List UInt8} (hread : getcLoop g = (t, some g'))
    (hgood : ∀ o ∈ search g, Good false o) :
    ∃ out, Run false [64, 40, 35] (41 :: g) out ∧ out.map Occurrence.text ≠ (search g).map Occurrence.text := by
  obtain ⟨c, hsplit, hc, ht⟩ := getcLoop_some hread
  have ht := fun x hx => (ht x hx).1
  have htext : textOf g = t := by rw [hsplit, textOf_append ht, textOf_terminator hc, List.append_nil]
  have hafter : after g = g' := by rw [hsplit, after_append ht, after_terminator hc]
  have hscan := scanBuf_string (l := []) (by simp) (htext ▸ hread : getcLoop g = (textOf g, some g'))
  have h1 : 1 ≤ (41 :: g).length := by simp
  obtain ⟨out, hr⟩ := exists_run false (f := g') (length_kept (rfl : ([64, 40, 35] : List UInt8).length = 3) h1)
  refine ⟨_, .more (n := 1) (by decide) h1 (by decide) hscan hr, fun hout => ?_⟩
  rcases search_or g with hsame | ⟨o, rest, ho, hlt⟩
  · -- the others are printed all the same
    rw [hafter] at hsame
    have hkept : search ([40, 35, 41] ++ g') = search g := (search_rest (p := [64]) rfl (by simp) g').trans hsame.symm
    have hright : out.map Occurrence.text = (search ([40, 35, 41] ++ g')).map Occurrence.text :=
      run_right hr rfl fun o ho => hgood o (hkept ▸ ho)
    rw [List.map_append, hright, hkept] at hout
    have := congrArg List.length hout
    simp at this
  · have hfirst := congrArg List.head? hout
    simp only [ho, List.map_cons, List.singleton_append, List.head?_cons, Option.some.injEq, List.nil_append] at hfirst
    exact absurd (congrArg List.length hfirst) hlt.ne'

/-- One that goes to the end of the file is not wanted. -/
theorem noticed_of_end {g : List UInt8} (ht : ∀ x ∈ g, terminator x = false) :
    (search g).map Occurrence.text ≠ [g] := by
  have htext : textOf g = g := by simpa [textOf] using textOf_append (l := []) ht
  have hafter : after g = [] := by simpa [after] using after_append (l := []) ht
  rcases search_or g with hsame | ⟨o, rest, ho, hlt⟩
  · rw [hsame, hafter, search_nil]
    nofun
  · rw [ho, List.map_cons]
    intro hfirst
    rw [htext, (List.cons.inj hfirst).1] at hlt
    exact absurd hlt (lt_irrefl _)

/-- **What seems to begin after a string is not noticed only if it looks like the string that is wanted.** -/
theorem lookalike_of_right {g : List UInt8} (hgood : ∀ o ∈ search g, Good false o)
    (h : ∀ out, Run false [64, 40, 35] (41 :: g) out → out.map Occurrence.text = (search g).map Occurrence.text) :
    Lookalike g := by
  -- read in blocks that end with the `@(#)`, the string is printed up to a terminator, to the end of the file or to a
  -- byte that looks like it
  cases hread : getcLoop g with
  | mk t r =>
    cases r with
    | some g' =>
      obtain ⟨out, hr, hout⟩ := noticed_of_terminator hread hgood
      exact absurd (h out hr) hout
    | none =>
      have hout := h _ (.last (n := 1) (by decide) (by simp) (by decide) (scanBuf_eof hread))
      obtain ⟨ht, rfl | ⟨g', rfl⟩⟩ := getcLoop_none hread
      · exact absurd hout.symm (noticed_of_end fun x hx => (ht x hx).1)
      · have htext : textOf (t ++ 255 :: g') = t ++ 255 :: textOf g' := textOf_append fun x hx => (ht x hx).1
        have hcut : (textOf (t ++ 255 :: g')).takeWhile (· ≠ 255) = t := by
          rw [htext, List.takeWhile_append_of_pos fun x hx => by simpa using (ht x hx).2]
          simp
        refine ⟨by simp [htext], ?_, by rw [hcut]; exact hout.symm⟩
        rw [hcut]
        by_contra hnear
        -- a block that has the byte prints it
        obtain ⟨o, rest, ho, hr⟩ := exists_run_beyond (fun x hx => (ht x hx).1) (by omega) g'
        have hfirst := congrArg List.head? ((h _ hr).trans hout.symm)
        simp only [List.map_cons, List.head?_cons, Option.some.injEq, ho] at hfirst
        have := congrArg List.length hfirst
        simp at this

/-- With a block that ends in it, a string that is completed after its terminator is followed by one that is not
wanted. -/
theorem not_completed_of_right {f : List UInt8} (h255 : 255 ∉ textOf f) (hgood : ∀ o ∈ search (after f), Good false o)
    (h : ∀ out, Run false [64, 40, 35] (41 :: f) out →
      out.map Occurrence.text = textOf f :: (search (after f)).map Occurrence.text) : ¬ Completed f := by
  rintro ⟨u, p, v, q, g, htext, hpq, hp, hq, hlen, hg, hno⟩
  -- the block ends after the beginning of `@(#)`
  obtain ⟨r, hfr⟩ : ∃ r, f = u ++ p ++ r := by
    refine ⟨v ++ f.dropWhile (!terminator ·), ?_⟩
    rw [← List.append_assoc, ← htext]
    exact (List.takeWhile_append_dropWhile).symm
  have hl : ∀ c ∈ u ++ p, terminator c = false := by
    intro c hc
    have hmem : c ∈ textOf f := htext ▸ List.mem_append_left _ hc
    simpa using List.mem_takeWhile_imp hmem
  have htextr : textOf f = u ++ p ++ textOf r := by rw [hfr, textOf_append hl]
  have hafter : after f = after r := by rw [hfr, after_append hl]
  have hread : getcLoop r = (textOf r, some (after f)) := by
    rcases getcLoop_eq (f := r) fun h => h255 (htextr ▸ List.mem_append_right _ h) with ⟨-, h⟩ | h
    · rw [hafter, h] at hg
      exact absurd (List.append_eq_nil_iff.mp hg.symm).1 hq
    · rw [h, hafter]
  have hscan := scanBuf_string hl hread
  have hn : (u ++ p).length + 1 ≤ (41 :: f).length := by
    rw [hfr]
    simp
  have htake : [64, 40, 35] ++ (41 :: f).take ((u ++ p).length + 1) = 64 :: 40 :: 35 :: 41 :: (u ++ p) := by
    rw [hfr, List.take_succ_cons, List.take_left' rfl]
    rfl
  have hdrop : (41 :: f).drop ((u ++ p).length + 1) = r := by
    rw [hfr, List.drop_succ_cons, List.drop_left' rfl]
  have hp3 := (not_mem_beginning hpq hq).2
  obtain ⟨a, ha⟩ : ∃ a, (64 :: 40 :: 35 :: 41 :: (u ++ p)).drop ((u ++ p).length + 1) = a ++ p := by
    refine ⟨([64, 40, 35, 41] ++ u).drop ((u ++ p).length + 1), ?_⟩
    have hsplit : 64 :: 40 :: 35 :: 41 :: (u ++ p) = ([64, 40, 35, 41] ++ u) ++ p := rfl
    have hle : (u ++ p).length + 1 ≤ ([64, 40, 35, 41] ++ u).length := by
      simp only [List.length_append, List.length_cons, List.length_nil]
      omega
    rw [hsplit, List.drop_append_of_le_length hle]
  have h3 : (a ++ p).length = 3 := by
    rw [← ha, ← htake]
    exact length_kept rfl hn
  have hsearch : search (after f) = search g := by rw [hg, search_rest hpq hp]
  refine hno (lookalike_of_right (hsearch ▸ hgood) fun out hr => ?_)
  have hout := h _ (.more (n := (u ++ p).length + 1) (by omega) hn (by omega) (by rw [htake, hdrop]; exact hscan) (by
    rw [htake, ha, hg]
    exact run_beginning h3 hpq hp hq hr))
  rw [hsearch] at hout
  exact (List.cons.inj hout).2

/-- If all the runs print what is wanted, the strings that are wanted are good. -/
theorem good_of_right {one : Bool} {x y z : UInt8} {f : List UInt8}
    (h : ∀ out, Run one [x, y, z] f out →
      out.map Occurrence.text = (limit one (search (x :: y :: z :: f))).map Occurrence.text) :
    ∀ o ∈ limit one (search (x :: y :: z :: f)), Good one o := by
  induction hn : f.length using Nat.strong_induction_on generalizing x y z f with
  | _ m ih =>
    cases f with
    | nil =>
      rw [show search [x, y, z] = [] from search_three (w := [x, y, z]) le_rfl]
      cases one <;> nofun
    | cons w f =>
      have hf : 1 ≤ (w :: f).length := by simp
      rcases marker_or (x :: y :: z :: w :: f) with ⟨r, hr⟩ | hno
      · simp only [List.cons.injEq] at hr
        obtain ⟨rfl, rfl, rfl, rfl, rfl⟩ := hr
        rw [search_string] at h ⊢
        have h255 := no_eof_of_right h
        cases one with
        | true =>
          refine List.forall_mem_singleton.mpr ⟨h255, nofun⟩
        | false =>
          -- the other strings, after a block that ends right before this one
          have hrest : ∀ o ∈ search (after f), Good false o := by
            have hsame : search (40 :: 35 :: 41 :: after f) = search (after f) :=
              search_rest (p := [64]) (q := [40, 35, 41]) rfl (by simp) _
            rcases getcLoop_eq h255 with ⟨-, ha⟩ | hread
            · rw [ha]
              nofun
            · have hscan := scanBuf_string (l := []) (by simp) hread
              have hlen : (after f).length < f.length := by
                obtain ⟨c, hc, -⟩ := getcLoop_some hread
                conv_rhs => rw [hc]
                simp
                omega
              rw [← hsame]
              refine ih (after f).length (by rw [← hn, List.length_cons]; omega) (fun out hr => ?_) rfl
              have hout := h _ (@Run.more false 1 [64, 40, 35] (41 :: f) (after f) _ out (by decide) hf (by decide) hscan hr)
              rw [hsame]
              exact (List.cons.inj hout).2
          exact List.forall_mem_cons.mpr ⟨⟨h255, fun _ => not_completed_of_right h255 hrest h⟩, hrest⟩
      · rw [search_cons hno] at h ⊢
        refine ih f.length (by rw [← hn, List.length_cons]; omega) (fun out hr => h _ ?_) rfl
        exact @Run.more one 1 [x, y, z] (w :: f) f [] out (by decide) hf (by decide) (scanBuf_other hno) hr

/-! ### `what` -/

theorem search_nul (f : List UInt8) : search ([0, 0, 0] ++ f) = search f := by
  have h : ∀ {l : List UInt8}, search (0 :: l) = search l := search_cons (by simp)
  exact h.trans (h.trans h)

/-- `what` prints the strings of a file whatever the blocks are that it reads it in, exactly when all those that are
wanted are good. -/
theorem what_right_iff (one : Bool) (content : List UInt8) :
    (∀ out, What one content out → out.map Occurrence.text = (limit one (search content)).map Occurrence.text) ↔
      ∀ o ∈ limit one (search content), Good one o := by
  rw [← search_nul content]
  exact ⟨good_of_right, fun h out hr => run_right hr rfl h⟩

/-- The byte 255 ends a string when it is read by itself. -/
theorem what_cut : ∃ out, What false [64, 40, 35, 41, 97, 255, 98, 10] out ∧
    out.map Occurrence.text ≠ (search [64, 40, 35, 41, 97, 255, 98, 10]).map Occurrence.text :=
  ⟨_, .last (n := 4) (by decide) (by decide) (by decide) rfl, by decide⟩

/-- The end of a string and what comes after its terminator are taken for `@(#)`. -/
example : ∃ out, What false [64, 40, 35, 41, 97, 64, 10, 40, 35, 41, 98, 10] out ∧
    out.map Occurrence.text = [[97, 64], [98]] ∧
      (search [64, 40, 35, 41, 97, 64, 10, 40, 35, 41, 98, 10]).map Occurrence.text = [[97, 64]] :=
  ⟨_, .more (n := 6) (by decide) (by decide) (by decide) rfl
    (.more (n := 5) (by decide) (by decide) (by decide) rfl (.eof _)), by decide, by decide⟩

end CSSC.Commands
