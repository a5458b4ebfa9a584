import CSSC.Lines.Encoding
import CSSC.Body.Accepted

/-!
# Storing a file as the first delta

`body_insert` copies a file into the body of a new history file. It tries to store it as text, and when that fails
part-way it takes back what was written, puts what is left of the input behind it, and writes all of it encoded over
the same place.

A `Stream` is a file that is open for reading and writing, cut at its position; the input is only read, so that it is
just the bytes that are left. `insertText` is `body_insert_text`, one character after the other, where columns are
natural numbers; `encodeStream` is the loop of `encode_stream`, which encodes a whole file elsewhere. No read and no
write fails.

A refusal loses nothing: what was written and what is pushed back are the file (`insertText_result`). So the file can
still be stored encoded, and **what was stored is read back exactly when it was stored encoded or has no NUL**
(`get_after_create_iff`).
-/

namespace CSSC.Body

open CSSC.Lines CSSC.Lines.Encoding CSSC.Library.Weave

/-! ### A file that is written -/

/-- A file that is open for reading and writing. -/
structure Stream where
  /-- The bytes before the position. -/
  before : List UInt8
  /-- The bytes from the position on. -/
  after : List UInt8
  deriving DecidableEq, Repr

namespace Stream

/-- The whole file. -/
def contents (f : Stream) : List UInt8 := f.before ++ f.after

/-- `fputs`, `putc` and `fwrite`: bytes at the position are overwritten. -/
def write (f : Stream) (data : List UInt8) : Stream := ⟨f.before ++ data, f.after.drop data.length⟩

/-- `fgetpos`. -/
def tell (f : Stream) : ℕ := f.before.length

/-- `fsetpos`. -/
def seek (f : Stream) (pos : ℕ) : Stream := ⟨f.contents.take pos, f.contents.drop pos⟩

/-- Reading on to the end of the file: the bytes and the file afterwards. -/
def readAll (f : Stream) : List UInt8 × Stream := (f.after, ⟨f.contents, []⟩)

theorem write_write (f : Stream) (a b : List UInt8) : (f.write a).write b = f.write (a ++ b) := by
  simp [write]

/-- Going back to where the writing began leaves what was written after the position. -/
theorem seek_write (before data : List UInt8) :
    ((⟨before, []⟩ : Stream).write data).seek before.length = ⟨before, data⟩ := by
  simp [seek, write, contents]

end Stream

/-! ### Text -/

/-- `is_id_keyword_letter`: the search also finds the terminator. -/
def isIdKeywordLetter (ch : UInt8) : Bool :=
  ch = 0 || ch ∈ "MIRLBSDHTEGUYFPQCZWA".toList.map fun c => UInt8.ofNat c.toNat

/-- `check_id_keywords`. -/
def checkIdKeywords : List UInt8 → Bool
  | a :: b :: c :: r =>
    (a = 37 && b ≠ 0 && c = 37 && isIdKeywordLetter b) || checkIdKeywords (b :: c :: r)
  | _ => false

/-- `check_line_len`; a maximum of 0 means that there is none. -/
def checkLineLen (lenMax column : ℕ) : Bool := lenMax = 0 || column < lenMax

/-- The failures that mean `BodyIsBinary`. -/
inductive Refusal where
  /-- A line of the file starts with `^A`. -/
  | controlCharacterAtStartOfLine
  /-- A line of the file is too long. -/
  | bodyLineTooLong
  /-- The file does not end with a newline. -/
  | fileDoesNotEndWithNewline
  deriving DecidableEq, Repr

/-- The variables of `body_insert_text`. -/
structure TextState where
  /-- `last`. -/
  last : UInt8
  /-- `column`. -/
  column : ℕ
  /-- `nl`. -/
  lines : ℕ
  /-- `found_id`. -/
  idkw : Bool
  /-- The output file. -/
  out : Stream

/-- What `body_insert_text` leaves behind. -/
inductive TextResult where
  /-- The file is stored. -/
  | accepted (lines : ℕ) (idkw : Bool) (out : Stream)
  /-- The file is not text: the rest of the input, with the character that was pushed back, and the output file. -/
  | refused (code : Refusal) (rest : List UInt8) (out : Stream)

/-- A character is written. -/
def TextState.put (st : TextState) (ch : UInt8) (rest : List UInt8) (column : ℕ) : TextState where
  last := ch
  column := column
  lines := if ch = 10 then st.lines + 1 else st.lines
  idkw := st.idkw || (st.last = 37 && isIdKeywordLetter ch && rest.head? = some 37)
  out := st.out.write [ch]

/-- The loop of `body_insert_text`. The column grows by two with every character after a line's first. -/
def insertTextLoop (lenMax : ℕ) : TextState → List UInt8 → TextResult
  | st, [] => if st.last ≠ 10 then .refused .fileDoesNotEndWithNewline [] st.out else .accepted st.lines st.idkw st.out
  | st, ch :: rest =>
    if st.last = 10 then
      if ch = 1 then .refused .controlCharacterAtStartOfLine (ch :: rest) st.out
      else insertTextLoop lenMax (st.put ch rest 0) rest
    else if checkLineLen lenMax (st.column + 2) = true then
      insertTextLoop lenMax (st.put ch rest (st.column + 2)) rest
    else .refused .bodyLineTooLong (ch :: rest) st.out

/-- `body_insert_text`: after a failure the output file is rewound. -/
def insertText (lenMax : ℕ) (input : List UInt8) (out : Stream) : TextResult :=
  match insertTextLoop lenMax ⟨10, 0, 0, false, out⟩ input with
  | .accepted lines idkw out' => .accepted lines idkw out'
  | .refused code rest out' => .refused code rest (out'.seek out.tell)

/-! ### Encoded -/

/-- What is stored. -/
structure Inserted where
  /-- The output file. -/
  out : Stream
  /-- `*binary`: the file is encoded. -/
  binary : Bool
  /-- `*lines`. -/
  lines : ℕ
  /-- `*idkw`. -/
  idkw : Bool

/-- What `fread` gives, `n` bytes at a time. -/
def freads (n : ℕ) : ℕ → List UInt8 → List (List UInt8)
  | 0, _ => []
  | fuel + 1, f => if f = [] then [] else f.take n :: freads n fuel (f.drop n)

/-- `max_chunk`. -/
def maxChunk : ℕ := 45

/-- The pieces of a file that are encoded to a line each. -/
def chunks (f : List UInt8) : List (List UInt8) := freads maxChunk f.length f

/-- `body_insert_binary`. -/
def insertBinary (input : List UInt8) (out : Stream) : Inserted where
  out := (((chunks input).map encodeLine).foldl Stream.write out).write [32, 10]
  binary := true
  lines := (chunks input).length + 1
  idkw := (chunks input).any fun c => checkIdKeywords (encodeLine c)

/-- The loop of `encode_stream`: the line of nothing at the end of the file is the last one. -/
def encodeStreamLoop : ℕ → List UInt8 → Stream → Option Stream
  | 0, _, _ => none
  | fuel + 1, fin, fout =>
    let inbuf := fin.take maxChunk
    let fout' := fout.write (encodeLine inbuf)
    if inbuf = [] then some fout' else encodeStreamLoop fuel (fin.drop maxChunk) fout'

/-- `encode_stream`. -/
def encodeStream (fin : List UInt8) (fout : Stream) : Option Stream := encodeStreamLoop (fin.length + 1) fin fout

/-- `body_insert`. When the file is no text, a temporary file gets what was written of it and the rest of the
input, and is encoded over what was written. -/
def bodyInsert (allowed : Bool) (lenMax : ℕ) (binary : Bool) (input : List UInt8) (out : Stream) :
    Except Quit Inserted :=
  if binary then .ok (insertBinary input out)
  else
    match insertText lenMax input out with
    | .accepted lines idkw out' => .ok ⟨out', false, lines, idkw⟩
    | .refused _ rest out' =>
      if allowed = false then .error (.failure "body is binary and encoding is not allowed")
      else
        let recovered := out'.readAll
        .ok (insertBinary (recovered.1 ++ rest) (recovered.2.seek out'.tell))

/-- The body that `sccs_file::create` writes behind the header of a new file. -/
def createBody (allowed : Bool) (lenMax : ℕ) (binary : Bool) (input header : List UInt8) : Except Quit Inserted := do
  let r ← bodyInsert allowed lenMax binary input ((⟨header, []⟩ : Stream).write (insLine 1).stored)
  return { r with out := r.out.write (endLine 1).stored }

/-! ### Reading it -/

/-- `output_body_line_text` and `output_body_line_binary`. -/
def outputBodyLine (encoded : Bool) (l : Line) : Except Quit (List UInt8) :=
  if encoded then
    match decodeLine l.bytes with
    | none => .error .undefined
    | some data => .ok data
  else .ok l.stored

/-- The output of lines one after the other. -/
def outputBody (encoded : Bool) : List Line → Except Quit (List UInt8)
  | [] => .ok []
  | l :: ls => do
    let a ← outputBodyLine encoded l
    let r ← outputBody encoded ls
    return a ++ r

theorem outputBody_ne_diverges (encoded : Bool) (ls : List Line) : outputBody encoded ls ≠ .error .diverges := by
  induction ls with
  | nil => nofun
  | cons l ls ih =>
    refine bind_ne_diverges ?_ fun a _ => bind_ne_diverges ih fun _ _ => by simp [pure, Except.pure]
    rw [outputBodyLine]
    split
    · split <;> simp
    · simp

/-- What `get` writes without keyword substitution. -/
def getFile (encoded : Bool) (highest : ℕ) (ss : SeqState) (r : Reading) : Except Quit (List UInt8) := do
  let (vis, _) ← get highest ss r
  outputBody encoded (vis.map Prod.snd)

/-! ### What is text -/

/-- A line that can be stored as text. A line of one character, the newline, is never too long. -/
structure TextLine (lenMax : ℕ) (l : List UInt8) : Prop where
  /-- It is one line. -/
  no_newline : (10 : UInt8) ∉ l
  /-- It is no control line. -/
  plain : Plain l
  /-- Each character after the first counts twice, the newline included. -/
  fits : lenMax = 0 ∨ l = [] ∨ 2 * l.length < lenMax

/-- A file of such lines, each with its newline. -/
inductive IsText (lenMax : ℕ) : List UInt8 → Prop where
  /-- The empty file. -/
  | nil : IsText lenMax []
  /-- One more line in front. -/
  | line {l F : List UInt8} : TextLine lenMax l → IsText lenMax F → IsText lenMax (l ++ 10 :: F)

/-- The file is stored as text. -/
def TextResult.Accepted (r : TextResult) : Prop := ∃ lines idkw out, r = .accepted lines idkw out

@[simp] theorem accepted_accepted (lines : ℕ) (idkw : Bool) (out : Stream) :
    (TextResult.accepted lines idkw out).Accepted := ⟨lines, idkw, out, rfl⟩

@[simp] theorem not_accepted_refused (code : Refusal) (rest : List UInt8) (out : Stream) :
    ¬ (TextResult.refused code rest out).Accepted := by
  rintro ⟨_, _, _, h⟩
  cases h

/-- A file is cut at its first newline in one way. -/
theorem first_line_unique {l m F G : List UInt8} (hl : (10 : UInt8) ∉ l) (hm : (10 : UInt8) ∉ m)
    (h : l ++ 10 :: F = m ++ 10 :: G) : l = m ∧ F = G := by
  induction l generalizing m with
  | nil =>
    rcases m with _ | ⟨c, m⟩
    · exact ⟨rfl, (List.cons.inj h).2⟩
    · exact absurd (List.mem_cons.mpr (.inl (List.cons.inj h).1)) hm
  | cons c l ih =>
    rcases m with _ | ⟨d, m⟩
    · exact absurd (List.mem_cons.mpr (.inl (List.cons.inj h).1.symm)) hl
    · obtain ⟨rfl, htail⟩ := List.cons.inj h
      obtain ⟨rfl, rfl⟩ := ih (fun e => hl (List.mem_cons_of_mem c e)) (fun e => hm (List.mem_cons_of_mem c e)) htail
      exact ⟨rfl, rfl⟩

theorem isText_line_iff {lenMax : ℕ} {l F : List UInt8} (h : (10 : UInt8) ∉ l) :
    IsText lenMax (l ++ 10 :: F) ↔ TextLine lenMax l ∧ IsText lenMax F := by
  constructor
  · intro ht
    generalize he : l ++ 10 :: F = f at ht
    cases ht with
    | nil => simp at he
    | line hl hF =>
      obtain ⟨rfl, rfl⟩ := first_line_unique h hl.no_newline he
      exact ⟨hl, hF⟩
  · rintro ⟨hl, hF⟩
    exact .line hl hF

/-- A file of text that does not start with a newline starts with a line of at least one character. -/
theorem isText_cons_iff {lenMax : ℕ} {c : UInt8} {f : List UInt8} (hc : c ≠ 10) :
    IsText lenMax (c :: f) ↔ c ≠ 1 ∧ ∃ l F, f = l ++ 10 :: F ∧ (10 : UInt8) ∉ l ∧
      checkLineLen lenMax (2 * (l.length + 1)) = true ∧ IsText lenMax F := by
  constructor
  · intro ht
    generalize he : c :: f = f' at ht
    cases ht with
    | nil => cases he
    | @line l F hl hF =>
      rcases l with _ | ⟨d, l⟩
      · exact absurd (List.cons.inj he).1 hc
      · obtain ⟨rfl, rfl⟩ := List.cons.inj he
        refine ⟨fun e => hl.plain (by simp [e]), l, F, rfl, fun h => hl.no_newline (List.mem_cons_of_mem c h), ?_, hF⟩
        simpa [checkLineLen] using hl.fits
  · rintro ⟨h1, l, F, rfl, hl, hlen, hF⟩
    rw [← List.cons_append]
    refine .line ⟨?_, ?_, ?_⟩ hF
    · simp [hc.symm, hl]
    · simpa [Plain] using h1
    · simpa [checkLineLen] using hlen

/-- What the loop accepts at the start of a line, and within one. -/
theorem insertTextLoop_accepted (lenMax : ℕ) (f : List UInt8) (st : TextState) :
    (insertTextLoop lenMax st f).Accepted ↔
      if st.last = 10 then IsText lenMax f
      else ∃ l F, f = l ++ 10 :: F ∧ (10 : UInt8) ∉ l ∧
        checkLineLen lenMax (st.column + 2 * (l.length + 1)) = true ∧ IsText lenMax F := by
  induction f generalizing st with
  | nil =>
    by_cases hlast : st.last = 10
    · simp [insertTextLoop, hlast, IsText.nil]
    · simp [insertTextLoop, hlast]
  | cons ch rest ih =>
    rw [insertTextLoop]
    by_cases hlast : st.last = 10
    · rw [if_pos hlast, if_pos hlast]
      by_cases h1 : ch = 1
      · rw [if_pos h1, isText_cons_iff (by rw [h1]; decide)]
        simp [h1]
      · rw [if_neg h1, ih]
        by_cases h10 : ch = 10
        · -- an empty line
          subst h10
          rw [show (10 : UInt8) :: rest = [] ++ 10 :: rest from rfl, isText_line_iff (by simp)]
          simp only [TextState.put, if_true]
          exact ⟨fun h => ⟨⟨by simp, by simp [Plain], .inr (.inl rfl)⟩, h⟩, And.right⟩
        · rw [isText_cons_iff h10]
          simp [TextState.put, h10, h1]
    · rw [if_neg hlast, if_neg hlast]
      by_cases hlen : checkLineLen lenMax (st.column + 2) = true
      · rw [if_pos hlen, ih]
        by_cases h10 : ch = 10
        · -- the end of the line
          subst h10
          simp only [TextState.put, if_true]
          constructor
          · intro h
            exact ⟨[], rest, rfl, by simp, by simpa using hlen, h⟩
          · rintro ⟨l, F, he, hl, -, hF⟩
            rcases l with _ | ⟨d, l⟩
            · exact (List.cons.inj he).2 ▸ hF
            · exact absurd (List.mem_cons.mpr (.inl (List.cons.inj he).1)) hl
        · simp only [TextState.put, if_neg h10]
          constructor
          · rintro ⟨l, F, rfl, hl, hc, hF⟩
            refine ⟨ch :: l, F, rfl, by simp [Ne.symm h10, hl], ?_, hF⟩
            rw [List.length_cons]
            convert hc using 2
            omega
          · rintro ⟨l, F, he, hl, hc, hF⟩
            rcases l with _ | ⟨d, l⟩
            · exact absurd (List.cons.inj he).1 h10
            · obtain ⟨rfl, rfl⟩ := List.cons.inj he
              refine ⟨l, F, rfl, fun h => hl (List.mem_cons_of_mem ch h), ?_, hF⟩
              rw [List.length_cons] at hc
              convert hc using 2
              omega
      · rw [if_neg hlen]
        simp only [not_accepted_refused, false_iff]
        rintro ⟨l, F, -, -, hc, -⟩
        simp only [checkLineLen, Bool.or_eq_true, decide_eq_true_eq] at hc hlen
        omega

/-- What the loop has written, and what it leaves. -/
theorem insertTextLoop_result (lenMax : ℕ) (f : List UInt8) (st : TextState) :
    (∃ idkw, insertTextLoop lenMax st f = .accepted (st.lines + f.count 10) idkw (st.out.write f)) ∨
      ∃ code pre rest, f = pre ++ rest ∧ insertTextLoop lenMax st f = .refused code rest (st.out.write pre) := by
  induction f generalizing st with
  | nil =>
    rw [insertTextLoop]
    split
    · exact .inr ⟨.fileDoesNotEndWithNewline, [], [], rfl, by simp [Stream.write]⟩
    · exact .inl ⟨st.idkw, by simp [Stream.write]⟩
  | cons ch rest ih =>
    have hstop : ∀ code, ∃ code' pre rest', ch :: rest = pre ++ rest' ∧
        TextResult.refused code (ch :: rest) st.out = .refused code' rest' (st.out.write pre) :=
      fun code => ⟨code, [], ch :: rest, rfl, by simp [Stream.write]⟩
    have hput : ∀ column, (∃ idkw, insertTextLoop lenMax (st.put ch rest column) rest =
          .accepted (st.lines + (ch :: rest).count 10) idkw (st.out.write (ch :: rest))) ∨
        ∃ code pre rest', ch :: rest = pre ++ rest' ∧
          insertTextLoop lenMax (st.put ch rest column) rest = .refused code rest' (st.out.write pre) := by
      intro column
      rcases ih (st.put ch rest column) with ⟨idkw, h⟩ | ⟨code, pre, rest', hr, h⟩
      · have hlines : (st.put ch rest column).lines + rest.count 10 = st.lines + (ch :: rest).count 10 := by
          by_cases h10 : ch = 10
          · subst h10
            simp [TextState.put, Nat.add_assoc, Nat.add_comm]
          · simp [TextState.put, h10]
        exact .inl ⟨idkw, by rw [h, hlines, TextState.put, Stream.write_write]; rfl⟩
      · exact .inr ⟨code, ch :: pre, rest', by rw [hr, List.cons_append], by
          rw [h, TextState.put, Stream.write_write]; rfl⟩
    rw [insertTextLoop]
    split
    · split
      · exact .inr (hstop _)
      · exact hput 0
    · split
      · exact hput _
      · exact .inr (hstop _)

/-- **A refusal loses nothing**: the output file is where it was, with what was written behind its position, and that
and the rest of the input are the file. -/
theorem insertText_result (lenMax : ℕ) (f before : List UInt8) :
    (IsText lenMax f ∧ ∃ idkw, insertText lenMax f ⟨before, []⟩ = .accepted (f.count 10) idkw ⟨before ++ f, []⟩) ∨
      ¬ IsText lenMax f ∧ ∃ code pre rest, f = pre ++ rest ∧
        insertText lenMax f ⟨before, []⟩ = .refused code rest ⟨before, pre⟩ := by
  have hacc := insertTextLoop_accepted lenMax f ⟨10, 0, 0, false, ⟨before, []⟩⟩
  rw [if_pos rfl] at hacc
  rcases insertTextLoop_result lenMax f ⟨10, 0, 0, false, ⟨before, []⟩⟩ with
    ⟨idkw, h⟩ | ⟨code, pre, rest, hr, h⟩
  · refine .inl ⟨hacc.mp (by rw [h]; simp), idkw, ?_⟩
    rw [insertText, h]
    simp [Stream.write]
  · refine .inr ⟨fun ht => ?_, code, pre, rest, hr, ?_⟩
    · have := hacc.mpr ht
      rw [h] at this
      simp at this
    · rw [insertText, h]
      simp only [Stream.tell, Stream.seek_write]

/-- **Exactly the files of lines that fit and are no control lines are stored as text.** -/
theorem accepted_iff (lenMax : ℕ) (f before : List UInt8) :
    (insertText lenMax f ⟨before, []⟩).Accepted ↔ IsText lenMax f := by
  rcases insertText_result lenMax f before with ⟨ht, idkw, h⟩ | ⟨ht, code, pre, rest, -, h⟩
  · simp [h, ht]
  · simp [h, ht]

/-! ### What is encoded -/

theorem freads_flatten {n fuel : ℕ} {f : List UInt8} (h : f.length ≤ fuel) (hn : 0 < n) :
    (freads n fuel f).flatten = f := by
  induction fuel generalizing f with
  | zero => simp [freads, List.length_eq_zero_iff.mp (Nat.le_zero.mp h)]
  | succ fuel ih =>
    rw [freads]
    split
    · rename_i he
      simp [he]
    · rw [List.flatten_cons, ih (by rw [List.length_drop]; omega), List.take_append_drop]

theorem length_le_of_mem_freads {n fuel : ℕ} {f c : List UInt8} (h : c ∈ freads n fuel f) : c.length ≤ n := by
  induction fuel generalizing f with
  | zero => simp [freads] at h
  | succ fuel ih =>
    rw [freads] at h
    split at h
    · simp at h
    · rcases List.mem_cons.mp h with rfl | h
      · exact List.length_take_le n f
      · exact ih h

theorem chunks_flatten (f : List UInt8) : (chunks f).flatten = f := freads_flatten le_rfl (by decide)

theorem foldl_write (out : Stream) (ls : List (List UInt8)) : ls.foldl Stream.write out = out.write ls.flatten := by
  induction ls generalizing out with
  | nil => simp [Stream.write]
  | cons l ls ih => rw [List.foldl_cons, ih, Stream.write_write, List.flatten_cons]

theorem ne_nil_of_mem_freads {n fuel : ℕ} {f c : List UInt8} (hn : 0 < n) (h : c ∈ freads n fuel f) : c ≠ [] := by
  induction fuel generalizing f with
  | zero => simp [freads] at h
  | succ fuel ih =>
    rw [freads] at h
    split at h
    · simp at h
    · rename_i hf
      rcases List.mem_cons.mp h with rfl | h
      · simpa [hf] using hn.ne'
      · exact ih h

/-- The lines of an encoded file. -/
def encodedLines (f : List UInt8) : List Line := (chunks f).map encodedLine ++ [encodedLine []]

theorem encodedLines_plain (f : List UInt8) : ∀ g ∈ encodedLines f, Plain g.bytes := by
  intro g hg
  rcases List.mem_append.mp hg with hg | hg
  · obtain ⟨c, -, rfl⟩ := List.mem_map.mp hg
    exact encodedLine_head c
  · rw [List.mem_singleton.mp hg]
    exact encodedLine_head []

theorem storedLines_encodedLines (f : List UInt8) :
    storedLines (encodedLines f) = ((chunks f).map encodeLine).flatten ++ [32, 10] := by
  rw [encodedLines, storedLines_append, storedLines, List.flatMap_map, List.flatMap, ← encodedLine_nil]
  simp [encodedLine_stored]

theorem insertBinary_write (f : List UInt8) (out : Stream) :
    (insertBinary f out).out = out.write (storedLines (encodedLines f)) := by
  simp only [insertBinary, foldl_write, Stream.write_write, storedLines_encodedLines]

/-- The loop of `encode_stream` writes the lines of the pieces, and then the line of nothing. -/
theorem encodeStreamLoop_eq {fuel : ℕ} {f : List UInt8} (h : f.length ≤ fuel) (out : Stream) :
    encodeStreamLoop (fuel + 1) f out =
      some (out.write (((freads maxChunk fuel f).map encodeLine).flatten ++ [32, 10])) := by
  induction fuel generalizing f out with
  | zero =>
    obtain rfl := List.length_eq_zero_iff.mp (Nat.le_zero.mp h)
    rfl
  | succ fuel ih =>
    rw [encodeStreamLoop]
    by_cases hf : f = []
    · subst hf
      rfl
    · have hne : f.take maxChunk ≠ [] := by simp [hf, maxChunk]
      have hpos := List.length_pos_of_ne_nil hf
      rw [if_neg hne, ih (by rw [List.length_drop, maxChunk]; omega), freads, if_neg hf, Stream.write_write]
      simp

/-- **Both encoders write the same lines, and decoding these line by line gives the file.** No line has a NUL
or a newline, or starts with `^A`. -/
theorem encoders_agree (F : List UInt8) (out : Stream) : ∃ ls : List Line,
    encodeStream F out = some (out.write (storedLines ls)) ∧
      (insertBinary F out).out = out.write (storedLines ls) ∧
      (∀ l ∈ ls, l.bytes.head? ≠ some 1 ∧ (0 : UInt8) ∉ l.bytes ∧ (10 : UInt8) ∉ l.bytes) ∧
      decodeLines ls = some F := by
  refine ⟨encodedLines F, ?_, insertBinary_write F out, fun l hl => ⟨?_, l.no_nul, l.no_newline⟩, ?_⟩
  · rw [encodeStream, encodeStreamLoop_eq le_rfl, storedLines_encodedLines, chunks]
  · exact encodedLines_plain F l hl
  · have hc : ∀ c ∈ chunks F, c.length ≤ 45 ∧ c ≠ [] := fun c hc =>
      ⟨length_le_of_mem_freads hc, ne_nil_of_mem_freads (by decide) hc⟩
    rw [encodedLines, decodeLines_encodedLines hc, chunks_flatten]

/-- The encoded file is not shorter than the file. -/
theorem length_le_encodedLines (f : List UInt8) : f.length ≤ (storedLines (encodedLines f)).length := by
  have h : ∀ cs : List (List UInt8), cs.flatten.length ≤ (storedLines (cs.map encodedLine)).length := by
    intro cs
    induction cs with
    | nil => simp
    | cons c cs ih =>
      have := length_le_encodeGroups c
      simp only [List.flatten_cons, List.map_cons, storedLines_cons, encodedLine_stored, encodeLine,
        List.length_append, List.length_cons]
      omega
  have := h (chunks f)
  rw [chunks_flatten] at this
  rw [encodedLines, storedLines_append, List.length_append]
  omega

/-- **The encoded file takes the place of what was written of it as text.** -/
theorem insertBinary_out {f before pre rest : List UInt8} (h : f = pre ++ rest) :
    (insertBinary f ⟨before, pre⟩).out = ⟨before ++ storedLines (encodedLines f), []⟩ := by
  have hlen : pre.length ≤ (storedLines (encodedLines f)).length := by
    have := length_le_encodedLines f
    rw [h, List.length_append] at this
    rw [h]
    omega
  rw [insertBinary_write, Stream.write, List.drop_eq_nil_of_le hlen]

/-! ### What is read back -/

/-- The body of a history file with one delta. -/
def firstBody (gs : List Line) : List Line := insLine 1 :: gs ++ [endLine 1]

/-- Its items, when no line of the delta is a control line. -/
def firstItems (gs : List Line) : List (Item ℕ Line) :=
  .start .ins 1 (insLine 1) :: (gs.map .text ++ [.fin 1 (endLine 1)])

theorem firstItems_raw (gs : List Line) : (firstItems gs).map Item.raw = firstBody gs := by
  simp [firstItems, firstBody, Function.comp_def]

theorem firstItems_genuine {gs : List Line} (h : ∀ g ∈ gs, Plain g.bytes) : Genuine (firstItems gs) :=
  .cons (item?_insLine (by decide))
    (.append (genuine_texts fun g hg => (h g hg).kind) (.cons (item?_endLine (by decide)) (by simp [Genuine])))

theorem firstBody_parses {gs : List Line} (h : ∀ g ∈ gs, Plain g.bytes) : Parses (firstBody gs) (firstItems gs) :=
  firstItems_raw gs ▸ (firstItems_genuine h).parses

theorem firstItems_inRange (gs : List Line) {m : ℕ} (hm : 1 ≤ m) : InRange m (firstItems gs) := by
  intro x hx k hk
  simp only [firstItems, List.mem_cons, List.mem_append, List.mem_map, List.not_mem_nil, or_false] at hx
  rcases hx with rfl | ⟨g, -, rfl⟩ | rfl
  · obtain rfl : 1 = k := Option.some.inj hk
    exact ⟨le_rfl, hm⟩
  · cases hk
  · obtain rfl : 1 = k := Option.some.inj hk
    exact ⟨le_rfl, hm⟩

theorem firstItems_legal (gs : List Line) : Legal shut (firstItems gs) := by
  refine ⟨rfl, (legal_append _ _ _).mpr ⟨legal_texts _ gs, ?_⟩⟩
  rw [finish_texts]
  simp

theorem firstItems_finish (gs : List Line) : finish shut (firstItems gs) = shut := by
  rw [firstItems, finish_cons, finish_append, finish_texts]
  funext k
  by_cases hk : k = 1 <;> simp [shut, hk]

theorem select_firstItems {S : Set ℕ} (h1 : 1 ∈ S) (gs : List Line) :
    select S shut (firstItems gs) = gs.map (1, ·) := by
  have hown : owner S (act shut (.start .ins 1 (insLine 1))) = some 1 := by
    refine owner_eq_some_iff.mpr ⟨by simp, h1, fun j hj => .inl ?_⟩
    rw [act_start, Function.update_of_ne (by omega)]
    rfl
  rw [firstItems, select_cons, emit_start, List.nil_append, select_append, select_texts_some hown]
  simp

/-- **A body with one delta is read back line by line.** -/
theorem get_first {hi : ℕ} {ss : SeqState} {gs : List Line} (hf : ss.Fresh) (h1 : 1 ∈ ss.includedSet)
    (hlast : 1 ≤ ss.last) (hhi : 1 ≤ hi) (hg : ∀ g ∈ gs, Plain g.bytes) (b : Linebuf) :
    ∃ fin, get hi ss (readBody b (storedLines (firstBody gs))) = .ok (gs.map (1, ·), fin) := by
  have hsound : Sound hi ss.last (firstBody gs) (firstItems gs) :=
    ⟨firstBody_parses hg, ⟨1, _, _, rfl⟩, firstItems_inRange gs hhi, firstItems_inRange gs hlast, firstItems_legal gs⟩
  obtain ⟨fin, hget, -⟩ := get_of_sound hf.tracks hsound
  exact ⟨fin, by rw [readBody_storedLines, hget, select_firstItems h1]⟩

theorem outputBody_text (ls : List Line) : outputBody false ls = .ok (storedLines ls) := by
  induction ls with
  | nil => rfl
  | cons l ls ih =>
    rw [outputBody, ih]
    rfl

theorem outputBodyLine_encoded {c : List UInt8} (h : c.length ≤ 45) :
    outputBodyLine true (encodedLine c) = .ok c := by
  rw [outputBodyLine, if_pos rfl, encodedLine, decodeLine_encodeLine h]

theorem outputBody_encodedLines (f : List UInt8) : outputBody true (encodedLines f) = .ok f := by
  have h : ∀ cs : List (List UInt8), (∀ c ∈ cs, c.length ≤ 45) →
      outputBody true (cs.map encodedLine ++ [encodedLine []]) = .ok cs.flatten := by
    intro cs hcs
    induction cs with
    | nil =>
      rw [List.map_nil, List.nil_append, outputBody, outputBodyLine_encoded (by simp)]
      rfl
    | cons c cs ih =>
      rw [List.map_cons, List.cons_append, outputBody, outputBodyLine_encoded (hcs c List.mem_cons_self),
        ih fun d hd => hcs d (List.mem_cons_of_mem c hd)]
      rfl
  have := h (chunks f) fun c hc => length_le_of_mem_freads hc
  rwa [chunks_flatten] at this

/-- Text without a NUL is lines. -/
theorem IsText.lines {lenMax : ℕ} {f : List UInt8} (h : IsText lenMax f) (h0 : (0 : UInt8) ∉ f) :
    ∃ gs : List Line, f = storedLines gs ∧ ∀ g ∈ gs, Plain g.bytes := by
  induction h with
  | nil => exact ⟨[], rfl, by simp⟩
  | @line l F hl _ ih =>
    obtain ⟨gs, rfl, hgs⟩ := ih fun e => h0 (List.mem_append_right _ (List.mem_cons_of_mem _ e))
    refine ⟨⟨l, fun e => h0 (List.mem_append_left _ e), hl.no_newline⟩ :: gs, ?_, ?_⟩
    · simp [Line.stored]
    · intro g hg
      rcases List.mem_cons.mp hg with rfl | hg
      · exact hl.plain
      · exact hgs g hg

theorem zero_not_mem_storedLines (ls : List Line) : (0 : UInt8) ∉ storedLines ls := by
  intro h
  obtain ⟨l, -, hl⟩ := List.mem_flatMap.mp h
  exact l.zero_not_mem_stored hl

/-- What `createBody` leaves in the file: the bytes or the encoded lines, between the brackets of delta 1. -/
theorem createBody_spec {allowed : Bool} {lenMax : ℕ} {binary : Bool} {F header : List UInt8} {r : Inserted}
    (hr : createBody allowed lenMax binary F header = .ok r) :
    (binary = false ∧ IsText lenMax F ∧ r.binary = false ∧ r.lines = F.count 10 ∧
        r.out.contents = header ++ ((insLine 1).stored ++ (F ++ (endLine 1).stored))) ∨
      ((binary = true ∨ ¬ IsText lenMax F) ∧ r.binary = true ∧ r.lines = (encodedLines F).length ∧
        r.out.contents = header ++ storedLines (firstBody (encodedLines F))) := by
  have hstart : (⟨header, []⟩ : Stream).write (insLine 1).stored = ⟨header ++ (insLine 1).stored, []⟩ := by
    simp [Stream.write]
  have hbody : ∀ gs, (header ++ (insLine 1).stored ++ storedLines gs) ++ (endLine 1).stored =
      header ++ storedLines (firstBody gs) := by
    intro gs
    simp [firstBody, storedLines_append]
  rw [createBody, hstart] at hr
  obtain ⟨q, hq, hr⟩ := bind_eq_ok.mp hr
  obtain rfl := Except.ok.inj hr
  unfold bodyInsert at hq
  split at hq
  · rename_i hb
    obtain rfl := Except.ok.inj hq
    refine .inr ⟨.inl hb, rfl, by simp [insertBinary, encodedLines], ?_⟩
    rw [insertBinary_out (List.nil_append F).symm]
    simp only [Stream.write, Stream.contents, List.drop_nil, List.append_nil, hbody]
  · rename_i hb
    rcases insertText_result lenMax F (header ++ (insLine 1).stored) with
      ⟨ht, idkw, h⟩ | ⟨ht, code, pre, rest, hF, h⟩
    · rw [h] at hq
      obtain rfl := Except.ok.inj hq
      refine .inl ⟨by simpa using hb, ht, rfl, rfl, ?_⟩
      simp [Stream.write, Stream.contents]
    · rw [h] at hq
      simp only at hq
      split at hq
      · cases hq
      · obtain rfl := Except.ok.inj hq
        have hseek : (⟨header ++ (insLine 1).stored, pre⟩ : Stream).readAll.2.seek
            (⟨header ++ (insLine 1).stored, pre⟩ : Stream).tell = ⟨header ++ (insLine 1).stored, pre⟩ := by
          simp only [Stream.readAll, Stream.seek, Stream.tell, Stream.contents, List.append_nil, List.take_left,
            List.drop_left]
        have hrec : (⟨header ++ (insLine 1).stored, pre⟩ : Stream).readAll.1 ++ rest = F := hF.symm
        rw [hseek, hrec]
        refine .inr ⟨.inr ht, rfl, by simp [insertBinary, encodedLines], ?_⟩
        rw [insertBinary_out hF]
        simp only [Stream.write, Stream.contents, List.drop_nil, List.append_nil, hbody]

/-- With binary support enabled every file can be stored. -/
theorem createBody_ok (lenMax : ℕ) (binary : Bool) (F header : List UInt8) :
    ∃ r, createBody true lenMax binary F header = .ok r := by
  unfold createBody bodyInsert
  cases binary with
  | true => exact ⟨_, rfl⟩
  | false =>
    rw [if_neg (by simp)]
    cases insertText lenMax F ((⟨header, []⟩ : Stream).write (insLine 1).stored) with
    | accepted lines idkw out => exact ⟨_, rfl⟩
    | refused code rest out => exact ⟨_, rfl⟩

/-- **The file that was stored is read back exactly when it was stored encoded or has no NUL.** -/
theorem get_after_create_iff {hi : ℕ} {ss : SeqState} (hf : ss.Fresh) (h1 : 1 ∈ ss.includedSet) (hlast : 1 ≤ ss.last)
    (hhi : 1 ≤ hi) (lenMax : ℕ) (binary : Bool) (F header : List UInt8) (b : Linebuf) :
    ∃ r, createBody true lenMax binary F header = .ok r ∧
      (getFile r.binary hi ss (readBody b (r.out.contents.drop header.length)) = .ok F ↔
        binary = true ∨ ¬ IsText lenMax F ∨ (0 : UInt8) ∉ F) := by
  obtain ⟨r, hr⟩ := createBody_ok lenMax binary F header
  rcases createBody_spec hr with ⟨rfl, ht, hb, -, hc⟩ | ⟨hor, hb, -, hc⟩
  · refine ⟨r, hr, ?_⟩
    rw [hb, hc, List.drop_left]
    constructor
    · intro hget
      refine .inr (.inr fun h0 => ?_)
      -- no NUL is ever written
      obtain ⟨⟨vis, fin⟩, -, hout⟩ := bind_eq_ok.mp hget
      simp only [outputBody_text] at hout
      exact zero_not_mem_storedLines _ (Except.ok.inj hout ▸ h0)
    · intro h
      have h0 : (0 : UInt8) ∉ F := by
        rcases h with h | h | h
        · cases h
        · exact absurd ht h
        · exact h
      obtain ⟨gs, rfl, hgs⟩ := ht.lines h0
      have hbody : (insLine 1).stored ++ (storedLines gs ++ (endLine 1).stored) = storedLines (firstBody gs) := by
        simp [firstBody, storedLines_append]
      obtain ⟨fin, hget⟩ := get_first hf h1 hlast hhi hgs b
      rw [getFile, hbody, hget, ok_bind]
      show outputBody false ((gs.map (1, ·)).map Prod.snd) = _
      rw [outputBody_text, List.map_map, show (Prod.snd ∘ fun x : Line => (1, x)) = id from rfl, List.map_id]
  · refine ⟨r, hr, ?_⟩
    rw [hb, hc, List.drop_left]
    refine iff_of_true ?_ (hor.imp_right .inl)
    obtain ⟨fin, hget⟩ := get_first hf h1 hlast hhi (encodedLines_plain F) b
    rw [getFile, hget, ok_bind]
    show outputBody true (((encodedLines F).map (1, ·)).map Prod.snd) = _
    rw [List.map_map, show (Prod.snd ∘ fun x : Line => (1, x)) = id from rfl, List.map_id, outputBody_encodedLines]

/-- The state of a `get` of delta 1. -/
def firstStates : SeqState := (SeqState.new 1 (by decide)).setIncluded 1 false

/-- A file whose second line starts with `^A`: its first line is written as text and taken back. -/
theorem get_after_create_iff_sample : ∃ r, createBody true 0 false [97, 10, 1, 73, 10] [] = .ok r ∧
    (getFile r.binary 1 firstStates (readBody .initial (r.out.contents.drop 0)) = .ok [97, 10, 1, 73, 10] ↔
      false = true ∨ ¬ IsText 0 [97, 10, 1, 73, 10] ∨ (0 : UInt8) ∉ [97, 10, 1, 73, 10]) := by
  refine get_after_create_iff ((SeqState.fresh_new 1 (by decide)).setIncluded 1 false) ?_ le_rfl le_rfl 0 false
    [97, 10, 1, 73, 10] [] .initial
  simp

/-- **A NUL is lost**: of the line `a`, NUL, `b` nothing is left but the newline. -/
theorem nul_lost : ∃ r, createBody true 0 false [97, 0, 98, 10] [] = .ok r ∧
    getFile r.binary 1 firstStates (readBody .initial r.out.contents) = .ok [10] ∧
    getFile r.binary 1 firstStates (readBody .initial r.out.contents) ≠ .ok [97, 0, 98, 10] :=
  ⟨_, rfl, by decide +kernel, by decide +kernel⟩

end CSSC.Body
