import CSSC.Body.BodyIO
import CSSC.Files.Update

/-!
# Creating a history file

`sccs_file::create` writes the header of a new history file to the x-file, copies the input into the body and
completes the file. When the body cannot be copied it goes on all the same. Which calls fail is a parameter
(`CreateFails`), and so is what is written around the body (`Creating`). The exception for a file without keywords
ends the function without a result.

**A creation that fails leaves no history file behind, unless its body could not be copied and everything else
worked** (`failed_creation_iff`): then the x-file is completed and renamed.
-/

namespace CSSC.Files

open CSSC.Lines CSSC.Body CSSC.Library

/-- Which calls of `create` fail. -/
structure CreateFails where
  /-- The input file cannot be opened. -/
  openInput : Bool
  /-- `start_update`. -/
  start : StartFails
  /-- The header cannot be written. -/
  header : Bool
  /-- The line `^AI 1` cannot be written. -/
  putI : Bool
  /-- A read or a write fails while the body is copied, and this is what the x-file holds then. -/
  body : Option Stream
  /-- The line `^AE 1` cannot be written. -/
  putE : Bool
  /-- The x-file cannot be flushed, or the counts cannot be written. -/
  early : Bool
  /-- `end_update`. -/
  finish : EndFails
  /-- What is in the x-file when not everything could be written. -/
  garbage : List UInt8

/-- What `create` reads and writes. -/
structure Creating where
  /-- The input, if there is one. -/
  input : Option (List UInt8)
  /-- Files that are not text may be stored encoded. -/
  allowed : Bool
  /-- The longest line of text. -/
  lenMax : ℕ
  /-- `force_binary`. -/
  forceBinary : Bool
  /-- `flags.encoded`. -/
  encoded : Bool
  /-- `flags.no_id_keywords_is_fatal`. -/
  fatal : Bool
  /-- A keyword was found before the copying of the body failed. -/
  foundBefore : Bool
  /-- The header. -/
  header : List UInt8
  /-- How the number of lines is patched into the header. -/
  counts : ℕ → List UInt8 → List UInt8
  /-- How `end_update` completes the file, by `flags.encoded`. -/
  patch : Bool → Patch

/-- The x-file after a text was refused. -/
def refusedStream (lenMax : ℕ) (input : List UInt8) (out : Stream) : Stream :=
  match insertText lenMax input out with
  | .accepted _ _ out' => out'
  | .refused _ _ out' => out'

/-- The line `^AE 1`, and `end_update`. -/
def finishCreate (f : CreateFails) (i : Creating) (ret : Bool) (out : Stream) (lines : ℕ) (encoded : Bool)
    (st : Disk) : Except Quit Bool × Disk :=
  if f.putE then (.ok false, { st with dir := st.dir.write .x f.garbage })
  else
    let r := endUpdateDelta f.early f.finish (i.counts lines) (i.patch encoded) true
      (out.write (endLine 1).stored).contents st
    (.ok (r.1 && ret), r.2)

/-- The body is copied, and whether that works or not, the file is finished. -/
def copyBody (f : CreateFails) (i : Creating) (input : List UInt8) (out : Stream) (st : Disk) :
    Except Quit Bool × Disk :=
  let failed (out : Stream) : Except Quit Bool × Disk :=
    if i.foundBefore = false ∧ i.fatal = true then (.error (.failure "No id keywords"), st)
    else finishCreate f i false out 0 i.encoded st
  match f.body with
  | some out => failed out
  | none =>
    match bodyInsert i.allowed i.lenMax i.forceBinary input out with
    | .error _ => failed (refusedStream i.lenMax input out)
    | .ok r =>
      if r.idkw = false ∧ i.fatal = true then (.error (.failure "No id keywords"), st)
      else finishCreate f i true r.out r.lines (i.encoded || r.binary) st

/-- `sccs_file::create`. -/
def SccsFile.create (f : CreateFails) (i : Creating) (st : Disk) : Except Quit Bool × Disk :=
  if i.input ≠ none ∧ f.openInput = true then (.ok false, st)
  else
    match startUpdate f.start true st with
    | (false, st) => (.ok false, st)
    | (true, st) =>
      if f.header || f.putI then (.ok false, { st with dir := st.dir.write .x f.garbage })
      else
        let out := (⟨i.header, []⟩ : Stream).write (insLine 1).stored
        match i.input with
        | none => finishCreate f i true out 0 i.encoded st
        | some input => copyBody f i input out st

/-- A creation that returns `false` should have left no history file. -/
def NoHistoryLeft : Except Quit Bool × Disk → Prop
  | (.ok false, st) => st.dir .s = none
  | _ => True

/-- The body cannot be copied: a call fails, or the input is not text and may not be encoded. -/
def BodyFails (f : CreateFails) (i : Creating) (input : List UInt8) : Prop :=
  f.body ≠ none ∨ (i.forceBinary = false ∧ ¬ IsText i.lenMax input ∧ i.allowed = false)

/-- The x-file with a body that was not copied. -/
def failedText (f : CreateFails) (i : Creating) (input : List UInt8) : List UInt8 :=
  ((f.body.getD (refusedStream i.lenMax input ((⟨i.header, []⟩ : Stream).write (insLine 1).stored))).write
    (endLine 1).stored).contents

/-- The header is written, the body cannot be copied, the program goes on, and everything after that works. -/
def FinishesLate (f : CreateFails) (i : Creating) (dir : Directory) : Prop :=
  ∃ input, i.input = some input ∧ f.openInput = false ∧ StartOk f.start true dir ∧ f.header = false ∧ f.putI = false ∧
    BodyFails f i input ∧ ¬ (i.foundBefore = false ∧ i.fatal = true) ∧ f.putE = false ∧ f.early = false ∧
    f.finish.complete = true ∧ f.finish.rename = false ∧
    (i.patch i.encoded (i.counts 0 (failedText f i input))).isSome = true

/-! ### Finishing -/

section

variable {f : CreateFails} {i : Creating} {ret : Bool} {out : Stream} {lines : ℕ} {encoded : Bool} {st : Disk}

/-- Everything after the body works. -/
def Finishes (f : CreateFails) (i : Creating) (out : Stream) (lines : ℕ) (encoded : Bool) : Prop :=
  f.putE = false ∧ f.early = false ∧ f.finish.complete = true ∧ f.finish.rename = false ∧
    (i.patch encoded (i.counts lines (out.write (endLine 1).stored).contents)).isSome = true

/-- If everything works there is a history file, whatever is returned. -/
theorem finishCreate_of_finishes (h : Finishes f i out lines encoded) :
    (finishCreate f i ret out lines encoded st).1 = .ok ret ∧
      (finishCreate f i ret out lines encoded st).2.dir .s ≠ none := by
  obtain ⟨h1, h2, h3, h4, h5⟩ := h
  obtain ⟨new, hnew⟩ := Option.isSome_iff_exists.mp h5
  have hr : Reaches f.finish (i.patch encoded) true (i.counts lines (out.write (endLine 1).stored).contents) new st.dir :=
    ⟨h3, hnew, .inl rfl⟩
  have he := (endUpdate_of_reaches hr).2
  rw [if_neg (by simp [h4])] at he
  simp only [finishCreate, h1, endUpdateDelta, h2, Bool.false_eq_true, if_false]
  rw [he.1, he.2.2]
  simp

/-- If something fails there is none. -/
theorem finishCreate_of_not (hs : st.dir .s = none) (h : ¬ Finishes f i out lines encoded) :
    (finishCreate f i ret out lines encoded st).1 = .ok false ∧
      (finishCreate f i ret out lines encoded st).2.dir .s = none := by
  have hsx : FileName.s ≠ .x := by decide
  rw [finishCreate]
  have hg : st.dir.write .x f.garbage .s = none := (Store.write_of_ne hsx).trans hs
  have hg' : st.dir.write .x f.finish.garbage .s = none := (Store.write_of_ne hsx).trans hs
  by_cases h1 : f.putE = true
  · rw [if_pos h1]
    exact ⟨rfl, hg⟩
  rw [if_neg h1]
  dsimp only
  rw [endUpdateDelta]
  by_cases h2 : f.early = true
  · rw [if_pos h2]
    exact ⟨rfl, hg'⟩
  rw [if_neg h2]
  by_cases hr : ∃ new, Reaches f.finish (i.patch encoded) true
      (i.counts lines (out.write (endLine 1).stored).contents) new st.dir
  · obtain ⟨new, hnew⟩ := hr
    have h4 : f.finish.rename = true := by
      by_contra h4
      refine h ⟨by simpa using h1, by simpa using h2, hnew.1, by simpa using h4, ?_⟩
      rw [hnew.2.1]
      rfl
    have he := (endUpdate_of_reaches hnew).2
    rw [if_pos h4] at he
    rw [he.1, he.2.2.1]
    exact ⟨rfl, hs⟩
  · obtain ⟨he, -, hframe⟩ := endUpdate_of_not_reaches hr
    rw [he, hframe .s hsx]
    exact ⟨rfl, hs⟩

/-- A creation whose body was copied leaves no history file when it fails. -/
theorem finishCreate_true (hs : st.dir .s = none) : NoHistoryLeft (finishCreate f i true out lines encoded st) := by
  by_cases h : Finishes f i out lines encoded
  · have h1 : (finishCreate f i true out lines encoded st).1 = .ok true := (finishCreate_of_finishes h).1
    rcases ho : finishCreate f i true out lines encoded st with ⟨o, st'⟩
    rw [ho] at h1
    obtain rfl : o = .ok true := h1
    trivial
  · obtain ⟨h1, h2⟩ : (finishCreate f i true out lines encoded st).1 = .ok false ∧ _ := finishCreate_of_not hs h
    rcases ho : finishCreate f i true out lines encoded st with ⟨o, st'⟩
    rw [ho] at h1 h2
    obtain rfl : o = .ok false := h1
    exact h2

/-- One whose body was not copied leaves none if and only if something else fails. -/
theorem finishCreate_false_iff (hs : st.dir .s = none) :
    NoHistoryLeft (finishCreate f i false out lines encoded st) ↔ ¬ Finishes f i out lines encoded := by
  by_cases h : Finishes f i out lines encoded
  · obtain ⟨h1, h2⟩ : (finishCreate f i false out lines encoded st).1 = .ok false ∧ _ := finishCreate_of_finishes h
    rcases ho : finishCreate f i false out lines encoded st with ⟨o, st'⟩
    rw [ho] at h1 h2
    obtain rfl : o = .ok false := h1
    exact iff_of_false h2 fun hn => hn h
  · obtain ⟨h1, h2⟩ : (finishCreate f i false out lines encoded st).1 = .ok false ∧ _ := finishCreate_of_not hs h
    rcases ho : finishCreate f i false out lines encoded st with ⟨o, st'⟩
    rw [ho] at h1 h2
    obtain rfl : o = .ok false := h1
    exact iff_of_true h2 h

end

/-! ### The whole function -/

/-- The body of a file is not inserted only if it is not text and may not be encoded. -/
theorem bodyInsert_eq_error {allowed binary : Bool} {lenMax : ℕ} {input before : List UInt8} :
    (∃ e, bodyInsert allowed lenMax binary input ⟨before, []⟩ = .error e) ↔
      binary = false ∧ ¬ IsText lenMax input ∧ allowed = false := by
  rw [bodyInsert, ← accepted_iff lenMax input before]
  cases binary with
  | true => simp
  | false =>
    rcases insertText lenMax input ⟨before, []⟩ with ⟨lines, idkw, out'⟩ | ⟨code, rest, out'⟩
    · simp
    · cases allowed <;> simp

/-- A creation whose body cannot be copied goes on, unless a file without keywords is an error. -/
theorem copyBody_of_fails {f : CreateFails} {i : Creating} {input before : List UInt8} {st : Disk}
    (h : BodyFails f i input) :
    copyBody f i input ⟨before, []⟩ st =
      if i.foundBefore = false ∧ i.fatal = true then (.error (.failure "No id keywords"), st)
      else finishCreate f i false (f.body.getD (refusedStream i.lenMax input ⟨before, []⟩)) 0 i.encoded st := by
  rw [copyBody]
  rcases hb : f.body with _ | out
  · obtain ⟨e, he⟩ : ∃ e, bodyInsert i.allowed i.lenMax i.forceBinary input ⟨before, []⟩ = .error e :=
      bodyInsert_eq_error.mpr (h.resolve_left fun hn => hn hb)
    simp only [he, Option.getD_none]
  · rfl

/-- One whose body was copied leaves nothing when it fails. -/
theorem copyBody_of_copied {f : CreateFails} {i : Creating} {input before : List UInt8} {st : Disk}
    (h : ¬ BodyFails f i input) (hs : st.dir .s = none) : NoHistoryLeft (copyBody f i input ⟨before, []⟩ st) := by
  have hb : f.body = none := not_not.mp fun hb => h (.inl hb)
  rw [copyBody, hb]
  dsimp only
  rcases hr : bodyInsert i.allowed i.lenMax i.forceBinary input ⟨before, []⟩ with e | r
  · exact absurd (.inr (bodyInsert_eq_error.mp ⟨e, hr⟩)) h
  · dsimp only
    split_ifs
    · trivial
    · exact finishCreate_true hs

/-- **A creation that returns `false` has left no history file, unless the body could not be copied and everything else
worked.** -/
theorem failed_creation_iff (f : CreateFails) (i : Creating) {st : Disk} (hs : st.dir .s = none) :
    NoHistoryLeft (SccsFile.create f i st) ↔ ¬ FinishesLate f i st.dir := by
  have hout : (⟨i.header, []⟩ : Stream).write (insLine 1).stored = ⟨i.header ++ (insLine 1).stored, []⟩ := by
    simp [Stream.write]
  rw [SccsFile.create]
  by_cases ho : i.input ≠ none ∧ f.openInput = true
  · rw [if_pos ho]
    refine iff_of_true hs ?_
    rintro ⟨input, -, h, -⟩
    rw [ho.2] at h
    cases h
  rw [if_neg ho]
  have hs' : (startUpdate f.start true st).2.dir .s = none :=
    (startUpdate_frame (by decide) (by decide)).trans hs
  have hok := startUpdate_iff f.start true st
  rcases hst : startUpdate f.start true st with ⟨ok, st'⟩
  rw [hst] at hs' hok
  cases ok with
  | false =>
    refine iff_of_true hs' ?_
    rintro ⟨input, -, -, h, -⟩
    exact absurd (hok.mpr h) Bool.false_ne_true
  | true =>
    show NoHistoryLeft (if (f.header || f.putI) = true then _ else _) ↔ _
    by_cases hw : (f.header || f.putI) = true
    · rw [if_pos hw]
      have hsx : FileName.s ≠ .x := by decide
      refine iff_of_true (show st'.dir.write .x f.garbage .s = none from ?_) ?_
      · exact (Store.write_of_ne hsx).trans hs'
      rintro ⟨input, -, -, -, h1, h2, -⟩
      rw [h1, h2] at hw
      cases hw
    rw [if_neg hw]
    rcases hi : i.input with _ | input
    · refine iff_of_true (finishCreate_true hs') ?_
      rintro ⟨input, h, -⟩
      rw [hi] at h
      cases h
    · show NoHistoryLeft (copyBody f i input _ st') ↔ _
      rw [hout]
      by_cases hb : BodyFails f i input
      · rw [copyBody_of_fails hb]
        have hopen : f.openInput = false := by simpa [hi] using ho
        obtain ⟨hh, hp⟩ : f.header = false ∧ f.putI = false := by simpa using hw
        by_cases hex : i.foundBefore = false ∧ i.fatal = true
        · rw [if_pos hex]
          refine iff_of_true trivial ?_
          rintro ⟨input, -, -, -, -, -, -, h, -⟩
          exact h hex
        · rw [if_neg hex, finishCreate_false_iff hs', not_iff_not]
          constructor
          · rintro ⟨h1, h2, h3, h4, h5⟩
            refine ⟨input, hi, hopen, hok.mp rfl, hh, hp, hb, hex, h1, h2, h3, h4, ?_⟩
            rwa [failedText, hout]
          · rintro ⟨input', hi', -, -, -, -, -, -, h1, h2, h3, h4, h5⟩
            obtain rfl : input = input' := Option.some.inj (hi.symm.trans hi')
            rw [failedText, hout] at h5
            exact ⟨h1, h2, h3, h4, h5⟩
      · refine iff_of_true (copyBody_of_copied hb hs') ?_
        rintro ⟨input', hi', -, -, -, -, h, -⟩
        obtain rfl : input = input' := Option.some.inj (hi.symm.trans hi')
        exact hb h

/-! ### Runs -/

/-- No call fails. -/
def nothingFails : CreateFails where
  openInput := false
  start := ⟨false, false, false, false, []⟩
  header := false
  putI := false
  body := none
  putE := false
  early := false
  finish := ⟨false, false, false, false, false, false, false, []⟩
  garbage := []

/-- A file is created from the input `a` without a newline, which may be encoded if `allowed` says so. -/
def createUnterminated (allowed : Bool) : Creating where
  input := some [97]
  allowed := allowed
  lenMax := 0
  forceBinary := false
  encoded := false
  fatal := false
  foundBefore := false
  header := [1, 104, 10]
  counts := fun _ text => text
  patch := fun _ => some

/-- **A file that is not text and may not be encoded leaves a history file behind its failure.** -/
theorem binary_input_leaves_history :
    (SccsFile.create nothingFails (createUnterminated false) ⟨fun _ => none, false⟩).1 = .ok false ∧
      (SccsFile.create nothingFails (createUnterminated false) ⟨fun _ => none, false⟩).2.dir .s ≠ none ∧
      ¬ NoHistoryLeft (SccsFile.create nothingFails (createUnterminated false) ⟨fun _ => none, false⟩) := by
  have h1 : (SccsFile.create nothingFails (createUnterminated false) ⟨fun _ => none, false⟩).1 = .ok false := by
    rfl
  have h2 : (SccsFile.create nothingFails (createUnterminated false) ⟨fun _ => none, false⟩).2.dir .s =
      some [1, 104, 10, 1, 73, 32, 49, 10, 1, 69, 32, 49, 10] := by rfl
  rcases ho : SccsFile.create nothingFails (createUnterminated false) ⟨fun _ => none, false⟩ with ⟨o, st'⟩
  rw [ho] at h1 h2
  obtain rfl : o = .ok false := h1
  have hs : st'.dir .s ≠ none := by
    rw [h2]
    simp
  exact ⟨rfl, hs, hs⟩

/-- `rename` fails, and nothing else. -/
def renameFails : CreateFails := { nothingFails with finish := { nothingFails.finish with rename := true } }

/-- If the x-file cannot be renamed either, the x-file is all that is left. -/
theorem refused_input_leaves_xfile :
    (SccsFile.create renameFails (createUnterminated false) ⟨fun _ => none, false⟩).1 = .ok false ∧
      (SccsFile.create renameFails (createUnterminated false) ⟨fun _ => none, false⟩).2.dir .x ≠ none ∧
      NoHistoryLeft (SccsFile.create renameFails (createUnterminated false) ⟨fun _ => none, false⟩) := by
  refine ⟨rfl, ?_, ?_⟩
  · have hx : (SccsFile.create renameFails (createUnterminated false) ⟨fun _ => none, false⟩).2.dir .x =
        some [1, 104, 10, 1, 73, 32, 49, 10, 1, 69, 32, 49, 10] := by rfl
    rw [hx]
    simp
  · apply (failed_creation_iff renameFails (createUnterminated false) rfl).mpr
    rintro ⟨input, -, -, -, -, -, -, -, -, -, -, h, -⟩
    exact Bool.noConfusion h

end CSSC.Files
