import CSSC.Body.BodyIO
import CSSC.Body.Counts

/-!
# The limit on the length of lines

`body_insert_text` and `sccs_file_body_scanner::delta` both refuse lines that are too long. The one counts columns
while it copies characters, two for each character; the other measures the strings that diff delivers, which end at
the first NUL. A `FileLine` is a line of a file of text, which may have NULs, and `FileLine.written` what is delivered
of it when it is inserted. **The two agree about a file exactly when `admin` accepts each line or `delta` rejects
one** (`limits_agree_iff`); a line of `n` characters is accepted by the one when `2 * n` is below the limit, by the
other when `n` is.
-/

namespace CSSC.Body

open CSSC.Lines CSSC.Library.Weave

/-! ### The lines of a file -/

/-- A line of a file of text, without its newline. -/
structure FileLine where
  /-- The bytes of the line. -/
  bytes : List UInt8
  /-- It is one line. -/
  no_newline : (10 : UInt8) ∉ bytes
  /-- It is no control line. -/
  plain : Plain bytes

namespace FileLine

/-- A file of such lines. -/
def contents (ls : List FileLine) : List UInt8 := ls.flatMap fun l => l.bytes ++ [10]

/-- What a line buffer holds of the line: nothing after a NUL. -/
def written (l : FileLine) : CLine := .ofData (l.bytes ++ [10]) (by rw [List.dropLast_concat]; exact l.no_newline)

/-- The length that `delta` measures. -/
def measured (l : FileLine) : ℕ := l.written.bytes.length - 1

theorem measured_le (l : FileLine) : l.measured ≤ l.bytes.length := by
  have h := (List.takeWhile_prefix (fun c : UInt8 => c ≠ 0) (l := l.bytes ++ [10])).length_le
  rw [List.length_append, List.length_singleton] at h
  simp only [measured, written, CLine.ofData, cstr]
  omega

end FileLine

/-- What `admin` accepts, line by line. -/
theorem isText_contents {lenMax : ℕ} (hM : 0 < lenMax) (ls : List FileLine) :
    IsText lenMax (FileLine.contents ls) ↔ ∀ l ∈ ls, l.bytes = [] ∨ 2 * l.bytes.length < lenMax := by
  induction ls with
  | nil => simp [FileLine.contents, IsText.nil]
  | cons l ls ih =>
    have hc : FileLine.contents (l :: ls) = l.bytes ++ 10 :: FileLine.contents ls := by
      simp [FileLine.contents]
    rw [hc, isText_line_iff l.no_newline, ih, List.forall_mem_cons]
    refine and_congr_left fun _ => ⟨fun h => h.fits.resolve_left hM.ne', fun h => ⟨l.no_newline, l.plain, .inr h⟩⟩

/-- `delta` accepts strings as inserted lines: whatever it inserts them into, the limit does not stop it. -/
def AcceptsInserted (lenMax : ℕ) (strings : List CLine) : Prop :=
  ∀ (p : DeltaParms) (ss : SeqState) (script : List CLine) (r : Reading) (q : DeltaResult), p.lenMax = lenMax →
    delta p.unlimited ss script r = .ok q → insertedStrings q.out = strings → ∃ q', delta p ss script r = .ok q'

/-- A script that inserts strings into an empty file. -/
def insertScript (strings : List CLine) : Script :=
  ⟨if h : strings = [] then [] else [⟨[], [], strings, .inr h⟩], [], false, by split <;> simp⟩

/-- Any strings can be inserted. -/
theorem exists_insertion (lenMax : ℕ) (strings : List CLine) :
    ∃ (p : DeltaParms) (ss : SeqState) (q : DeltaResult), p.lenMax = lenMax ∧
      delta p.unlimited ss (insertScript strings).render ⟨[], .ok ()⟩ = .ok q ∧ insertedStrings q.out = strings := by
  have hold : (insertScript strings).oldLines = [] := by
    unfold insertScript Script.oldLines
    split <;> simp
  have hins : insertedOf (insertScript strings).edits = strings := by
    rw [Script.edits, (edits_parts _ _).2, insertScript]
    split
    · rename_i h
      simp [h]
    · simp
  obtain ⟨q, hq, hw, -⟩ := delta_follows (p := DeltaParms.unlimited ⟨0, 1, lenMax, 255, by decide⟩) rfl
    (List.Forall₂.nil : Parses [] []) (SeqState.fresh_new 0 (by decide)).tracks (by simp [InRange]) (by simp [InRange]) trivial
    (insertScript strings) (by rw [hold]; rfl)
  exact ⟨⟨0, 1, lenMax, 255, by decide⟩, _, q, rfl, hq, hw.inserted.trans hins⟩

/-- What `delta` accepts, line by line. -/
theorem acceptsInserted_iff {lenMax : ℕ} {strings : List CLine} :
    AcceptsInserted lenMax strings ↔ ∀ s ∈ strings, fits lenMax s := by
  constructor
  · intro h
    obtain ⟨p, ss, q, rfl, hq, rfl⟩ := exists_insertion lenMax strings
    obtain ⟨q', hq'⟩ := h p ss _ _ q rfl hq rfl
    obtain ⟨hu, hfit⟩ := delta_limit_iff.mp hq'
    obtain rfl : q' = q := Except.ok.inj (hu.symm.trans hq)
    exact hfit
  · rintro h p ss script r q rfl hq rfl
    exact ⟨q, delta_limit_iff.mpr ⟨hq, h⟩⟩

/-- **`admin` and `delta` agree about a file exactly when `admin` accepts each line or `delta` rejects one.** A line
of `n` characters is accepted by the one when `2 * n` is below the limit, by the other when `n` is. -/
theorem limits_agree_iff {lenMax : ℕ} (hM : 0 < lenMax) (ls : List FileLine) (before : List UInt8) :
    ((insertText lenMax (FileLine.contents ls) ⟨before, []⟩).Accepted ↔
        AcceptsInserted lenMax (ls.map FileLine.written)) ↔
      (∀ l ∈ ls, l.bytes = [] ∨ 2 * l.bytes.length < lenMax) ∨ ∃ l ∈ ls, lenMax ≤ l.measured := by
  have hdelta : (∀ s ∈ ls.map FileLine.written, fits lenMax s) ↔ ¬ ∃ l ∈ ls, lenMax ≤ l.measured := by
    simp [fits, FileLine.measured, hM.ne']
  rw [accepted_iff, isText_contents hM, acceptsInserted_iff, hdelta]
  -- what `admin` accepts is short enough for `delta`
  have himp : (∀ l ∈ ls, l.bytes = [] ∨ 2 * l.bytes.length < lenMax) → ¬ ∃ l ∈ ls, lenMax ≤ l.measured := by
    rintro h ⟨l, hl, hle⟩
    have := l.measured_le
    rcases h l hl with he | he
    · rw [he, List.length_nil] at this
      omega
    · omega
  by_cases h : ∃ l ∈ ls, lenMax ≤ l.measured
  · exact iff_of_true ⟨fun h' => absurd h (himp h'), fun h' => absurd h h'⟩ (.inr h)
  · exact ⟨fun hi => .inl (hi.mpr h), fun hor => iff_of_true (hor.resolve_right h) h⟩

/-- With a limit of 3 characters both accept a line of one. -/
theorem limits_agree_one : ((insertText 3 (FileLine.contents [⟨[97], by decide, by decide⟩]) ⟨[], []⟩).Accepted ↔
    AcceptsInserted 3 ([⟨[97], by decide, by decide⟩].map FileLine.written)) :=
  (limits_agree_iff (by decide) _ _).mpr (.inl (by decide))

/-- With the same limit a line of two is accepted by `delta` only. -/
theorem limits_disagree : ¬ (insertText 3 (FileLine.contents [⟨[97, 98], by decide, by decide⟩]) ⟨[], []⟩).Accepted ∧
    AcceptsInserted 3 ([⟨[97, 98], by decide, by decide⟩].map FileLine.written) := by
  constructor
  · rw [accepted_iff, isText_contents (by decide)]
    decide
  · rw [acceptsInserted_iff]
    decide

end CSSC.Body
