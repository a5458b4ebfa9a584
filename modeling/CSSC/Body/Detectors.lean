import CSSC.Body.BodyIO
import CSSC.Body.SubstFlag

/-!
# Is there a keyword?

Whether a text contains a keyword is decided in four places: when a body is stored, when a file is checked in, when a
line is written without expansion, and by the expansion itself. The search for a letter also finds the NUL that ends
the list of letters, so that **they agree about every text but one that has a NUL between two percent signs and no
keyword** (`detectors_agree_iff`).
-/

namespace CSSC.Body

open CSSC.Lines CSSC.Table CSSC.Header CSSC.Library.Triples

/-! ### The model -/

/-- The loop of `check_keywords_in_file`. -/
def checkKeywordsLoop : UInt8 → List UInt8 → Bool
  | _, [] => false
  | last, ch :: rest =>
    if last = 37 && isIdKeywordLetter ch then
      match rest with
      | [] => false
      | peek :: rest' => if peek = 37 then true else checkKeywordsLoop ch (peek :: rest')
    else checkKeywordsLoop ch rest

/-- `check_keywords_in_file`, for a file with this content: no warning is given. -/
def checkKeywordsInFile (data : List UInt8) : Bool := checkKeywordsLoop 10 data

/-- The three detectors give the same answer. -/
structure Agree (data : List UInt8) : Prop where
  /-- When the text is stored. -/
  stored : ∀ lenMax out lines idkw out', insertText lenMax data out = .accepted lines idkw out' →
    idkw = checkIdKeywords data
  /-- When it is checked in. -/
  checked : checkKeywordsInFile data = checkIdKeywords data

/-- A line of text as a string. -/
def lineString (l : Line) : CString := ⟨l.bytes, l.no_nul⟩

/-- The answer is what the expansion of the lines finds. -/
def FindsSame (data : List UInt8) : Prop :=
  ∀ (f : KeywordFile) (d : FullDelta) (n : ℕ) (p p' : SubstParms) (ls : List Line) (out : List Emission),
    f.flags.letters = [] → p.foundId = false → data = storedLines ls →
      writeLines f d (n + 3) p (ls.map lineString) = .ok (out, p') → (p'.foundId = true ↔ checkIdKeywords data = true)

/-! ### What they look for -/

/-- The letters that are looked for with `strchr`. -/
def foundKind (c : UInt8) : Kind := if isIdKeywordLetter c then .take else .pass

theorem isIdKeywordLetter_eq (c : UInt8) : isIdKeywordLetter c = (decide (c = 0) || isKnownKeywordChar c) := rfl

theorem checkKeywordsLoop_iff (last : UInt8) (data : List UInt8) :
    checkKeywordsLoop last data = true ↔ Contains 37 foundKind (last :: data) := by
  fun_induction checkKeywordsLoop last data with
  | case1 last => simp [contains_cons]
  | case2 last ch h => simp [contains_cons]
  | case3 last ch h rest =>
    simp only [Bool.and_eq_true, decide_eq_true_eq] at h
    obtain ⟨rfl, hch⟩ := h
    exact iff_of_true rfl ⟨[], ch, rest, rfl, if_pos hch⟩
  | case4 last ch h peek rest hp ih =>
    rw [ih, contains_cons (a := last)]
    refine ⟨.inr, fun h' => h'.resolve_left ?_⟩
    rintro ⟨c, s, -, he, -⟩
    simp only [List.cons.injEq] at he
    exact hp he.2.1
  | case5 last ch rest h ih =>
    rw [ih, contains_cons (a := last)]
    refine ⟨.inr, fun h' => h'.resolve_left ?_⟩
    rintro ⟨c, s, rfl, he, hc⟩
    simp only [List.cons.injEq] at he
    obtain ⟨rfl, -⟩ := he
    refine h ?_
    rw [foundKind] at hc
    split at hc
    · next hc' => simp [hc']
    · cases hc

theorem foundKind_eq_take {c : UInt8} : foundKind c = .take ↔ isIdKeywordLetter c = true := by
  rw [foundKind]
  split <;> simp_all

theorem forced_eq_take {c : UInt8} : forced c = .take ↔ isKnownKeywordChar c = true := by
  rw [forced, letterKind]
  cases isKnownKeywordChar c <;> simp

theorem forced_ne_skip (c : UInt8) : forced c ≠ .skip := by
  rw [forced, letterKind]
  cases isKnownKeywordChar c <;> simp

/-- A file is searched for letters as `strchr` finds them. -/
theorem checkKeywordsInFile_iff (data : List UInt8) :
    checkKeywordsInFile data = true ↔ Contains 37 foundKind data := by
  rw [checkKeywordsInFile, checkKeywordsLoop_iff, contains_cons]
  simp

theorem insertTextLoop_idkw {lenMax : ℕ} {data : List UInt8} {st : TextState} {lines : ℕ} {idkw : Bool} {out : Stream}
    (h : insertTextLoop lenMax st data = .accepted lines idkw out) :
    idkw = true ↔ st.idkw = true ∨ Contains 37 foundKind (st.last :: data) := by
  induction data generalizing st with
  | nil =>
    rw [insertTextLoop] at h
    split at h
    · cases h
    · cases h
      simp [contains_cons]
  | cons ch rest ih =>
    have hput : ∀ column, (st.put ch rest column).idkw = true ↔
        st.idkw = true ∨ st.last = 37 ∧ isIdKeywordLetter ch = true ∧ rest.head? = some 37 := by
      intro column
      simp [TextState.put, and_assoc]
    have hnext : ∀ column, insertTextLoop lenMax (st.put ch rest column) rest = .accepted lines idkw out →
        (idkw = true ↔ st.idkw = true ∨ Contains 37 foundKind (st.last :: ch :: rest)) := by
      intro column h
      rw [ih h, hput, or_assoc, contains_cons (a := st.last)]
      refine or_congr_right (or_congr_left ?_)
      constructor
      · rintro ⟨hl, hc, hr⟩
        obtain ⟨s, rfl⟩ := List.head?_eq_some_iff.mp hr
        exact ⟨ch, s, hl, rfl, foundKind_eq_take.mpr hc⟩
      · rintro ⟨c, s, hl, he, hc⟩
        simp only [List.cons.injEq] at he
        obtain ⟨rfl, rfl⟩ := he
        exact ⟨hl, foundKind_eq_take.mp hc, rfl⟩
    rw [insertTextLoop] at h
    split at h
    · split at h
      · cases h
      · exact hnext _ h
    · split at h
      · exact hnext _ h
      · cases h

/-- So is a text that is stored. -/
theorem insertText_idkw {lenMax : ℕ} {data : List UInt8} {out out' : Stream} {lines : ℕ} {idkw : Bool}
    (h : insertText lenMax data out = .accepted lines idkw out') : idkw = true ↔ Contains 37 foundKind data := by
  rw [insertText] at h
  split at h
  · next h' =>
    cases h
    rw [insertTextLoop_idkw h', contains_cons]
    simp
  · cases h

/-- A line in memory is searched for letters only. -/
theorem checkIdKeywords_iff (data : List UInt8) : checkIdKeywords data = true ↔ Contains 37 forced data := by
  fun_induction checkIdKeywords data with
  | case1 a b c r ih =>
    rw [Bool.or_eq_true, ih, contains_cons (a := a)]
    refine or_congr_left ?_
    simp only [Bool.and_eq_true, decide_eq_true_eq, ne_eq, decide_not, Bool.not_eq_true', decide_eq_false_iff_not]
    constructor
    · rintro ⟨⟨⟨rfl, hb⟩, rfl⟩, hk⟩
      rw [isIdKeywordLetter_eq, decide_eq_false hb, Bool.false_or] at hk
      exact ⟨b, r, rfl, rfl, forced_eq_take.mpr hk⟩
    · rintro ⟨x, s, rfl, he, hk⟩
      simp only [List.cons.injEq] at he
      obtain ⟨rfl, rfl, -⟩ := he
      have hk := forced_eq_take.mp hk
      refine ⟨⟨⟨rfl, ?_⟩, rfl⟩, by rw [isIdKeywordLetter_eq, hk, Bool.or_true]⟩
      rintro rfl
      exact absurd hk (by decide)
  | case2 data h =>
    refine iff_of_false (by simp) ?_
    rintro ⟨p, c, s, rfl, -⟩
    match p with
    | [] => exact h _ _ _ _ rfl
    | [x] => exact h _ _ _ _ rfl
    | x :: y :: p => cases p <;> exact h _ _ _ _ rfl

/-! ### The expansion -/

theorem expandTokens_foundId {emit : UInt8 → SubstParms → Emitted} {ts : List (Token UInt8)} {p p' : SubstParms}
    {out : List Emission} (h : expandTokens emit ts p = .ok (out, p')) :
    p'.foundId = true ↔ p.foundId = true ∨ ∃ c, .taken c ∈ ts := by
  induction ts generalizing p out with
  | nil =>
    cases h
    simp
  | cons x ts ih =>
    cases x with
    | item a =>
      rw [expandTokens, map_eq_ok] at h
      obtain ⟨⟨out₁, p₁⟩, h, he⟩ := h
      cases he
      simpa using ih h
    | skipped c =>
      rw [expandTokens, map_eq_ok] at h
      obtain ⟨⟨out₁, p₁⟩, h, he⟩ := h
      cases he
      simpa using ih h
    | taken c =>
      rw [expandTokens] at h
      split at h
      · cases h
      · obtain ⟨⟨out₁, p₁⟩, h, he⟩ := map_eq_ok.mp h
        cases he
        rw [ih h]
        simp

/-- The expansion finds a keyword exactly when one of the lines contains one. -/
theorem writeLines_foundId {f : KeywordFile} {d : FullDelta} {n : ℕ} {p p' : SubstParms} {ls : List CString}
    {out : List Emission} (hf : f.flags.letters = []) (h : writeLines f d (n + 3) p ls = .ok (out, p')) :
    p'.foundId = true ↔ p.foundId = true ∨ ∃ l ∈ ls, Contains 37 forced l.bytes := by
  have hkind : lineKind f = forced := by
    funext c
    rw [lineKind, hf]
    rfl
  induction ls generalizing p out with
  | nil =>
    cases h
    simp
  | cons l ls ih =>
    rw [writeLines, writeSubst_eq, hkind] at h
    split at h
    · cases h
    · next out₁ p₁ h₁ =>
      obtain ⟨⟨out₂, p₂⟩, h₂, he⟩ := map_eq_ok.mp h
      cases he
      have hl : (∃ c, .taken c ∈ tokens 37 forced l.bytes) ↔ Contains 37 forced l.bytes := by
        rw [← taken_ne_nil_iff (by decide) forced_ne_skip]
        simp only [← mem_taken]
        constructor
        · rintro ⟨c, hc⟩
          exact List.ne_nil_of_mem hc
        · exact List.exists_mem_of_ne_nil _
      have hrest := ih h₂
      rw [expandTokens_foundId h₁, hl, or_assoc] at hrest
      exact hrest.trans (by simp)

/-- No keyword reaches over the end of a line. -/
theorem contains_storedLines (ls : List Line) :
    Contains 37 forced (storedLines ls) ↔ ∃ l ∈ ls, Contains 37 forced l.bytes := by
  induction ls with
  | nil => simp
  | cons l ls ih =>
    rw [storedLines_cons, Line.stored, List.append_assoc, List.cons_append, List.nil_append,
      contains_append_cons (by decide) (by decide), ih]
    simp

/-! ### When they agree -/

/-- A search that also finds the NUL finds a keyword, or a NUL between percent signs. -/
theorem contains_found_iff (data : List UInt8) :
    Contains 37 foundKind data ↔ Contains 37 forced data ∨ ∃ a b, data = a ++ 37 :: 0 :: 37 :: b := by
  have htake : ∀ c, foundKind c = .take ↔ c = 0 ∨ forced c = .take := by
    intro c
    rw [foundKind_eq_take, forced_eq_take, isIdKeywordLetter_eq]
    simp
  constructor
  · rintro ⟨a, c, b, rfl, hc⟩
    rcases (htake c).mp hc with rfl | hc
    · exact .inr ⟨a, b, rfl⟩
    · exact .inl ⟨a, c, b, rfl, hc⟩
  · rintro (⟨a, c, b, rfl, hc⟩ | ⟨a, b, rfl⟩)
    · exact ⟨a, c, b, rfl, (htake c).mpr (.inr hc)⟩
    · exact ⟨a, 0, b, rfl, (htake 0).mpr (.inl rfl)⟩

/-- The expansion of text lines finds what is in the text. -/
theorem findsSame (data : List UInt8) : FindsSame data := by
  rintro f d n p p' ls out hf hp rfl h
  rw [writeLines_foundId hf h, checkIdKeywords_iff, contains_storedLines, hp]
  simp [lineString]

/-- The detectors agree with each other and with the expansion exactly when the text contains a keyword or has no NUL
between two percent signs. -/
theorem detectors_agree_iff (data : List UInt8) :
    Agree data ∧ FindsSame data ↔ Contains 37 forced data ∨ ¬ ∃ a b, data = a ++ 37 :: 0 :: 37 :: b := by
  constructor
  · rintro ⟨⟨-, hc⟩, -⟩
    refine or_iff_not_imp_left.mpr fun hno h0 => hno ?_
    rw [← checkIdKeywords_iff, ← hc, checkKeywordsInFile_iff, contains_found_iff]
    exact .inr h0
  · intro h
    have hfound : Contains 37 foundKind data ↔ Contains 37 forced data := by
      rw [contains_found_iff]
      exact ⟨fun h' => h'.elim id fun h0 => h.resolve_right (not_not.mpr h0), .inl⟩
    refine ⟨⟨fun lenMax out lines idkw out' hi => ?_, ?_⟩, findsSame data⟩
    · rw [Bool.eq_iff_iff, insertText_idkw hi, checkIdKeywords_iff, hfound]
    · rw [Bool.eq_iff_iff, checkKeywordsInFile_iff, checkIdKeywords_iff, hfound]

/-- `a %` NUL `% b` and a newline: two of the three find a keyword, and none is there. -/
theorem nul_found : ¬ (Agree [97, 37, 0, 37, 98, 10] ∧ FindsSame [97, 37, 0, 37, 98, 10]) :=
  fun h => absurd h.1.checked (by decide)

end CSSC.Body
