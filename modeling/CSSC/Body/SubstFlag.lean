import CSSC.Body.WString

/-!
# The `y` flag

The `y` flag names the keywords that are expanded in the lines. A triple `%x%` whose letter it does not name is copied
as a whole, but one whose letter is no keyword at all is passed over, so that its closing percent sign may open the
next keyword. A flag that names all the keywords is therefore not the same as no flag: it makes a difference to a line
exactly when a triple that is copied is followed by the letter of a keyword and a percent sign (`withLetters_iff`).
-/

namespace CSSC.Body

open CSSC.Lines CSSC.Table CSSC.Header CSSC.Library.Triples

/-! ### The model -/

/-- The file with this `y` flag. -/
def KeywordFile.withLetters (f : KeywordFile) (S : List UInt8) : KeywordFile := { f with flags := { f.flags with letters := S } }

/-- The text of a line after substitution, and `found_id` afterwards. -/
def substOutcome (f : KeywordFile) (d : FullDelta) (n : ℕ) (p : SubstParms) (line : CString) :
    Except Quit (List UInt8 × Bool) :=
  (writeSubst f d n p line).map fun r => (bytesOf r.1, r.2.foundId)

/-- What is done at a letter with this `y` flag. -/
abbrev flagKind (S : List UInt8) : UInt8 → Kind := letterKind fun c => !expandKeyletter c S

/-! ### The flag does not matter inside of keywords -/

theorem emit_withLetters (f : KeywordFile) (S : List UInt8) (d : FullDelta) (n : ℕ) :
    emitKeyletterExpansion (f.withLetters S) d n = emitKeyletterExpansion f d n := by
  induction n with
  | zero => rfl
  | succ n ih =>
    funext c p
    rw [emitKeyletterExpansion, emitKeyletterExpansion, ih]
    rfl

theorem substOutcome_withLetters (f : KeywordFile) (S : List UInt8) (d : FullDelta) (n : ℕ) (p : SubstParms)
    (line : CString) : substOutcome (f.withLetters S) d (n + 1) p line =
      (expandTokens (emitKeyletterExpansion f d (n + 1)) (tokens 37 (flagKind S) line.bytes) p).map
        fun r => (bytesOf r.1, r.2.foundId) := by
  rw [substOutcome, writeSubst_eq, emit_withLetters]
  rfl

/-! ### Copying and passing over -/

theorem expandTokens_spread (emit : UInt8 → SubstParms → Emitted) (ts : List (Token UInt8)) (p : SubstParms) :
    expandTokens emit (ts.flatMap (Token.spread 37)) p = expandTokens emit ts p := by
  induction ts generalizing p with
  | nil => rfl
  | cons x ts ih =>
    rw [List.flatMap_cons]
    cases x with
    | item a =>
      change expandTokens emit (.item a :: ts.flatMap (Token.spread 37)) p = _
      rw [expandTokens, expandTokens, ih]
    | skipped c =>
      change expandTokens emit (.item 37 :: .item c :: .item 37 :: ts.flatMap (Token.spread 37)) p = _
      rw [expandTokens, expandTokens, expandTokens, expandTokens, ih, map_map, map_map]
      rfl
    | taken c =>
      change expandTokens emit (.taken c :: ts.flatMap (Token.spread 37)) p = _
      rw [expandTokens, expandTokens]
      cases emit c p with
      | error q => rfl
      | ok r => simp only [ih]

variable {S : List UInt8}

/-- A flag that names all the keywords takes the same triples as no flag. -/
theorem flagKind_nil (hS : ∀ c, isKnownKeywordChar c = true → c ∈ S) (c : UInt8) :
    flagKind [] c = if flagKind S c = .take then .take else .pass := by
  have hne : S ≠ [] := List.ne_nil_of_mem (hS 77 (by decide))
  have hexp : isKnownKeywordChar c = true → expandKeyletter c S = true := fun hc => by
    simp [expandKeyletter, hS c hc]
  rw [flagKind, flagKind, letterKind, letterKind]
  cases hc : isKnownKeywordChar c with
  | true =>
    rw [hexp hc]
    rfl
  | false => cases expandKeyletter c S <;> simp [expandKeyletter]

theorem flagKind_mark : flagKind [] 37 = .pass := by decide

/-! ### A file in which every keyword stands for something -/

theorem fullFile_no_nul : (0 : UInt8) ∉ ([115, 46, 109] : List UInt8) := by decide

/-- A file with a module, a type and a text of the user. -/
def fullFile : KeywordFile where
  flags := { Flags.initial with type := some [116], module_ := some [109], userDef := some [113] }
  sfile := ⟨[115, 46, 109], fullFile_no_nul⟩
  canon := .ok [47, 115, 46, 109]

/-- None of them begins with a percent sign. -/
theorem fullFile_text {c : UInt8} (hc : isKnownKeywordChar c = true) :
    ∃ b t, quietText fullFile (trunkDelta 1 0 [] []) (january 1) 1 c = .ok (b :: t) ∧ b ≠ 37 := by
  have hall : ([77, 73, 82, 76, 66, 83, 68, 72, 84, 69, 71, 85, 89, 70, 80, 81, 67, 90, 87, 65] : List UInt8).all (fun c =>
      ((quietText fullFile (trunkDelta 1 0 [] []) (january 1) 1 c).toOption.bind List.head?).getD 37 ≠ 37) = true := by
    decide
  have h := of_decide_eq_true (List.all_eq_true.mp hall c ((isKnownKeywordChar_iff c).mp hc))
  cases hq : quietText fullFile (trunkDelta 1 0 [] []) (january 1) 1 c with
  | error q => simp [hq, Except.toOption] at h
  | ok t =>
    cases t with
    | nil => simp [hq, Except.toOption] at h
    | cons b t => exact ⟨b, t, rfl, by simpa [hq, Except.toOption] using h⟩

theorem tokensText_isOk {value : UInt8 → Except Quit (List UInt8)} {ts : List (Token UInt8)}
    (h : ∀ c, .taken c ∈ ts → ∃ t, value c = .ok t) : ∃ t, tokensText value ts = .ok t := by
  induction ts with
  | nil => exact ⟨[], rfl⟩
  | cons x ts ih =>
    obtain ⟨t, ht⟩ := ih fun c hc => h c (List.mem_cons_of_mem _ hc)
    cases x with
    | item a => exact ⟨a :: t, by rw [tokensText, ht]; rfl⟩
    | skipped c => exact ⟨37 :: c :: 37 :: t, by rw [tokensText, ht]; rfl⟩
    | taken c =>
      obtain ⟨s, hs⟩ := h c List.mem_cons_self
      exact ⟨s ++ t, by rw [tokensText, hs, ht]; rfl⟩

theorem tokensText_spread {value : UInt8 → Except Quit (List UInt8)} (ts : List (Token UInt8)) :
    tokensText value (ts.flatMap (Token.spread 37)) = tokensText value ts := by
  induction ts with
  | nil => rfl
  | cons x ts ih =>
    rw [List.flatMap_cons]
    cases x with
    | item a =>
      change tokensText value (.item a :: ts.flatMap (Token.spread 37)) = _
      rw [tokensText, tokensText, ih]
    | skipped c =>
      change tokensText value (.item 37 :: .item c :: .item 37 :: ts.flatMap (Token.spread 37)) = _
      rw [tokensText, tokensText, tokensText, tokensText, ih, map_map, map_map]
      rfl
    | taken c =>
      change tokensText value (.taken c :: ts.flatMap (Token.spread 37)) = _
      rw [tokensText, tokensText, ih]

/-- The text of a line of that file. -/
theorem fullFile_line (n : ℕ) (S : List UInt8) (line : CString) :
    (substOutcome (fullFile.withLetters S) (trunkDelta 1 0 [] []) (n + 2) ⟨none, 1, january 1, false⟩ line).map Prod.fst =
      tokensText (quietText fullFile (trunkDelta 1 0 [] []) (january 1) 1) (tokens 37 (flagKind S) line.bytes) := by
  have hemit : ∀ c, .taken c ∈ tokens 37 (flagKind S) line.bytes → ∀ p : SubstParms, p.now = january 1 →
      p.outLineno = 1 → (p.wstring = none ∨ p.wstring = some defaultWstring) →
      Emits (emitKeyletterExpansion fullFile (trunkDelta 1 0 [] []) (n + 2) c p) p
        (quietText fullFile (trunkDelta 1 0 [] []) (january 1) 1 c) (quietAfter p.wstring c) := by
    intro c hc p hn hl hw
    rw [← hn, ← hl]
    exact emit_quiet n (known_of_mem c hc) hw
  obtain ⟨p', h, -⟩ := expandTokens_quiet (I := fun w => w = none ∨ w = some defaultWstring) quietAfter_quiet hemit
    (p := ⟨none, 1, january 1, false⟩) rfl rfl (.inl rfl)
  have h := congrArg (Except.map Prod.fst) h
  rw [map_map, map_map] at h
  rw [substOutcome_withLetters, map_map]
  refine h.trans ?_
  cases tokensText (quietText fullFile (trunkDelta 1 0 [] []) (january 1) 1) (tokens 37 (flagKind S) line.bytes) <;> rfl

/-! ### When the flag makes no difference -/

/-- A flag that names all the keywords makes no difference to a line, for any file, delta and parameters, exactly when
no triple that is copied is followed by the letter of a keyword and a percent sign. -/
theorem withLetters_iff (hS : ∀ c, isKnownKeywordChar c = true → c ∈ S) (line : CString) :
    (∀ (f : KeywordFile) d n p,
        substOutcome (f.withLetters S) d (n + 3) p line = substOutcome (f.withLetters []) d (n + 3) p line) ↔
      ¬ Clash 37 (flagKind S) (tokens 37 (flagKind S) line.bytes) := by
  rcases spread_tokens flagKind_mark (flagKind_nil hS) line.bytes with ⟨hno, h⟩ | ⟨ts₁, c, y, r, ts₂, h₁, hy, h₂⟩
  · refine iff_of_true (fun f d n p => ?_) hno
    rw [substOutcome_withLetters, substOutcome_withLetters, h, expandTokens_spread]
  · refine iff_of_false (fun hall => ?_) (not_not.mpr ⟨ts₁, c, _, y, r, h₁, flatMap_chars _, hy⟩)
    have heq := congrArg (Except.map Prod.fst) (hall fullFile (trunkDelta 1 0 [] []) 0 ⟨none, 1, january 1, false⟩)
    rw [fullFile_line 1, fullFile_line 1] at heq
    have htext : ∀ c, .taken c ∈ tokens 37 (flagKind S) line.bytes →
        ∃ t, quietText fullFile (trunkDelta 1 0 [] []) (january 1) 1 c = .ok t := by
      intro c hc
      obtain ⟨b, t, h, -⟩ := fullFile_text (known_of_mem c hc)
      exact ⟨_, h⟩
    obtain ⟨t, ht⟩ := tokensText_isOk htext
    have ht' := heq ▸ ht
    rw [h₁] at ht
    rw [h₂] at ht'
    obtain ⟨ta, tb, ha, hb, rfl⟩ := tokensText_append.mp ht
    obtain ⟨ta', tb', ha', hb', he⟩ := tokensText_append.mp ht'
    rw [tokensText_spread, ha] at ha'
    cases ha'
    have hb' := hb'.trans (congrArg Except.ok (List.append_cancel_left he).symm)
    obtain ⟨b, s, hs, hb37⟩ := fullFile_text (letterKind_eq_take hy)
    rw [tokensText, map_eq_ok] at hb
    rw [tokensText, tokensText, tokensText, hs] at hb'
    simp only [map_eq_ok] at hb'
    obtain ⟨t₁, -, rfl⟩ := hb
    obtain ⟨_, ⟨_, ⟨t₂, -, rfl⟩, rfl⟩, h⟩ := hb'
    simp only [List.cons_append, List.cons.injEq] at h
    exact hb37 h.2.2.1

/-- All the keywords. -/
def allLetters : List UInt8 := "MIRLBSDHTEGUYFPQCZWA".toList.map fun c => UInt8.ofNat c.toNat

theorem mem_allLetters (c : UInt8) (hc : isKnownKeywordChar c = true) : c ∈ allLetters :=
  decide_eq_true_iff.mp hc

/-- It makes no difference to `%x% %I%`. -/
theorem withLetters_apart :
    substOutcome (fullFile.withLetters allLetters) (trunkDelta 1 0 [] []) 3 ⟨none, 1, january 1, false⟩
        ⟨[37, 120, 37, 32, 37, 73, 37], by decide⟩ =
      substOutcome (fullFile.withLetters []) (trunkDelta 1 0 [] []) 3 ⟨none, 1, january 1, false⟩
        ⟨[37, 120, 37, 32, 37, 73, 37], by decide⟩ := by
  refine (withLetters_iff mem_allLetters _).mpr ?_ fullFile (trunkDelta 1 0 [] []) 0 _
  have ht : tokens 37 (flagKind allLetters) [37, 120, 37, 32, 37, 73, 37] = [.skipped 120, .item 32, .taken 73] := by
    decide
  have h32 : flagKind allLetters 32 ≠ .take := by decide
  rw [ht, clash_cons]
  simp [Token.chars, h32]

/-- It makes one to `%x%I%`: the keyword is not expanded. -/
theorem withLetters_adjacent :
    substOutcome (fullFile.withLetters allLetters) (trunkDelta 1 0 [] []) 3 ⟨none, 1, january 1, false⟩
        ⟨[37, 120, 37, 73, 37], by decide⟩ ≠
      substOutcome (fullFile.withLetters []) (trunkDelta 1 0 [] []) 3 ⟨none, 1, january 1, false⟩
        ⟨[37, 120, 37, 73, 37], by decide⟩ := by
  intro h
  have hfound := congrArg (fun r => r.toOption.map Prod.snd) h
  exact absurd hfound (by decide)

end CSSC.Body
