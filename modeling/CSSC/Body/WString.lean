import CSSC.Body.WriteSubst

/-!
# What `%W%` stands for, every time

`%W%` stands for the `-w` string, and while it is expanded the string is not in the parameters. If it has a `%W%` of
its own, what is put back afterwards is not the string. So the first occurrence is expanded with the `-w` string, and
the others with what the first one left in its place (`writeLines_spelled`). `same_as_first_iff` says when all are
expanded as if they were the first.
-/

namespace CSSC.Body

open CSSC.Lines CSSC.Table CSSC.Header CSSC.Library.Decimal CSSC.Library.Triples

/-! ### The model -/

/-- The texts that `%W%` was expanded to, each with the number of its line. -/
def wTexts (out : List Emission) : List (UInt32 × List UInt8) :=
  out.filterMap fun
    | .expansion lineno 87 text => some (lineno, text)
    | _ => none

/-- Each `%W%` is expanded to what it would be as the first keyword of the file. -/
def SameAsFirst (f : KeywordFile) (d : FullDelta) (n : ℕ) (p : SubstParms) (out : List Emission) : Prop :=
  ∀ x ∈ wTexts out, ∃ p', emitKeyletterExpansion f d n 87 { p with outLineno := x.1 } = .ok (some x.2, p')

/-- A keyword that stands for nothing: the module, the type, the user's text, or the name of the file, if it is empty. -/
def StandsForNothing (f : KeywordFile) (c : UInt8) : Prop :=
  c = 77 ∧ cstr f.getModuleName = [] ∨ c = 89 ∧ cstr (f.flags.type.getD []) = [] ∨
    c = 81 ∧ cstr (f.flags.userDef.getD []) = [] ∨ c = 70 ∧ basePart f.sfile.bytes = [] ∨
    c = 80 ∧ f.canon.map cstr = .ok []

/-- A string with one `%W%` and besides it only keywords that stand for nothing. -/
def OnlyW (f : KeywordFile) (w : CString) : Prop :=
  ∃ a b, tokens 37 forced w.bytes = a ++ .taken 87 :: b ∧ ∀ x ∈ a ++ b, ∃ c, x = .taken c ∧ StandsForNothing f c

/-- The keywords that are expanded in the lines. -/
def lineLetters (f : KeywordFile) (lines : List CString) : List UInt8 :=
  lines.flatMap fun line => taken 37 (lineKind f) line.bytes

/-- The condition: at most one `%W%` is expanded, or the `-w` string, if there is one, does not contain `%W%` or is not
more than that. -/
def Repeatable (f : KeywordFile) (w : Option CString) (lines : List CString) : Prop :=
  (lineLetters f lines).count 87 ≤ 1 ∨ ∀ s, w = some s → 87 ∉ taken 37 forced s.bytes ∨ OnlyW f s

/-! ### The occurrences along a run -/

section

variable {f : KeywordFile} {d : FullDelta}

theorem wTexts_append (a b : List Emission) : wTexts (a ++ b) = wTexts a ++ wTexts b := List.filterMap_append

theorem wTexts_plain (b : UInt8) (out : List Emission) : wTexts (.plain b :: out) = wTexts out := rfl

theorem wTexts_W (lineno : UInt32) (text : List UInt8) (out : List Emission) :
    wTexts (.expansion lineno 87 text :: out) = (lineno, text) :: wTexts out := rfl

theorem wTexts_other {c : UInt8} (hc : c ≠ 87) (lineno : UInt32) (text : List UInt8) (out : List Emission) :
    wTexts (.expansion lineno c text :: out) = wTexts out := by
  rw [wTexts, List.filterMap_cons_none, wTexts]
  split <;> simp_all

variable (f d) in
/-- These texts are what `%W%` stands for, one after the other, beginning with this `-w` string. -/
def Spelled (now : SccsDate) : Option CString → List (UInt32 × List UInt8) → Prop
  | _, [] => True
  | w, x :: xs => wText f d now x.1 w = .ok x.2 ∧ Spelled now (some (wAfter w)) xs

/-- The `-w` string after some occurrences. -/
def wAfterAll (w : Option CString) (xs : List (UInt32 × List UInt8)) : Option CString :=
  xs.foldl (fun w _ => some (wAfter w)) w

theorem spelled_append {now : SccsDate} {w : Option CString} {xs ys : List (UInt32 × List UInt8)} :
    Spelled f d now w (xs ++ ys) ↔ Spelled f d now w xs ∧ Spelled f d now (wAfterAll w xs) ys := by
  induction xs generalizing w with
  | nil => simp [Spelled, wAfterAll]
  | cons x xs ih =>
    rw [List.cons_append, Spelled, Spelled, ih, and_assoc]
    rfl

/-- The occurrences in the pieces of a line. -/
theorem expandTokens_spelled (n : ℕ) {ts : List (Token UInt8)} (ht : ∀ c, .taken c ∈ ts → isKnownKeywordChar c = true)
    {p p' : SubstParms} {out : List Emission}
    (h : expandTokens (emitKeyletterExpansion f d (n + 3)) ts p = .ok (out, p')) :
    Spelled f d p.now p.wstring (wTexts out) ∧ p'.wstring = wAfterAll p.wstring (wTexts out) ∧ p'.now = p.now ∧
      p'.outLineno = p.outLineno ∧ (wTexts out).length = ts.count (.taken 87) := by
  induction ts generalizing p out with
  | nil =>
    cases h
    exact ⟨trivial, rfl, rfl, rfl, rfl⟩
  | cons x ts ih =>
    have ih := @ih fun c hc => ht c (List.mem_cons_of_mem _ hc)
    cases x with
    | item a =>
      rw [expandTokens, map_eq_ok] at h
      obtain ⟨⟨out₁, p₁⟩, h, he⟩ := h
      cases he
      simpa [wTexts_plain] using ih h
    | skipped c =>
      rw [expandTokens, map_eq_ok] at h
      obtain ⟨⟨out₁, p₁⟩, h, he⟩ := h
      cases he
      simpa [wTexts_plain] using ih h
    | taken c =>
      obtain ⟨p₁, he, hn, hl, hw⟩ := emit_line (f := f) (d := d) n (ht c List.mem_cons_self) p
      rw [expandTokens, he] at h
      cases ht : lineText f d p c with
      | error q =>
        rw [ht] at h
        cases h
      | ok t =>
        rw [ht] at h
        obtain ⟨⟨out₁, p₂⟩, h, he⟩ := map_eq_ok.mp h
        cases he
        obtain ⟨hs, hw', hn', hl', hc'⟩ := ih h
        by_cases hc : c = 87
        · subst hc
          rw [lineAfter, if_pos rfl] at hw
          rw [lineText, if_pos rfl] at ht
          rw [wTexts_W, Option.getD_some]
          refine ⟨⟨ht, ?_⟩, ?_, hn'.trans hn, hl'.trans hl, ?_⟩
          · rw [← hn, ← hw]
            exact hs
          · rw [hw', hw]
            rfl
          · rw [List.length_cons, hc', List.count_cons_self]
        · rw [lineAfter, if_neg hc] at hw
          rw [wTexts_other hc, List.count_cons_of_ne (by simpa using hc)]
          rw [hn, hw] at hs
          rw [hw] at hw'
          exact ⟨hs, hw', hn'.trans hn, hl'.trans hl, hc'⟩

theorem count_taken {kind : UInt8 → Kind} (l : List UInt8) :
    (taken 37 kind l).count 87 = (tokens 37 kind l).count (.taken 87) := by
  rw [taken]
  induction tokens 37 kind l with
  | nil => rfl
  | cons x ts ih =>
    cases x with
    | item a => simpa using ih
    | skipped c => simpa using ih
    | taken c =>
      simpa [List.count_cons] using ih

/-- The first occurrence is expanded with the `-w` string, the others with what is left in its place. -/
theorem writeLines_spelled (n : ℕ) {p p' : SubstParms} {lines : List CString} {out : List Emission}
    (h : writeLines f d (n + 3) p lines = .ok (out, p')) :
    Spelled f d p.now p.wstring (wTexts out) ∧ (wTexts out).length = (lineLetters f lines).count 87 := by
  induction lines generalizing p out with
  | nil =>
    cases h
    exact ⟨trivial, rfl⟩
  | cons line lines ih =>
    rw [writeLines, writeSubst_eq] at h
    split at h
    · cases h
    · next out₁ p₁ h₁ =>
      obtain ⟨⟨out₂, p₂⟩, h₂, he⟩ := map_eq_ok.mp h
      cases he
      obtain ⟨hs, hw, hn, -, hc⟩ := expandTokens_spelled n known_of_mem h₁
      obtain ⟨hs', hc'⟩ := ih h₂
      rw [wTexts_append, wTexts_plain, spelled_append]
      refine ⟨⟨hs, ?_⟩, ?_⟩
      · rw [← hn, ← hw]
        exact hs'
      · change _ = (taken 37 (lineKind f) line.bytes ++ lineLetters f lines).count 87
        rw [List.length_append, hc, hc', List.count_append, count_taken]

/-! ### When they are all the same -/

theorem wAfter_of_not_mem {w : CString} (h : 87 ∉ taken 37 forced w.bytes) : wAfter (some w) = w := if_neg h

theorem wAfter_of_mem {w : CString} (h : 87 ∈ taken 37 forced w.bytes) : wAfter (some w) = defaultWstring := if_pos h

/-- A second `%W%` leaves the same `-w` string as the first. -/
theorem wAfter_wAfter (w : Option CString) : wAfter (some (wAfter w)) = wAfter w := by
  cases w with
  | none => exact wAfter_default
  | some w =>
    by_cases h : 87 ∈ taken 37 forced w.bytes
    · rw [wAfter_of_mem h, wAfter_default]
    · rw [wAfter_of_not_mem h, wAfter_of_not_mem h]

theorem wText_default (now : SccsDate) (lineno : UInt32) : wText f d now lineno (some defaultWstring) = defaultText f d :=
  tokensText_default now lineno

/-- All the occurrences but the first are expanded with the same `-w` string. -/
theorem spelled_tail {now : SccsDate} {w : Option CString} {xs : List (UInt32 × List UInt8)}
    (h : Spelled f d now (some (wAfter w)) xs) : ∀ x ∈ xs, wText f d now x.1 (some (wAfter w)) = .ok x.2 := by
  induction xs generalizing w with
  | nil => nofun
  | cons x xs ih =>
    obtain ⟨hx, hxs⟩ := h
    have hxs := ih (w := some (wAfter w)) hxs
    rw [wAfter_wAfter] at hxs
    exact List.forall_mem_cons.mpr ⟨hx, hxs⟩

theorem sameAsFirst_iff (n : ℕ) (p : SubstParms) (out : List Emission) :
    SameAsFirst f d (n + 3) p out ↔ ∀ x ∈ wTexts out, wText f d p.now x.1 p.wstring = .ok x.2 := by
  refine forall₂_congr fun x _ => ?_
  obtain ⟨p', h, -⟩ := emit_w (f := f) (d := d) n { p with outLineno := x.1 }
  rw [h]
  constructor
  · rintro ⟨p₁, h₁⟩
    obtain ⟨t, ht, he⟩ := map_eq_ok.mp h₁
    cases he
    exact ht
  · intro h₁
    rw [h₁]
    exact ⟨p', rfl⟩

/-! ### Strings that are only `%W%` -/

/-- Only keywords that stand for nothing make an empty text. -/
theorem tokensText_eq_nil_iff {value : UInt8 → Except Quit (List UInt8)} {ts : List (Token UInt8)} :
    tokensText value ts = .ok [] ↔ ∀ x ∈ ts, ∃ c, x = .taken c ∧ value c = .ok [] := by
  induction ts with
  | nil => simp [tokensText]
  | cons x ts ih =>
    cases x with
    | item y => simp [tokensText, map_eq_ok]
    | skipped c => simp [tokensText, map_eq_ok]
    | taken c =>
      rw [tokensText, List.forall_mem_cons]
      cases hc : value c with
      | error q => simp [hc]
      | ok t =>
        rw [← ih]
        simp [map_eq_ok, hc, and_comm]

theorem defaultText_ne_nil : defaultText f d ≠ .ok [] := by
  rw [defaultText]
  cases d.id.print <;> simp [Except.map]

theorem aText_ne_nil : aText f d ≠ .ok [] := by
  rw [aText]
  cases d.id.print <;> simp [Except.map]

theorem print_ne_nil (s : Sid) : s.print ≠ .ok [] := by
  intro h
  have := Sid.print_ok h
  simp [Sid.text, intDecimal_ne_nil] at this

theorem printf_ne_nil (s : Sid) (c : UInt8) : s.printf c true ≠ .ok [] := by
  unfold Sid.printf
  split
  · split <;> simp [intDecimal_ne_nil]
  · simp

theorem twoDigits_ne_nil (n : ℤ) : twoDigits n ≠ [] := by
  rw [twoDigits]
  split
  · simp
  · exact intDecimal_ne_nil n

theorem date_printf_ne_nil (s : SccsDate) (c : UInt8) : s.printf c ≠ .ok [] := by
  unfold SccsDate.printf
  split <;> simp [SccsDate.dateText, SccsDate.timeText, twoDigits_ne_nil]

theorem quietText_eq_nil_iff {now : SccsDate} {lineno : UInt32} {c : UInt8} (hc : isKnownKeywordChar c = true) :
    quietText f d now lineno c = .ok [] ↔ StandsForNothing f c := by
  rw [quietText]
  by_cases hW : c = 87
  · subst hW
    rw [if_pos rfl]
    simp [defaultText_ne_nil, StandsForNothing]
  · rw [if_neg hW]
    by_cases hA : c = 65
    · subst hA
      rw [if_pos rfl]
      simp [aText_ne_nil, StandsForNothing]
    · rw [if_neg hA]
      have hsome := mt (keyText_eq_none_iff f d now lineno hW hA).mp (by simp [hc])
      have hpath : (f.canon.mapError Quit.failure).map cstr = .ok [] ↔ f.canon.map cstr = .ok [] := by
        cases f.canon <;> simp [Except.mapError, Except.map]
      revert hsome
      unfold keyText StandsForNothing
      split
      all_goals simp [print_ne_nil, printf_ne_nil, date_printf_ne_nil, decimal_ne_nil, hpath]

/-- With one `%W%` and nothing else, `%W%` stands for what it stands for by default. -/
theorem onlyW_iff {w : CString} (h : 87 ∈ taken 37 forced w.bytes) {now : SccsDate} {lineno : UInt32} {t : List UInt8}
    (ht : defaultText f d = .ok t) : wText f d now lineno (some w) = .ok t ↔ OnlyW f w := by
  have hknown : ∀ {c}, .taken c ∈ tokens 37 forced w.bytes → isKnownKeywordChar c = true := fun hc => known_of_mem _ hc
  have h87 : quietText f d now lineno 87 = .ok t := ht
  rw [wText]
  constructor
  · intro hw
    obtain ⟨a, b, hab⟩ := List.append_of_mem (mem_taken.mp h)
    rw [hab] at hw hknown
    obtain ⟨ta, _, ha, hb, he⟩ := tokensText_append.mp hw
    rw [tokensText, h87] at hb
    obtain ⟨tb, hb', rfl⟩ := map_eq_ok.mp hb
    -- by its length the text is that of this `%W%` alone
    have hlen := congrArg List.length he
    rw [List.length_append, List.length_append] at hlen
    have hta : ta = [] := List.length_eq_zero_iff.mp (by omega)
    have htb : tb = [] := List.length_eq_zero_iff.mp (by omega)
    subst hta htb
    refine ⟨a, b, hab, fun x hx => ?_⟩
    have hnil : ∃ c, x = .taken c ∧ quietText f d now lineno c = .ok [] := by
      rcases List.mem_append.mp hx with hx | hx
      · exact tokensText_eq_nil_iff.mp ha x hx
      · exact tokensText_eq_nil_iff.mp hb' x hx
    obtain ⟨c, rfl, hc⟩ := hnil
    refine ⟨c, rfl, (quietText_eq_nil_iff (hknown ?_)).mp hc⟩
    simpa [or_left_comm] using Or.inr (List.mem_append.mp hx)
  · rintro ⟨a, b, hab, hx⟩
    rw [hab] at hknown ⊢
    have hnil : ∀ x ∈ a ++ b, ∃ c, x = .taken c ∧ quietText f d now lineno c = .ok [] := by
      intro x hx'
      obtain ⟨c, rfl, hc⟩ := hx x hx'
      refine ⟨c, rfl, (quietText_eq_nil_iff (hknown ?_)).mpr hc⟩
      simpa [or_left_comm] using Or.inr (List.mem_append.mp hx')
    refine tokensText_append.mpr ⟨[], t, ?_, ?_, rfl⟩
    · exact tokensText_eq_nil_iff.mpr fun x hx => hnil x (List.mem_append_left _ hx)
    · rw [tokensText, h87, tokensText_eq_nil_iff.mpr fun x hx => hnil x (List.mem_append_right _ hx)]
      simp [Except.map]

/-- A file's lines are written without going round in circles, and all the occurrences of `%W%` in them stand for what
the first keyword of the file would stand for exactly when the condition holds. -/
theorem same_as_first_iff (f : KeywordFile) (d : FullDelta) (n : ℕ) (p : SubstParms) (lines : List CString) :
    writeLines f d (n + 3) p lines ≠ .error .diverges ∧
    ∀ out p', writeLines f d (n + 3) p lines = .ok (out, p') →
      (SameAsFirst f d (n + 3) p out ↔ Repeatable f p.wstring lines) := by
  refine ⟨writeLines_ne_diverges n p lines, fun out p' h => ?_⟩
  obtain ⟨hs, hc⟩ := writeLines_spelled n h
  rw [sameAsFirst_iff, Repeatable, ← hc]
  cases hx : wTexts out with
  | nil => simp
  | cons x xs =>
    rw [hx] at hs
    have htail := spelled_tail hs.2
    rw [List.forall_mem_cons]
    constructor
    · rintro ⟨-, hall⟩
      cases xs with
      | nil => exact .inl le_rfl
      | cons y ys =>
        refine .inr fun s hw => ?_
        by_cases h87 : 87 ∈ taken 37 forced s.bytes
        · -- the second occurrence is expanded with the default string
          have hy := htail y List.mem_cons_self
          rw [hw, wAfter_of_mem h87, wText_default] at hy
          exact .inr ((onlyW_iff h87 hy).mp (hw ▸ hall y List.mem_cons_self))
        · exact .inl h87
    · intro hcond
      refine ⟨hs.1, fun y hy => ?_⟩
      rcases hcond with hlen | hcond
      · rw [List.length_cons] at hlen
        rw [List.length_eq_zero_iff.mp (by omega : xs.length = 0)] at hy
        cases hy
      · have hyt := htail y hy
        cases hw : p.wstring with
        | none =>
          rw [hw] at hyt
          exact (wText_default p.now y.1).symm.trans hyt
        | some s =>
          rw [hw] at hyt
          by_cases h87 : 87 ∈ taken 37 forced s.bytes
          · rw [wAfter_of_mem h87, wText_default] at hyt
            exact (onlyW_iff h87 hyt).mpr ((hcond s hw).resolve_left fun hn => hn h87)
          · rwa [wAfter_of_not_mem h87] at hyt

end

/-- `s.m`, without flags. -/
def plainFile : KeywordFile := ⟨Flags.initial, ⟨[115, 46, 109], by decide⟩, .ok [47, 115, 46, 109]⟩

/-- The parameters that `get` starts with. -/
def startParms (w : Option CString) : SubstParms := ⟨w, 0, ⟨2001, 7, 11, 1, 7, 36⟩, false⟩

/-- `%W%`. -/
def lineW : CString := ⟨[37, 87, 37], by decide⟩

/-- Without a `-w` string, two lines with `%W%` are the same. -/
theorem same_as_first_twice : ∃ out p',
    writeLines plainFile (trunkDelta 1 0 [] []) 3 (startParms none) [lineW, lineW] = .ok (out, p') ∧
      SameAsFirst plainFile (trunkDelta 1 0 [] []) 3 (startParms none) out := by
  have h := (same_as_first_iff plainFile (trunkDelta 1 0 [] []) 0 (startParms none) [lineW, lineW]).2
  exact ⟨_, _, rfl, (h _ _ rfl).mpr (.inr nofun)⟩

/-- With the `-w` string `x%W%`, the second `%W%` loses the `x`. -/
theorem second_w_differs : ∃ out p',
    writeLines plainFile (trunkDelta 1 0 [] []) 3 (startParms (some ⟨[120, 37, 87, 37], by decide⟩)) [lineW, lineW] =
      .ok (out, p') ∧
    ¬ SameAsFirst plainFile (trunkDelta 1 0 [] []) 3 (startParms (some ⟨[120, 37, 87, 37], by decide⟩)) out := by
  refine ⟨_, _, rfl, fun h => ?_⟩
  obtain ⟨p', hp⟩ := h (2, [64, 40, 35, 41, 109, 9, 49, 46, 49]) (by decide)
  have htext : (emitKeyletterExpansion plainFile (trunkDelta 1 0 [] []) 3 87
      { startParms (some ⟨[120, 37, 87, 37], by decide⟩) with outLineno := 2 }).map Prod.fst =
        .ok (some [64, 40, 35, 41, 109, 9, 49, 46, 49]) := by
    rw [hp]
    rfl
  exact absurd htext (by decide)

end CSSC.Body
