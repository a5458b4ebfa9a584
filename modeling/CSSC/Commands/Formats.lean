import CSSC.Commands.Prs

/-!
# Formats

What the format of `prs` means does not need a loop: it is cut into pieces, and each piece stands for something. A
`Piece` is a keyword between colons, an escape, or a character that stands for itself; a character fits where no colon
that is copied starts a keyword, and no backslash an escape (`Piece.Fits`). A format is read as some pieces if
together they are the format (`Reads`), and **it is read in one way** (`reads_unique`).

The loop goes over these pieces (`formatLoop_sources`), and what it prints is what they stand for
(`printDelta_reads`), save in two cases. When the pieces end before a colon and one character (`Overruns`), the loop
reads what comes after the terminator; and with `:GB:` in a file that has the largest number it does not come back
(`Hangs`). So **a format is interpreted exactly when neither happens** (`printDelta_interpreted_iff`).
-/

namespace CSSC.Commands

open CSSC.Lines CSSC.Body CSSC.Table CSSC.Header

/-! ### What a format means -/

/-- A piece of a format. -/
inductive Piece where
  /-- A character that stands for itself. -/
  | copied (c : UInt8)
  /-- A backslash with the character after it. -/
  | escape (c : UInt8)
  /-- A newline escape at the end. -/
  | lastNewline
  /-- A keyword between its colons. -/
  | keyword (k : Keyword)
  deriving DecidableEq, Repr

namespace Piece

/-- A piece as it is written in a format. -/
def source : Piece → List UInt8
  | copied c => [c]
  | escape c => [92, c]
  | lastNewline => [92, 110]
  | keyword k => 58 :: (k.letters ++ [58])

/-- What an escape stands for. -/
def escapeText (c : UInt8) : List UInt8 :=
  if c = 110 then [10] else if c = 116 then [9] else if c = 92 then [92] else [92, c]

/-- What a piece stands for, given what the keywords stand for. -/
def text (value : Keyword → Except Quit (List UInt8)) : Piece → Except Quit (List UInt8)
  | copied c => .ok [c]
  | escape c => .ok (escapeText c)
  | lastNewline => .ok []
  | keyword k => value k

/-- A format that goes on like this can have the piece before it. -/
def Fits (after : List UInt8) : Piece → Prop
  | copied c => (c = 92 → after = []) ∧ (c = 58 → after.length ≠ 1 ∧ ∀ (k : Keyword) s, after ≠ k.letters ++ 58 :: s)
  | escape c => c = 110 → after ≠ []
  | lastNewline => after = []
  | keyword _ => True

end Piece

/-- The format of some pieces. -/
def sources (ps : List Piece) : List UInt8 := ps.flatMap Piece.source

/-- What some pieces stand for. -/
def texts (value : Keyword → Except Quit (List UInt8)) : List Piece → Except Quit (List UInt8)
  | [] => .ok []
  | p :: ps => do
    let t ← p.text value
    let ts ← texts value ps
    return t ++ ts

/-- The pieces fit before this end of a format. -/
def Fit (rest : List UInt8) : List Piece → Prop
  | [] => True
  | p :: ps => p.Fits (sources ps ++ rest) ∧ Fit rest ps

/-- A format is read as these pieces. -/
structure Reads (format : List UInt8) (ps : List Piece) : Prop where
  /-- Nothing is lost, and nothing changes its place. -/
  lossless : sources ps = format
  /-- Each piece is one that comes there. -/
  fit : Fit [] ps

/-- After some pieces the format ends with a colon and one character. -/
def Overruns (format : List UInt8) : Prop := ∃ ps a, format = sources ps ++ [58, a] ∧ Fit [58, a] ps

/-- What a keyword stands for. -/
def keywordText (f : PrsFile) (d : FullDelta) : Keyword → Except Quit (List UInt8)
  | .Dt => texts (keyText f d) [.keyword .DT, .copied 32, .keyword .I, .copied 32, .keyword .D, .copied 32, .keyword .T,
      .copied 32, .keyword .P, .copied 32, .keyword .DS, .copied 32, .keyword .DP]
  | .DL => texts (keyText f d) [.keyword .Li, .copied 47, .keyword .Ld, .copied 47, .keyword .Lu]
  | .DI => .ok (printSeqList d.included ++ (if d.excluded = [] then [] else 47 :: printSeqList d.excluded) ++
      (if d.ignored = [] then [] else 47 :: printSeqList d.ignored))
  | .W => texts (keyText f d) [.keyword .Z, .keyword .M, .copied 9, .keyword .I]
  | .A => texts (keyText f d) [.keyword .Z, .keyword .Y, .copied 32, .keyword .M, .copied 32, .keyword .I, .keyword .Z]
  | k => keyText f d k

/-- The loop comes to this end of the format: what is in front of it are pieces, and their keywords are printed. -/
def Arrives (f : PrsFile) (d : FullDelta) (format rest : List UInt8) : Prop :=
  ∃ ps, format = sources ps ++ rest ∧ Fit rest ps ∧ ∃ t, texts (keywordText f d) ps = .ok t

/-- The loop comes to `:GB:`, and the file has the largest number that there is. -/
def Hangs (f : PrsFile) (d : FullDelta) (format : List UInt8) : Prop :=
  65535 ≤ f.deltaTable.table.highestSeqno ∧ (∃ gotten, f.deltaTable.deltaAtSeq d.seq = .ok gotten) ∧
    ∃ rest, Arrives f d format ((Piece.keyword .GB).source ++ rest)

/-- A format is interpreted as its pieces say, up to its end or to a keyword that cannot be printed, and `printDelta n`
returns. -/
def Interpreted (f : PrsFile) (d : FullDelta) (n : ℕ) (format : List UInt8) : Prop :=
  printDelta f d n format ≠ .error .diverges ∧
    ∃ ps rest, format = sources ps ++ rest ∧ Fit rest ps ∧ printDelta f d n format = texts (keywordText f d) ps ∧
      (rest = [] ∨ ∃ q, texts (keywordText f d) ps = .error q)

/-! ### The loop, piece by piece -/

theorem sources_append (ps qs : List Piece) : sources (ps ++ qs) = sources ps ++ sources qs := List.flatMap_append

theorem sources_cons (p : Piece) (ps : List Piece) (rest : List UInt8) :
    sources (p :: ps) ++ rest = p.source ++ (sources ps ++ rest) := by
  rw [sources, List.flatMap_cons, List.append_assoc]
  rfl

/-- What `print_delta_key` does, given what the keywords stand for. -/
def recognised (value : Keyword → Except Quit (List UInt8)) (key : ℕ) : Except Quit (Option (List UInt8)) :=
  match Keyword.ofKey key with
  | none => .ok none
  | some k => (value k).map some

theorem printDeltaKey_eq (f : PrsFile) (d : FullDelta) (format : List UInt8 → Except Quit (List UInt8)) :
    printDeltaKey f d format = recognised (doPrintDeltaKey f d format) := by
  funext key
  cases h : Keyword.ofKey key <;> simp only [printDeltaKey, recognised, h]

section

variable {value : Keyword → Except Quit (List UInt8)} {key : ℕ}

theorem recognised_some {k : Keyword} (h : Keyword.ofKey key = some k) :
    recognised value key = (value k).map some := by
  rw [recognised, h]

theorem recognised_none (h : ∀ k, Keyword.ofKey key ≠ some k) : recognised value key = .ok none := by
  rw [recognised, Option.eq_none_iff_forall_ne_some.mpr h]

theorem map_eq_bind (x : Except Quit (List UInt8)) (t : List UInt8) :
    x.map (t ++ ·) = (do let ts ← x; return t ++ ts) := by
  cases x <;> rfl

/-- A character that is neither a backslash nor a colon is copied. -/
theorem formatLoop_copied {c : UInt8} {after : List UInt8} (h92 : c = 92 → after = []) (h58 : c ≠ 58) :
    formatLoop (recognised value) (c :: after) = (formatLoop (recognised value) after).map (c :: ·) := by
  match after with
  | [] => rfl
  | [a] | [a, b] | a :: b :: e :: s => exact (if_neg fun h => absurd (h92 h) (by simp)).trans (if_pos h58)

/-- A colon that starts no keyword is copied. -/
theorem formatLoop_colon {after : List UInt8} (h0 : 0 ∉ after) (h1 : after.length ≠ 1)
    (hk : ∀ (k : Keyword) s, after ≠ k.letters ++ 58 :: s) :
    formatLoop (recognised value) (58 :: after) = (formatLoop (recognised value) after).map (58 :: ·) := by
  -- what is between two colons would be the letters of a keyword
  have hone : ∀ {a s}, after = a :: 58 :: s → recognised value (key1 a) = .ok none := by
    rintro a s rfl
    refine recognised_none fun k hs => hk k s ?_
    rw [Keyword.ofKey_key1.mp hs]
    rfl
  have htwo : ∀ {a b s}, after = a :: b :: 58 :: s → recognised value (key2 a b) = .ok none := by
    rintro a b s rfl
    refine recognised_none fun k hs => hk k s ?_
    rw [(Keyword.ofKey_key2 fun ha => h0 (ha ▸ List.mem_cons_self)).mp hs]
    rfl
  match after with
  | [] => rfl
  | [a] => exact absurd rfl h1
  | [a, b] =>
    conv_lhs => rw [formatLoop, if_neg (by decide), if_neg (by decide)]
    split
    · next hb =>
      rw [hone (by rw [hb])]
    · rfl
  | a :: b :: e :: s =>
    conv_lhs => rw [formatLoop, if_neg (by decide), if_neg (by decide)]
    split
    · next hb =>
      rw [hone (by rw [hb])]
    · split
      · next he =>
        rw [htwo (by rw [he])]
      · rfl

/-- A keyword is expanded. -/
theorem formatLoop_keyword (k : Keyword) (after : List UInt8) :
    formatLoop (recognised value) (58 :: (k.letters ++ 58 :: after)) = (do
      let t ← value k
      let ts ← formatLoop (recognised value) after
      return t ++ ts) := by
  rcases k.letters_cases with ⟨a, ha, -⟩ | ⟨a, b, hab, h0, -, hb⟩
  · have hr : recognised value (key1 a) = (value k).map some := recognised_some (Keyword.ofKey_key1.mpr ha)
    rw [ha, List.singleton_append]
    cases after with
    | nil | cons e s =>
      conv_lhs => rw [formatLoop, if_neg (by decide), if_neg (by decide), if_pos rfl, hr]
      cases value k with
      | error q => rfl
      | ok t => exact map_eq_bind _ t
  · rw [hab, List.cons_append, List.singleton_append, formatLoop, if_neg (by decide), if_neg (by decide), if_neg hb,
      if_pos rfl, recognised_some ((Keyword.ofKey_key2 h0).mpr hab)]
    cases value k with
    | error q => rfl
    | ok t => exact map_eq_bind _ t

/-- An escape is translated or copied. -/
theorem formatLoop_escape {c : UInt8} {after : List UInt8} (h : c = 110 → after ≠ []) :
    formatLoop (recognised value) (92 :: c :: after) =
      (formatLoop (recognised value) after).map (Piece.escapeText c ++ ·) := by
  have hloop : formatLoop (recognised value) (92 :: c :: after) =
      if c = 110 then if after = [] then .ok [] else (formatLoop (recognised value) after).map (10 :: ·)
      else if c = 116 then (formatLoop (recognised value) after).map (9 :: ·)
      else if c = 92 then (formatLoop (recognised value) after).map (92 :: ·)
      else (formatLoop (recognised value) after).map (92 :: c :: ·) := by
    match after with
    | [] | [a] | a :: b :: s => exact if_pos rfl
  rw [hloop, Piece.escapeText]
  split
  · next hc =>
    rw [if_neg (h hc)]
    rfl
  · split
    · rfl
    · split <;> rfl

/-- The first piece of a format is printed, and then the rest. -/
theorem formatLoop_piece {p : Piece} {after : List UInt8} (h0 : 0 ∉ after) (hp : p.Fits after) :
    formatLoop (recognised value) (p.source ++ after) = (do
      let t ← p.text value
      let ts ← formatLoop (recognised value) after
      return t ++ ts) := by
  cases p with
  | copied c =>
    have hmap : formatLoop (recognised value) (c :: after) =
        (formatLoop (recognised value) after).map (c :: ·) := by
      by_cases hc : c = 58
      · subst hc
        exact formatLoop_colon h0 (hp.2 rfl).1 (hp.2 rfl).2
      · exact formatLoop_copied hp.1 hc
    exact hmap.trans (map_eq_bind _ [c])
  | escape c => exact (formatLoop_escape hp).trans (map_eq_bind _ _)
  | lastNewline =>
    have hp : after = [] := hp
    rw [hp]
    rfl
  | keyword k =>
    rw [Piece.source, List.cons_append, List.append_assoc]
    exact formatLoop_keyword k after

/-- The loop goes over the pieces of a format. -/
theorem formatLoop_sources {ps : List Piece} {rest : List UInt8} (h0 : 0 ∉ sources ps ++ rest) (hp : Fit rest ps) :
    formatLoop (recognised value) (sources ps ++ rest) = (do
      let t ← texts value ps
      let ts ← formatLoop (recognised value) rest
      return t ++ ts) := by
  induction ps with
  | nil => cases hr : formatLoop (recognised value) rest <;> simp [sources, texts, hr, pure, Except.pure]
  | cons p ps ih =>
    rw [sources_cons] at h0 ⊢
    have h0' : 0 ∉ sources ps ++ rest := fun h => h0 (List.mem_append_right _ h)
    rw [formatLoop_piece h0' hp.1, ih h0' hp.2, texts]
    cases p.text value with
    | error q => rfl
    | ok t =>
      cases texts value ps with
      | error q => rfl
      | ok t' => cases formatLoop (recognised value) rest <;> simp [pure, Except.pure]

theorem formatLoop_reads {format : List UInt8} {ps : List Piece} (h0 : 0 ∉ format) (h : Reads format ps) :
    formatLoop (recognised value) format = texts value ps := by
  obtain ⟨rfl, hfit⟩ := h
  have h : formatLoop (recognised value) (sources ps ++ []) = _ := formatLoop_sources (by simpa using h0) hfit
  rw [List.append_nil] at h
  rw [h]
  cases texts value ps <;> simp [formatLoop, pure, Except.pure]

end

/-! ### Every format is read in one way -/

/-- A format is pieces up to its end, or up to a colon and one character. -/
theorem exists_pieces (s : List UInt8) :
    ∃ ps rest, s = sources ps ++ rest ∧ Fit rest ps ∧ (rest = [] ∨ ∃ a, rest = [58, a]) := by
  induction hn : s.length using Nat.strong_induction_on generalizing s with
  | _ n ih =>
    subst hn
    -- once the first piece is found, the rest is read by the induction hypothesis
    have step : ∀ (p : Piece) t, s = p.source ++ t → p.Fits t →
        ∃ ps rest, s = sources ps ++ rest ∧ Fit rest ps ∧ (rest = [] ∨ ∃ a, rest = [58, a]) := by
      rintro p t rfl hp
      have hlen : t.length < (p.source ++ t).length := by
        have : 0 < p.source.length := by cases p <;> simp [Piece.source]
        rw [List.length_append]
        omega
      obtain ⟨ps, rest, rfl, hfit, hrest⟩ := ih t.length hlen t rfl
      exact ⟨p :: ps, rest, (sources_cons p ps rest).symm, ⟨hp, hfit⟩, hrest⟩
    match s with
    | [] => exact ⟨[], [], rfl, trivial, .inl rfl⟩
    | c :: s =>
      by_cases hc : c = 92
      · subst hc
        match s with
        | [] => exact step (.copied 92) [] rfl ⟨fun _ => rfl, nofun⟩
        | a :: s =>
          by_cases hend : a = 110 ∧ s = []
          · obtain ⟨rfl, rfl⟩ := hend
            exact step .lastNewline [] rfl rfl
          · exact step (.escape a) s rfl fun ha hs => hend ⟨ha, hs⟩
      · by_cases h58 : c = 58
        · subst h58
          by_cases hk : ∃ (k : Keyword) (t : List UInt8), s = k.letters ++ 58 :: t
          · obtain ⟨k, t, rfl⟩ := hk
            exact step (.keyword k) t (by simp [Piece.source]) trivial
          · by_cases h1 : s.length = 1
            · obtain ⟨a, rfl⟩ := List.length_eq_one_iff.mp h1
              exact ⟨[], [58, a], rfl, trivial, .inr ⟨a, rfl⟩⟩
            · exact step (.copied 58) s rfl ⟨nofun, fun _ => ⟨h1, fun k t ht => hk ⟨k, t, ht⟩⟩⟩
        · exact step (.copied c) s rfl ⟨fun h => absurd h hc, fun h => absurd h h58⟩

theorem letters_inj {k k' : Keyword} {s s' : List UInt8} (h : k.letters ++ 58 :: s = k'.letters ++ 58 :: s') :
    k = k' ∧ s = s' := by
  have hkey : ∀ {k k' : Keyword}, k.letters = k'.letters → k = k' := by
    intro k k' hl
    rw [← Option.some_inj, ← Keyword.ofKey_key, ← Keyword.ofKey_key, Keyword.key, Keyword.key, hl]
  rcases k.letters_cases with ⟨a, ha, ha'⟩ | ⟨a, b, hab, -, -, hb⟩
  · rcases k'.letters_cases with ⟨c, hc, -⟩ | ⟨c, d, hcd, -, -, hd⟩
    · rw [ha, hc] at h
      simp only [List.cons_append, List.nil_append, List.cons.injEq, true_and] at h
      exact ⟨hkey (by rw [ha, hc, h.1]), h.2⟩
    · rw [ha, hcd] at h
      simp only [List.cons_append, List.nil_append, List.cons.injEq] at h
      exact absurd h.2.1.symm hd
  · rcases k'.letters_cases with ⟨c, hc, -⟩ | ⟨c, d, hcd, -⟩
    · rw [hab, hc] at h
      simp only [List.cons_append, List.nil_append, List.cons.injEq] at h
      exact absurd h.2.1 hb
    · rw [hab, hcd] at h
      simp only [List.cons_append, List.nil_append, List.cons.injEq, true_and] at h
      exact ⟨hkey (by rw [hab, hcd, h.1, h.2.1]), h.2.2⟩

/-- A piece that is copied is no beginning of another. -/
theorem fits_copied {c : UInt8} {p : Piece} {t t' : List UInt8} (hc : (Piece.copied c).Fits t) (hp : p.Fits t')
    (h : (Piece.copied c).source ++ t = p.source ++ t') : .copied c = p ∧ t = t' := by
  cases p with
  | copied c' => simpa [Piece.source] using h
  | escape c' | lastNewline =>
    simp only [Piece.source, List.cons_append, List.nil_append, List.cons.injEq] at h
    rw [hc.1 h.1] at h
    simp at h
  | keyword k =>
    simp only [Piece.source, List.cons_append, List.append_assoc, List.nil_append, List.cons.injEq] at h
    exact absurd h.2 ((hc.2 h.1).2 k t')

/-- A newline escape is at the end or it is not. -/
theorem fits_lastNewline {c : UInt8} {t t' : List UInt8} (hc : (Piece.escape c).Fits t) (hp : Piece.lastNewline.Fits t') :
    (Piece.escape c).source ++ t ≠ Piece.lastNewline.source ++ t' := by
  intro h
  simp only [Piece.source, List.cons_append, List.nil_append, List.cons.injEq, true_and] at h
  exact hc h.1 (h.2.trans hp)

/-- The first piece of a format is determined. -/
theorem fits_unique {p p' : Piece} {t t' : List UInt8} (hp : p.Fits t) (hp' : p'.Fits t')
    (h : p.source ++ t = p'.source ++ t') : p = p' ∧ t = t' := by
  cases p with
  | copied c => exact fits_copied hp hp' h
  | escape c =>
    cases p' with
    | copied c' => exact (fits_copied hp' hp h.symm).imp Eq.symm Eq.symm
    | escape c' => simpa [Piece.source] using h
    | lastNewline => exact absurd h (fits_lastNewline hp hp')
    | keyword k => simp [Piece.source] at h
  | lastNewline =>
    cases p' with
    | copied c' => exact (fits_copied hp' hp h.symm).imp Eq.symm Eq.symm
    | escape c' => exact absurd h.symm (fits_lastNewline hp' hp)
    | lastNewline => exact ⟨rfl, hp.trans hp'.symm⟩
    | keyword k => simp [Piece.source] at h
  | keyword k =>
    cases p' with
    | copied c' => exact (fits_copied hp' hp h.symm).imp Eq.symm Eq.symm
    | escape c' | lastNewline => simp [Piece.source] at h
    | keyword k' =>
      simp only [Piece.source, List.cons_append, List.append_assoc, List.nil_append, List.cons.injEq, true_and] at h
      obtain ⟨rfl, rfl⟩ := letters_inj h
      exact ⟨rfl, rfl⟩

theorem reads_unique {format : List UInt8} {ps ps' : List Piece} (h : Reads format ps) (h' : Reads format ps') :
    ps = ps' := by
  induction ps generalizing format ps' with
  | nil =>
    cases ps' with
    | nil => rfl
    | cons p ps' =>
      have h := h.lossless.trans h'.lossless.symm
      cases p <;> simp [sources, Piece.source] at h
  | cons p ps ih =>
    cases ps' with
    | nil =>
      have h := h.lossless.trans h'.lossless.symm
      cases p <;> simp [sources, Piece.source] at h
    | cons p' ps' =>
      have hs := congrArg (· ++ []) (h.lossless.trans h'.lossless.symm)
      simp only [sources_cons] at hs
      obtain ⟨rfl, hs⟩ := fits_unique h.fit.1 h'.fit.1 hs
      rw [ih ⟨rfl, h.fit.2⟩ ⟨by simpa using hs.symm, h'.fit.2⟩]

/-- A format that does not end with a colon and one character is read to its end. -/
theorem exists_reads {format : List UInt8} (h : ¬ Overruns format) : ∃ ps, Reads format ps := by
  obtain ⟨ps, rest, hs, hfit, rfl | ⟨a, rfl⟩⟩ := exists_pieces format
  · exact ⟨ps, by rw [hs, List.append_nil], hfit⟩
  · exact absurd ⟨ps, a, hs, hfit⟩ h

/-! ### Keywords that are printed by a format -/

section

variable (f : PrsFile) (d : FullDelta)

/-- The keyword is printed by no format. -/
def Keyword.plain : Keyword → Bool
  | .Dt | .DL | .DI | .W | .A => false
  | _ => true

theorem doPrintDeltaKey_plain (format : List UInt8 → Except Quit (List UInt8)) {k : Keyword} (h : k.plain = true) :
    doPrintDeltaKey f d format k = keyText f d k := by
  cases k
  all_goals first | rfl | cases h

theorem keywordText_plain {k : Keyword} (h : k.plain = true) : keywordText f d k = keyText f d k := by
  cases k
  all_goals first | rfl | cases h

theorem texts_congr {v w : Keyword → Except Quit (List UInt8)} {ps : List Piece}
    (h : ∀ k, .keyword k ∈ ps → v k = w k) : texts v ps = texts w ps := by
  induction ps with
  | nil => rfl
  | cons p ps ih =>
    have hp : p.text v = p.text w := by
      cases p with
      | keyword k => exact h k List.mem_cons_self
      | copied c | escape c | lastNewline => rfl
    rw [texts, texts, hp, ih fun k hk => h k (List.mem_cons_of_mem _ hk)]

/-- The formats of the program are read as their pieces. -/
theorem printDelta_plain (n : ℕ) {format : String} {ps : List Piece} (h0 : 0 ∉ sources ps) (hs : ascii format = sources ps)
    (hfit : Fit [] ps) (hps : ∀ k, .keyword k ∈ ps → k.plain = true) :
    printDelta f d (n + 1) (ascii format) = texts (keyText f d) ps := by
  rw [printDelta, printDeltaKey_eq, formatLoop_reads (hs ▸ h0) ⟨hs.symm, hfit⟩]
  exact texts_congr fun k hk => doPrintDeltaKey_plain f d _ (hps k hk)

/-- What each keyword stands for. -/
theorem doPrintDeltaKey_eq (n : ℕ) (k : Keyword) :
    doPrintDeltaKey f d (printDelta f d (n + 1)) k = keywordText f d k := by
  cases k
  case Dt | DL | W | A =>
    refine printDelta_plain f d n (by decide) (by decide) ?_ (by simp [Keyword.plain])
    simp [Fit, Piece.Fits]
  case DI =>
    have hn : printDelta f d (n + 1) (ascii ":Dn:") = texts (keyText f d) [.keyword .Dn] :=
      printDelta_plain f d n (by decide) (by decide) (by simp [Fit, Piece.Fits]) (by simp [Keyword.plain])
    have hx : printDelta f d (n + 1) (ascii "/:Dx:") = texts (keyText f d) [.copied 47, .keyword .Dx] :=
      printDelta_plain f d n (by decide) (by decide) (by simp [Fit, Piece.Fits]) (by simp [Keyword.plain])
    have hg : printDelta f d (n + 1) (ascii "/:Dg:") = texts (keyText f d) [.copied 47, .keyword .Dg] :=
      printDelta_plain f d n (by decide) (by decide) (by simp [Fit, Piece.Fits]) (by simp [Keyword.plain])
    rw [doPrintDeltaKey, hn, hx, hg, keywordText]
    split_ifs
    all_goals simp_all [texts, Piece.text, keyText, printSeqList, pure, Except.pure]
  all_goals exact (doPrintDeltaKey_plain f d _ rfl).trans (keywordText_plain f d rfl).symm

/-- A format is printed piece by piece. -/
theorem printDelta_eq (n : ℕ) {format : List UInt8} {ps : List Piece} (h0 : 0 ∉ format) (h : Reads format ps) :
    printDelta f d (n + 2) format = texts (keywordText f d) ps := by
  rw [printDelta, printDeltaKey_eq, formatLoop_reads h0 h]
  exact texts_congr fun k _ => doPrintDeltaKey_eq f d n k

/-- What is printed when the loop comes to some end of a format. -/
theorem printDelta_sources (n : ℕ) {ps : List Piece} {rest : List UInt8} (h0 : 0 ∉ sources ps ++ rest) (h : Fit rest ps) :
    printDelta f d (n + 2) (sources ps ++ rest) = (do
      let t ← texts (keywordText f d) ps
      let ts ← formatLoop (recognised (doPrintDeltaKey f d (printDelta f d (n + 1)))) rest
      return t ++ ts) := by
  rw [printDelta, printDeltaKey_eq, formatLoop_sources h0 h, texts_congr fun k _ => doPrintDeltaKey_eq f d n k]

/-- A colon and one character at the end: the loop reads what comes after the terminator. -/
theorem printDelta_overruns (n : ℕ) {ps : List Piece} {a : UInt8} {t : List UInt8} (h0 : 0 ∉ sources ps ++ [58, a])
    (h : Fit [58, a] ps) (ht : texts (keywordText f d) ps = .ok t) :
    printDelta f d (n + 2) (sources ps ++ [58, a]) = .error .undefined := by
  rw [printDelta_sources f d n h0 h, ht]
  rfl

/-! ### Formats -/

variable {f d}

theorem texts_ne_diverges {value : Keyword → Except Quit (List UInt8)} (h : ∀ k, value k ≠ .error .diverges)
    (ps : List Piece) : texts value ps ≠ .error .diverges := by
  induction ps with
  | nil => nofun
  | cons p ps ih =>
    refine bind_ne_diverges ?_ fun t _ => bind_ne_diverges ih fun _ _ => by simp [pure, Except.pure]
    cases p with
    | keyword k => exact h k
    | copied c | escape c | lastNewline => nofun

theorem keywordText_ne_diverges (h : f.deltaTable.table.highestSeqno < 65535) (k : Keyword) :
    keywordText f d k ≠ .error .diverges := by
  cases k
  case Dt | DL | W | A => exact texts_ne_diverges (keyText_ne_diverges h) _
  case DI => nofun
  all_goals
    rw [keywordText_plain f d rfl]
    exact keyText_ne_diverges h _

variable (f d)

/-- **A format is printed as its pieces say.** There is one way to cut it into pieces; two levels of calls are enough. -/
theorem printDelta_reads (n : ℕ) (format : CString) (h : ¬ Overruns format.bytes) :
    (∃! ps, Reads format.bytes ps) ∧
      (∀ ps, Reads format.bytes ps → printDelta f d (n + 2) format.bytes = texts (keywordText f d) ps) ∧
      (f.deltaTable.table.highestSeqno < 65535 → printDelta f d (n + 2) format.bytes ≠ .error .diverges) := by
  obtain ⟨ps, hps⟩ := exists_reads h
  refine ⟨⟨ps, hps, fun ps' hps' => reads_unique hps' hps⟩, fun ps hps => printDelta_eq f d n format.no_nul hps,
    fun hhigh => ?_⟩
  rw [printDelta_eq f d n format.no_nul hps]
  exact texts_ne_diverges (keywordText_ne_diverges hhigh) ps

/-! ### Formats that are interpreted -/

variable {f d}

/-- Pieces that cannot be printed come to a keyword that cannot. -/
theorem texts_error {value : Keyword → Except Quit (List UInt8)} {ps : List Piece} {q : Quit}
    (h : texts value ps = .error q) :
    ∃ pre k post, ps = pre ++ .keyword k :: post ∧ (∃ t, texts value pre = .ok t) ∧ value k = .error q := by
  induction ps with
  | nil => cases h
  | cons p ps ih =>
    rw [texts] at h
    rcases bind_eq_error.mp h with hp | ⟨t, hp, h⟩
    · cases p with
      | keyword k => exact ⟨[], k, ps, rfl, ⟨[], rfl⟩, hp⟩
      | copied c | escape c | lastNewline => cases hp
    · rcases bind_eq_error.mp h with h | ⟨ts, -, h⟩
      · obtain ⟨pre, k, post, rfl, ⟨ts, hts⟩, hk⟩ := ih h
        exact ⟨p :: pre, k, post, rfl, ⟨t ++ ts, by rw [texts, hp, hts]; rfl⟩, hk⟩
      · cases h

/-- Only `:GB:` does not return. -/
theorem keywordText_diverges_iff {k : Keyword} : keywordText f d k = .error .diverges ↔
    k = .GB ∧ 65535 ≤ f.deltaTable.table.highestSeqno ∧ ∃ gotten, f.deltaTable.deltaAtSeq d.seq = .ok gotten := by
  have hkey : ∀ {k}, k ≠ .GB → keyText f d k ≠ .error .diverges := keyText_ne_diverges_of_ne
  cases k
  case GB => exact getBody_diverges_iff.trans (by simp)
  case Dt | DL | W | A =>
    refine iff_of_false (fun h => ?_) (by simp)
    obtain ⟨pre, k, post, hps, -, hk⟩ := texts_error h
    refine hkey (fun hGB => ?_) hk
    have hmem : Piece.keyword .GB ∈ pre ++ Piece.keyword k :: post := by simp [hGB]
    rw [← hps] at hmem
    simp at hmem
  case DI => exact iff_of_false nofun (by simp)
  all_goals
    rw [keywordText_plain f d rfl]
    exact iff_of_false (hkey (by simp)) (by simp)

theorem fit_append {rest : List UInt8} {ps qs : List Piece} :
    Fit rest (ps ++ qs) ↔ Fit (sources qs ++ rest) ps ∧ Fit rest qs := by
  induction ps with
  | nil => simp [Fit]
  | cons p ps ih => rw [List.cons_append, Fit, Fit, ih, sources_append, List.append_assoc, and_assoc]

/-- Of two ways to begin a format one goes further than the other. -/
theorem pieces_begin {ps ps' : List Piece} {rest rest' : List UInt8} (h : sources ps ++ rest = sources ps' ++ rest')
    (hp : Fit rest ps) (hp' : Fit rest' ps') : ps <+: ps' ∨ ps' <+: ps := by
  induction ps generalizing ps' with
  | nil => exact .inl (List.nil_prefix)
  | cons p ps ih =>
    cases ps' with
    | nil => exact .inr (List.nil_prefix)
    | cons p' ps' =>
      rw [sources_cons, sources_cons] at h
      obtain ⟨rfl, hs⟩ := fits_unique hp.1 hp'.1 h
      exact (ih hs hp.2 hp'.2).imp (List.cons_prefix_cons.mpr ⟨rfl, ·⟩) (List.cons_prefix_cons.mpr ⟨rfl, ·⟩)

/-- A colon and one character are not the beginning of pieces. -/
theorem overrun_no_piece {a : UInt8} {ps : List Piece} {rest : List UInt8} (h : sources ps ++ rest = [58, a])
    (hp : Fit rest ps) : ps = [] := by
  cases ps with
  | nil => rfl
  | cons p ps =>
    rw [sources_cons] at h
    cases p with
    | copied c =>
      obtain ⟨rfl, hs⟩ := List.cons.inj h
      exact absurd (congrArg List.length hs) (hp.1.2 rfl).1
    | escape c | lastNewline =>
      have := (List.cons.inj h).1
      exact absurd this (by decide)
    | keyword k =>
      have hlen := congrArg List.length h
      have hk : 0 < k.letters.length := by cases k <;> decide
      simp [Piece.source] at hlen
      omega

theorem texts_begin {value : Keyword → Except Quit (List UInt8)} {ps ps' : List Piece} {t : List UInt8} (h : ps <+: ps')
    (ht : texts value ps' = .ok t) : ∃ t, texts value ps = .ok t := by
  obtain ⟨qs, rfl⟩ := h
  induction ps generalizing t with
  | nil => exact ⟨[], rfl⟩
  | cons p ps ih =>
    rw [List.cons_append, texts] at ht
    obtain ⟨u, hu, ht⟩ := bind_eq_ok.mp ht
    obtain ⟨us, hus, -⟩ := bind_eq_ok.mp ht
    obtain ⟨t, ht⟩ := ih hus
    exact ⟨u ++ t, by rw [texts, hu, ht]; rfl⟩

variable (f d)

/-- **Formats are interpreted as their pieces say**, unless the loop comes to a colon and one character at the end, or to
`:GB:` in a file with the largest number. -/
theorem printDelta_interpreted_iff (n : ℕ) (format : CString) :
    Interpreted f d (n + 2) format.bytes ↔ (∀ a, ¬ Arrives f d format.bytes [58, a]) ∧ ¬ Hangs f d format.bytes := by
  constructor
  · rintro ⟨hreturns, ps', rest', hs', hfit', hprint, hend⟩
    refine ⟨fun a => ?_, ?_⟩
    · rintro ⟨ps, hs, hfit, t, ht⟩
      have hover := printDelta_overruns f d n (hs ▸ format.no_nul) hfit ht
      rw [← hs, hprint] at hover
      have hle : ps' <+: ps := by
        refine (pieces_begin (hs.symm.trans hs') hfit hfit').elim (fun hle => ?_) id
        obtain ⟨qs, rfl⟩ := hle
        rw [sources_append, List.append_assoc] at hs'
        have hqs := overrun_no_piece (List.append_cancel_left (hs.symm.trans hs')).symm (fit_append.mp hfit').2
        simp [hqs]
      obtain ⟨t', ht'⟩ := texts_begin hle ht
      rw [ht'] at hover
      cases hover
    · rintro ⟨hhigh, hfound, rest, ps, hs, hfit, t, ht⟩
      refine hreturns ?_
      have hGB : formatLoop (recognised (doPrintDeltaKey f d (printDelta f d (n + 1))))
          ((Piece.keyword .GB).source ++ rest) = .error .diverges := by
        rw [Piece.source, List.cons_append, List.append_assoc, List.singleton_append, formatLoop_keyword,
          doPrintDeltaKey_eq, keywordText_diverges_iff.mpr ⟨rfl, hhigh, hfound⟩, error_bind]
      rw [hs, printDelta_sources f d n (hs ▸ format.no_nul) hfit, ht, ok_bind, hGB, error_bind]
  · rintro ⟨hover, hhangs⟩
    obtain ⟨ps, rest, hs, hfit, hrest⟩ := exists_pieces format.bytes
    -- pieces that cannot be printed are not so for `:GB:`
    have herr : ∀ {q}, texts (keywordText f d) ps = .error q → q ≠ .diverges := by
      rintro q hq rfl
      obtain ⟨pre, k, post, rfl, hpre, hk⟩ := texts_error hq
      obtain ⟨rfl, hhigh, hfound⟩ := keywordText_diverges_iff.mp hk
      refine hhangs ⟨hhigh, hfound, sources post ++ rest, pre, ?_, ?_, hpre⟩
      · rw [hs, sources_append, List.append_assoc, sources_cons]
      · rw [← sources_cons]
        exact (fit_append.mp hfit).1
    have hprint := printDelta_sources f d n (hs ▸ format.no_nul) hfit
    rw [← hs] at hprint
    cases ht : texts (keywordText f d) ps with
    | error q =>
      rw [ht, error_bind] at hprint
      refine ⟨?_, ps, rest, hs, hfit, hprint.trans ht.symm, .inr ⟨q, ht⟩⟩
      rw [hprint]
      exact fun h => herr ht (Except.error.inj h)
    | ok t =>
      rcases hrest with rfl | ⟨a, rfl⟩
      · rw [ht] at hprint
        have hprint : printDelta f d (n + 2) format.bytes = .ok t := by simpa [formatLoop, pure, Except.pure] using hprint
        refine ⟨?_, ps, [], hs, hfit, hprint.trans ht.symm, .inl rfl⟩
        rw [hprint]
        nofun
      · exact absurd ⟨ps, hs, hfit, t, ht⟩ (hover a)

/-- A file with one delta. -/
def oneDelta : PrsFile where
  toKeywordFile := plainFile
  deltaTable := [trunkDelta 1 0 [] []]
  users := []
  comments := []
  body := [1, 73, 32, 49, 10, 97, 10, 1, 69, 32, 49, 10]
  linebuf := .initial

/-- Of `:x` the character after the terminator is read. -/
theorem colon_overruns : printDelta oneDelta (trunkDelta 1 0 [] []) 2 [58, 120] = .error .undefined ∧
    ¬ Interpreted oneDelta (trunkDelta 1 0 [] []) 2 [58, 120] := by
  refine ⟨rfl, ?_⟩
  rintro ⟨-, ps, rest, hs, hfit, hprint, -⟩
  obtain rfl := overrun_no_piece hs.symm hfit
  cases hprint

/-- The keywords are expanded, and what is none is copied. -/
example : printDelta oneDelta (trunkDelta 1 0 [] []) 2 (ascii ":W: :x: :GB:\\n") =
    .ok (ascii "@(#)m\t1.1 :x: a\n") := by
  decide +kernel

end

end CSSC.Commands
