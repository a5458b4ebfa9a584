import CSSC.Header.Write

/-!
# Reading a header that was written

The lines that `write` prints are read by the parser again. What it finds is what was written, as far as it could be
written at all (`Writable`): the SID is the one that was printed, and a list without entries is not there
(`rereadDelta`). So deltas are read back (`readDelta_written`, `readDeltas_written`), and then **the header is read
back**, with the flags as they were shown (`parseTable_written`).
-/

namespace CSSC.Header

open CSSC.Lines CSSC.Body CSSC.Table CSSC.Library.Decimal

/-- A string that can be a line. -/
def Clean (s : List UInt8) : Prop := ∀ c ∈ s, c ≠ 0 ∧ c ≠ 10

theorem clean_append {s t : List UInt8} : Clean (s ++ t) ↔ Clean s ∧ Clean t := List.forall_mem_append

theorem clean_cons {c : UInt8} {s : List UInt8} : Clean (c :: s) ↔ (c ≠ 0 ∧ c ≠ 10) ∧ Clean s := List.forall_mem_cons

theorem clean_of_not_mem {s : List UInt8} (h0 : (0 : UInt8) ∉ s) (h10 : (10 : UInt8) ∉ s) : Clean s :=
  fun _ hc => ⟨fun h => h0 (h ▸ hc), fun h => h10 (h ▸ hc)⟩

/-- What the fields of a delta must be like to be written. -/
structure Writable (d : FullDelta) : Prop where
  /-- The date is valid. -/
  date : d.date.valid = true
  /-- It can be written with two digits for the year. -/
  year : 1969 ≤ d.date.year ∧ d.date.year < 2069
  /-- A user has no blank in the name. -/
  user : Clean d.user ∧ (32 : UInt8) ∉ d.user
  /-- Numbers have 16 bits. -/
  seq : d.seq ≤ 65535 ∧ d.prevSeq ≤ 65535
  /-- So have the entries of the lists. -/
  lists : ∀ s ∈ d.included ++ d.excluded ++ d.ignored, s ≤ 65535
  /-- MRs are lines. -/
  mrs : ∀ s ∈ d.mrs, Clean s
  /-- So are comments. -/
  comments : ∀ s ∈ d.comments, Clean s
  /-- Counts have five digits. -/
  counts : d.inserted ≤ 99999 ∧ d.deleted ≤ 99999 ∧ d.unchanged ≤ 99999

/-- What is read of a delta that was written. -/
def rereadDelta (d : FullDelta) (id : Sid) : FullDelta :=
  { d with
    id := id
    haveIncludes := d.included ≠ []
    haveExcludes := d.excluded ≠ []
    haveIgnores := d.ignored ≠ [] }

/-! ### Numbers -/

theorem padded_isDigit (width n : ℕ) : ∀ c ∈ padded width n, isDigit c = true := by
  intro c hc
  rcases List.mem_append.mp hc with hc | hc
  · rw [List.eq_of_mem_replicate hc]
    decide
  · exact decimal_isDigit n c hc

/-- A number that was printed with zeros is read back. -/
theorem strtol_padded (width n : ℕ) : strtol (padded width n) = ((n : ℤ), []) := by
  have h0 : ∀ k, valueFrom 0 (List.replicate k 48) = 0 := by
    intro k
    induction k with
    | zero => rfl
    | succ k ih => rw [List.replicate_succ, valueFrom_cons]; exact ih
  have h := strtol_digits (t := []) (padded_isDigit width n) (by simp [padded, decimal_ne_nil]) rfl
  rwa [List.append_nil, padded, valueFrom_append, h0, valueFrom_decimal] at h

/-- A count is read back. -/
theorem strictAtoulIdu_padded {n : ℕ} (h : n ≤ 99999) : strictAtoulIdu (padded 5 (cap5 n)) = .ok n := by
  have hcap : cap5 n = n := Nat.min_eq_left h
  have hdigits := padded_isDigit 5 n
  obtain ⟨c, s, hcs⟩ := List.exists_cons_of_ne_nil (show padded 5 n ≠ [] by simp [padded, decimal_ne_nil])
  have hc := hdigits c (by simp [hcs])
  have hdrop : (padded 5 n).dropWhile (· = 32) = padded 5 n := by
    rw [hcs, List.dropWhile_cons_of_neg]
    simp only [decide_eq_true_eq]
    rintro rfl
    exact absurd hc (by decide)
  have hhead : (padded 5 n).head? ≠ some 45 := by
    rw [hcs, List.head?_cons, ne_eq, Option.some.injEq]
    rintro rfl
    exact absurd hc (by decide)
  rw [hcap, strictAtoulIdu]
  simp only [hdrop, if_neg hhead, strtoul, strtol_padded]
  rw [if_pos (.inl trivial), if_neg (by omega)]
  exact congrArg _ (by omega)

/-! ### Lines -/

theorem kind_of_bytes {l : Line} {k : UInt8} {s : List UInt8} (h : l.bytes = 1 :: k :: s) : l.kind = k := by
  rw [Line.kind, Line.bufchar, Line.bufchar, h]
  rfl

theorem checkArg_of_bytes {l : Line} {k : UInt8} {s : List UInt8} (h : l.bytes = 1 :: k :: 32 :: s) :
    checkArg l = .ok () := by
  rw [checkArg, Line.bufchar, h]
  rfl

theorem expect_of_kind {l : Line} {k : UInt8} (msg : String) (h : l.kind = k) : expect l k msg = .ok () := if_pos h

theorem checkNoarg_of_bytes {l : Line} {k : UInt8} (h : l.bytes = [1, k]) : checkNoarg l = .ok () := by
  rw [checkNoarg, Line.bufchar, h]
  rfl

/-- A line `^As` is read back. -/
theorem readIdu_written {d : FullDelta} (h : d.inserted ≤ 99999 ∧ d.deleted ≤ 99999 ∧ d.unchanged ≤ 99999) {l : Line}
    (hl : l.bytes = 1 :: 115 :: 32 :: iduText d) : readIdu l = .ok (d.inserted, d.deleted, d.unchanged) := by
  have hno : ∀ n, (47 : UInt8) ∉ padded 5 (cap5 n) := fun n hm => absurd (padded_isDigit _ _ 47 hm) (by decide)
  have hsplit : Linebuf.split 3 47 (iduText d) =
      ⟨[padded 5 (cap5 d.inserted), padded 5 (cap5 d.deleted), padded 5 (cap5 d.unchanged)], 3⟩ := by
    rw [iduText, Linebuf.split_append (hno _), Linebuf.split_append (hno _), Linebuf.split_last (hno _),
      if_neg (by simp [padded, decimal_ne_nil])]
  rw [readIdu, checkArg_of_bytes hl, ok_bind, hl]
  simp only [List.drop_succ_cons, List.drop_zero, hsplit]
  rw [if_neg (by simp)]
  simp only [field, List.getElem?_cons_zero, List.getElem?_cons_succ, ok_bind, strictAtoulIdu_padded h.1,
    strictAtoulIdu_padded h.2.1, strictAtoulIdu_padded h.2.2]
  rfl

/-- The fields of a line `^Ad` are found again. -/
theorem split_fieldTexts {d : FullDelta} (h : Writable d) :
    Linebuf.split 7 32 ([32].intercalate (fieldTexts d)) = ⟨fieldTexts d, 7⟩ := by
  have hdec : ∀ n, (32 : UInt8) ∉ decimal n := fun n hm => absurd (decimal_isDigit n 32 hm) (by decide)
  have hsid : (32 : UInt8) ∉ d.id.text := by
    intro hm
    rcases d.id.text_chars 32 hm with h | h | h
    all_goals exact absurd h (by decide)
  have hdate : ∀ c ∈ d.date.dateText ++ d.date.timeText, c ≠ 32 := by
    rintro c hc rfl
    exact absurd (d.date.text_chars 32 hc).1 (by decide)
  refine Linebuf.split_fields (by simp [fieldTexts]) (decimal_ne_nil _) ?_ (by simp [fieldTexts])
  intro x hx
  simp only [fieldTexts, List.mem_cons, List.not_mem_nil, or_false] at hx
  rcases hx with rfl | rfl | rfl | rfl | rfl | rfl | rfl
  · cases d.type <;> decide
  · exact hsid
  · exact fun hm => hdate 32 (List.mem_append_left _ hm) rfl
  · exact fun hm => hdate 32 (List.mem_append_right _ hm) rfl
  · rw [cstr_eq_self fun hm => (h.user.1 0 hm).1 rfl]
    exact h.user.2
  · exact hdec _
  · exact hdec _

theorem deltaType_typeLetter (t : DeltaType) : deltaType [typeLetter t] = .ok t := by
  cases t <;> rfl

/-- A line `^Ad` is read back, but perhaps for the SID. -/
theorem readFields_written {d : FullDelta} (h : Writable d) :
    readFields ⟨fieldTexts d, 7⟩ (d.inserted, d.deleted, d.unchanged) = (do
      let id ← deltaSid d.id.text
      return ⟨⟨d.type, id, d.seq, d.prevSeq, [], [], []⟩, d.date, d.user, false, false, false, [], [], d.inserted,
        d.deleted, d.unchanged⟩) := by
  have hdate : deltaDate d.date.dateText d.date.timeText = .ok d.date := by
    rw [deltaDate, SccsDate.ofText_text h.date h.year.1 h.year.2, ok_bind, if_pos h.date]
  have huser : cstr d.user = d.user := cstr_eq_self fun hm => (h.user.1 0 hm).1 rfl
  simp only [readFields, field, fieldTexts, List.getElem?_cons_zero, List.getElem?_cons_succ, ok_bind,
    deltaType_typeLetter, hdate, huser, strictAtous_decimal h.seq.1, strictAtous_decimal h.seq.2]

/-! ### Lists -/

/-- The entries of a line are read back. -/
theorem readSeqs_written {k : ListKind} {seqs : List ℕ} (hne : seqs ≠ []) (h : ∀ s ∈ seqs, s ≤ 65535) {l : Line}
    (hl : l.bytes = 1 :: k.letter :: seqs.flatMap fun s => 32 :: decimal s) : ListKind.readSeqs l = .ok seqs := by
  have hjoin : seqs.flatMap (fun s => 32 :: decimal s) = 32 :: [32].intercalate (seqs.map decimal) := by
    clear hl h
    induction seqs with
    | nil => exact absurd rfl hne
    | cons s seqs ih =>
      by_cases hs : seqs = []
      · subst hs
        simp
      · rw [List.flatMap_cons, ih hs, List.map_cons, List.intercalate_cons_of_ne_nil (by simpa using hs)]
        simp
  have hmap : (seqs.map decimal).mapM strictAtous = .ok seqs := by
    clear hl hjoin hne
    induction seqs with
    | nil => rfl
    | cons s seqs ih =>
      rw [List.map_cons, List.mapM_cons, strictAtous_decimal (h s List.mem_cons_self), ok_bind,
        ih fun s hs => h s (List.mem_cons_of_mem _ hs)]
      rfl
  rw [hjoin] at hl
  rw [ListKind.readSeqs, if_neg (by rw [Line.bufchar, hl]; simp), hl]
  simp only [List.drop_succ_cons, List.drop_zero]
  rw [List.splitOn_intercalate, hmap]
  · intro x hx
    obtain ⟨n, -, rfl⟩ := List.mem_map.mp hx
    exact fun hm => absurd (decimal_isDigit n 32 hm) (by decide)
  · simpa using hne

theorem letter_injective : Function.Injective ListKind.letter := by
  intro k k' h
  cases k <;> cases k' <;> first | rfl | exact absurd h (by decide)

/-- The lists of a delta are read back. -/
theorem readLists_written {stop : Quit} {f : ListKind → List ℕ} (hf : ∀ k, ∀ s ∈ f k, s ≤ 65535) {l₀ : Line}
    (hl₀ : ∀ k : ListKind, l₀.kind ≠ k.letter) {ks : List ListKind} (hks : ks.Nodup) {d : FullDelta} {l : Line}
    {ls L ls₀ : List Line} (hL : L.map Line.bytes = ks.flatMap fun k => printSeqs k (f k))
    (hls : l :: ls = L ++ l₀ :: ls₀) :
    readLists stop ks d l ls = .ok (ks.foldl (fun d k => if f k = [] then d else k.add d (f k)) d, l₀, ls₀) := by
  induction ks generalizing d l ls L with
  | nil =>
    obtain rfl := List.map_eq_nil_iff.mp hL
    obtain ⟨rfl, rfl⟩ := List.cons.inj hls
    rfl
  | cons k ks ih =>
    rw [List.nodup_cons] at hks
    rw [List.flatMap_cons] at hL
    by_cases hk : f k = []
    · -- no line: the next one belongs to another list, or to none
      rw [printSeqs, if_pos hk, List.nil_append] at hL
      have hne : l.kind ≠ k.letter := by
        cases L with
        | nil => exact (List.cons.inj hls).1 ▸ hl₀ k
        | cons l' L =>
          obtain ⟨rfl, -⟩ := List.cons.inj hls
          have hm : l.bytes ∈ ks.flatMap fun k => printSeqs k (f k) := hL ▸ List.mem_map_of_mem List.mem_cons_self
          obtain ⟨k', hk', hm⟩ := List.mem_flatMap.mp hm
          rw [printSeqs] at hm
          split_ifs at hm
          · cases hm
          · rw [kind_of_bytes (List.mem_singleton.mp hm)]
            exact fun he => hks.1 (letter_injective he ▸ hk')
      rw [readLists, if_neg hne, ih hks.2 hL hls, List.foldl_cons, if_pos hk]
    · rw [printSeqs, if_neg hk, List.singleton_append] at hL
      obtain ⟨l', L, rfl, hl', hL'⟩ := List.map_eq_cons_iff.mp hL
      rw [List.cons_append] at hls
      obtain ⟨rfl, rfl⟩ := List.cons.inj hls
      obtain ⟨l₁, ls₁, h₁⟩ : ∃ l₁ ls₁, L ++ l₀ :: ls₀ = l₁ :: ls₁ :=
        List.exists_cons_of_ne_nil (by simp)
      rw [readLists, if_pos (kind_of_bytes hl'), readSeqs_written hk (hf k) hl', ok_bind, h₁]
      show readLists stop ks _ l₁ ls₁ = _
      rw [ih hks.2 hL' h₁.symm, List.foldl_cons, if_neg hk]

/-! ### Deltas -/

theorem Clean.cstr {s : List UInt8} (h : Clean s) : cstr s = s := cstr_eq_self fun hm => (h 0 hm).1 rfl

/-- MRs are read back. -/
theorem addNote_mrs {mrs : List (List UInt8)} (hm : ∀ s ∈ mrs, Clean s) {L : List Line}
    (hL : L.map Line.bytes = mrs.map fun s => 1 :: 109 :: 32 :: cstr s) (d : FullDelta) :
    L.foldlM addNote d = .ok { d with mrs := d.mrs ++ mrs } := by
  induction mrs generalizing L d with
  | nil =>
    obtain rfl := List.map_eq_nil_iff.mp hL
    simp [pure, Except.pure]
  | cons s mrs ih =>
    obtain ⟨l, L, rfl, hl, hL'⟩ := List.map_eq_cons_iff.mp hL
    replace hl : l.bytes = 1 :: 109 :: 32 :: s := by simpa only [(hm s List.mem_cons_self).cstr] using hl
    have hadd : addNote d l = .ok { d with mrs := d.mrs ++ [s] } := by
      rw [addNote, if_pos (kind_of_bytes hl), Line.bufchar, hl]
      rfl
    rw [List.foldlM_cons, hadd, ok_bind, ih (fun s hs => hm s (List.mem_cons_of_mem _ hs)) hL']
    simp

/-- Comments are read back. -/
theorem addNote_comments {comments : List (List UInt8)} (hc : ∀ s ∈ comments, Clean s) {L : List Line}
    (hL : L.map Line.bytes = comments.map fun s => 1 :: 99 :: 32 :: cstr s) (d : FullDelta) :
    L.foldlM addNote d = .ok { d with comments := d.comments ++ comments } := by
  induction comments generalizing L d with
  | nil =>
    obtain rfl := List.map_eq_nil_iff.mp hL
    simp [pure, Except.pure]
  | cons s comments ih =>
    obtain ⟨l, L, rfl, hl, hL'⟩ := List.map_eq_cons_iff.mp hL
    replace hl : l.bytes = 1 :: 99 :: 32 :: s := by simpa only [(hc s List.mem_cons_self).cstr] using hl
    have hadd : addNote d l = .ok { d with comments := d.comments ++ [s] } := by
      rw [addNote, if_neg (by rw [kind_of_bytes hl]; decide), hl]
      rfl
    rw [List.foldlM_cons, hadd, ok_bind, ih (fun s hs => hc s (List.mem_cons_of_mem _ hs)) hL']
    simp

/-- The lists that are there. -/
def listOf (d : FullDelta) : ListKind → List ℕ
  | .i => d.included
  | .x => d.excluded
  | .g => d.ignored

/-- The lines of the notes and the last one. -/
def noteTexts (d : FullDelta) : Texts :=
  (d.mrs.map fun s => 1 :: 109 :: 32 :: cstr s) ++ (d.comments.map fun s => 1 :: 99 :: 32 :: cstr s)

theorem deltaLines_eq (d : FullDelta) : deltaLines d =
    (1 :: 115 :: 32 :: iduText d) :: (1 :: 100 :: 32 :: [32].intercalate (fieldTexts d)) ::
      (([.i, .x, .g] : List ListKind).flatMap (fun k => printSeqs k (listOf d k)) ++ (noteTexts d ++ [[1, 101]])) := by
  simp [deltaLines, noteTexts, listOf]

/-- What the parser has put together. -/
theorem foldl_lists {d base : FullDelta} (hb : base.included = [] ∧ base.excluded = [] ∧ base.ignored = [])
    (hh : base.haveIncludes = false ∧ base.haveExcludes = false ∧ base.haveIgnores = false) :
    ([.i, .x, .g] : List ListKind).foldl (fun b k => if listOf d k = [] then b else k.add b (listOf d k)) base =
      { base with
        included := d.included
        excluded := d.excluded
        ignored := d.ignored
        haveIncludes := d.included ≠ []
        haveExcludes := d.excluded ≠ []
        haveIgnores := d.ignored ≠ [] } := by
  obtain ⟨⟨type, id, seq, prevSeq, inc, exc, ign⟩, date, user, hi, hx, hg, mrs, comments, ins, del, unc⟩ := base
  obtain ⟨rfl, rfl, rfl⟩ := hb
  obtain ⟨rfl, rfl, rfl⟩ := hh
  simp only [List.foldl_cons, List.foldl_nil, listOf, ListKind.add]
  by_cases h1 : d.included = [] <;> by_cases h2 : d.excluded = [] <;> by_cases h3 : d.ignored = [] <;>
    simp [h1, h2, h3]

/-- **A delta is read back.** -/
theorem readDelta_written {stop : Quit} {d : FullDelta} (h : Writable d) {l : Line} {ls more : List Line}
    (hl : (l :: ls).map Line.bytes = deltaLines d) :
    readDelta stop l (ls ++ more) = (do
      let id ← deltaSid d.id.text
      return (rereadDelta d id, more)) := by
  rw [deltaLines_eq, List.map_cons, List.cons.injEq] at hl
  obtain ⟨hl, hls⟩ := hl
  obtain ⟨l₁, ls, rfl, hl₁, hls⟩ := List.map_eq_cons_iff.mp hls
  obtain ⟨L, ls, rfl, hL, hls⟩ := List.map_eq_append_iff.mp hls
  obtain ⟨N, E, rfl, hN, hE⟩ := List.map_eq_append_iff.mp hls
  obtain ⟨M, C, rfl, hM, hC⟩ := List.map_eq_append_iff.mp hN
  obtain ⟨e, rest, rfl, he, hrest⟩ := List.map_eq_cons_iff.mp hE
  obtain rfl := List.map_eq_nil_iff.mp hrest
  -- the line after the lists
  obtain ⟨n, ns, hn⟩ : ∃ n ns, M ++ C ++ e :: more = n :: ns := List.exists_cons_of_ne_nil (by simp)
  have hkinds : ∀ l ∈ M ++ C, isNote l = true := by
    intro l hl
    have hm : l.bytes ∈ noteTexts d := hN ▸ List.mem_map_of_mem hl
    rcases List.mem_append.mp hm with hm | hm
    · obtain ⟨s, -, hs⟩ := List.mem_map.mp hm
      simp [isNote, kind_of_bytes hs.symm]
    · obtain ⟨s, -, hs⟩ := List.mem_map.mp hm
      simp [isNote, kind_of_bytes hs.symm]
  have hnk : ∀ k : ListKind, n.kind ≠ k.letter := by
    intro k
    rcases hcases : M ++ C with _ | ⟨l', N'⟩
    · rw [hcases] at hn
      obtain ⟨rfl, -⟩ := List.cons.inj hn
      rw [kind_of_bytes he]
      cases k <;> decide
    · rw [hcases] at hn
      obtain ⟨rfl, -⟩ := List.cons.inj hn
      have hk := hkinds l' (hcases ▸ List.mem_cons_self)
      simp only [isNote, Bool.or_eq_true, decide_eq_true_eq] at hk
      rcases hk with hk | hk <;> (rw [hk]; cases k <;> decide)
  obtain ⟨f, fs, hf⟩ : ∃ f fs, L ++ n :: ns = f :: fs := List.exists_cons_of_ne_nil (by simp)
  have hrest : l₁ :: (L ++ (M ++ C ++ [e])) ++ more = l₁ :: f :: fs := by
    rw [← hf, ← hn]
    simp
  have hlists : ∀ k, ∀ s ∈ listOf d k, s ≤ 65535 := by
    intro k s hs
    refine h.lists s ?_
    cases k <;> simp only [listOf] at hs <;> simp [hs]
  rw [readDelta, readIdu_written h.counts hl, ok_bind, hrest]
  simp only [readLine, ok_bind, expect_of_kind _ (kind_of_bytes hl₁), checkArg_of_bytes hl₁, hl₁, List.drop_succ_cons,
    List.drop_zero, split_fieldTexts h, readFields_written h]
  cases hsid : deltaSid d.id.text with
  | error q => rfl
  | ok id =>
    simp only [ok_bind, pure, Except.pure]
    rw [readLists_written hlists hnk (by decide) hL hf.symm, ok_bind, foldl_lists ⟨rfl, rfl, rfl⟩ ⟨rfl, rfl, rfl⟩]
    show (readLoop stop isNote addNote _ n ns >>= _) = _
    have hfold : ∀ b : FullDelta, (M ++ C).foldlM addNote b =
        .ok { b with mrs := b.mrs ++ d.mrs, comments := b.comments ++ d.comments } := by
      intro b
      rw [List.foldlM_append, addNote_mrs h.mrs hM, ok_bind, addNote_comments h.comments hC]
    rw [readLoop_lines hkinds (hfold _) (by simp [isNote, kind_of_bytes he]) hn.symm, ok_bind]
    show (expect e 101 _ >>= _) = _
    rw [expect_of_kind _ (kind_of_bytes he), ok_bind, checkNoarg_of_bytes he, ok_bind]
    rfl

/-- What the parser makes of a delta. -/
def reread (d : FullDelta) : Except Quit FullDelta := do
  let id ← deltaSid d.id.text
  return rereadDelta d id

/-- **Deltas are read back.** -/
theorem readDeltas_written {stop : Quit} {T : FullTable} (h : ∀ d ∈ T, Writable d) {L : List Line}
    (hL : L.map Line.bytes = T.flatMap deltaLines) {u : Line} {us : List Line} (hu : u.kind ≠ 115) {fuel : ℕ}
    (hfuel : T.length < fuel) {T₀ : FullTable} {l : Line} {ls : List Line} (hls : l :: ls = L ++ u :: us) :
    readDeltas stop fuel T₀ l ls = (do
      let T' ← T.mapM reread
      return (T₀ ++ T', u, us)) := by
  induction T generalizing L fuel T₀ l ls with
  | nil =>
    obtain rfl := List.map_eq_nil_iff.mp hL
    obtain ⟨rfl, rfl⟩ := List.cons.inj hls
    obtain ⟨fuel, rfl⟩ := Nat.exists_eq_succ_of_ne_zero (Nat.ne_zero_of_lt hfuel)
    rw [readDeltas, if_neg hu]
    simp [pure, Except.pure]
  | cons d T ih =>
    obtain ⟨fuel, rfl⟩ := Nat.exists_eq_succ_of_ne_zero (Nat.ne_zero_of_lt hfuel)
    rw [List.flatMap_cons] at hL
    obtain ⟨D, L', rfl, hD, hL'⟩ := List.map_eq_append_iff.mp hL
    obtain ⟨l', D, rfl⟩ : ∃ l' D', D = l' :: D' := by
      refine List.exists_cons_of_ne_nil ?_
      rintro rfl
      simp [deltaLines] at hD
    rw [List.append_assoc, List.cons_append] at hls
    obtain ⟨rfl, rfl⟩ := List.cons.inj hls
    have hkind : l.kind = 115 := by
      rw [deltaLines_eq, List.map_cons] at hD
      exact kind_of_bytes (List.cons.inj hD).1
    obtain ⟨l₁, ls₁, h₁⟩ : ∃ l₁ ls₁, L' ++ u :: us = l₁ :: ls₁ := List.exists_cons_of_ne_nil (by simp)
    rw [readDeltas, if_pos hkind, readDelta_written (h d List.mem_cons_self) hD, List.mapM_cons, reread]
    cases deltaSid d.id.text with
    | error q => rfl
    | ok id =>
      simp only [ok_bind, pure, Except.pure]
      rw [h₁]
      show readDeltas stop fuel (T₀ ++ [rereadDelta d id]) l₁ ls₁ = _
      rw [ih (fun d hd => h d (List.mem_cons_of_mem _ hd)) hL' (Nat.lt_of_succ_lt_succ hfuel) h₁.symm]
      cases T.mapM reread with
      | error q => rfl
      | ok T' => simp [pure, Except.pure]

/-! ### The header -/

/-- The flags as the parser finds them. -/
def shownFlags (f : Flags) : List ParsedFlag :=
  flagOrder.filterMap fun name => (f.shown name).map fun arg => ⟨name.letter, arg⟩

/-- A line that does not begin with `^A`. -/
theorem kind_eq_zero {l : Line} (h : l.bytes.head? ≠ some 1) : l.kind = 0 := by
  rw [Line.kind, if_neg]
  rw [Line.bufchar]
  rcases hl : l.bytes with _ | ⟨c, s⟩
  · decide
  · rw [hl] at h
    simpa using h

theorem addFlag_written {fs : List ParsedFlag} {name : FlagName} {arg : Option (List UInt8)} {l : Line}
    (hl : l.bytes = flagLine name arg) : addFlag fs l = .ok (fs ++ [⟨name.letter, arg⟩]) := by
  have hn : name.letter ≠ 0 := by cases name <;> decide
  cases arg with
  | none =>
    rw [flagLine] at hl
    simp [addFlag, checkArg_of_bytes hl, Line.bufchar, hl, hn]
  | some arg =>
    rw [flagLine] at hl
    simp [addFlag, checkArg_of_bytes hl, Line.bufchar, hl, hn]

/-- Flags are read back. -/
theorem addFlags_written {f : Flags} {names : List FlagName} {L : List Line}
    (hL : L.map Line.bytes = names.filterMap fun name => (f.shown name).map (flagLine name)) (fs : List ParsedFlag) :
    L.foldlM addFlag fs =
      .ok (fs ++ names.filterMap fun name => (f.shown name).map fun arg => ⟨name.letter, arg⟩) := by
  induction names generalizing L fs with
  | nil =>
    obtain rfl := List.map_eq_nil_iff.mp hL
    simp [pure, Except.pure]
  | cons name names ih =>
    cases hs : f.shown name with
    | none =>
      rw [List.filterMap_cons_none (by simp [hs])] at hL
      rw [List.filterMap_cons_none (by simp [hs]), ih hL]
    | some arg =>
      rw [List.filterMap_cons_some (b := flagLine name arg) (by simp [hs])] at hL
      obtain ⟨l, L, rfl, hl, hL'⟩ := List.map_eq_cons_iff.mp hL
      rw [List.filterMap_cons_some (b := ⟨name.letter, arg⟩) (by simp [hs]), List.foldlM_cons, addFlag_written hl, ok_bind,
        ih hL']
      simp

/-- Lines that do not begin with `^A` are users … -/
theorem addUsers_written {texts : Texts} (h : ∀ s ∈ texts, s.head? ≠ some 1) {L : List Line}
    (hL : L.map Line.bytes = texts) (users : List (List UInt8)) : L.foldlM addUser users = .ok (users ++ texts) := by
  subst hL
  induction L generalizing users with
  | nil => simp [pure, Except.pure]
  | cons l L ih =>
    have hadd : addUser users l = .ok (users ++ [l.bytes]) := by
      rw [addUser, expect_of_kind _ (kind_eq_zero (h _ (by simp)))]
      rfl
    rw [List.foldlM_cons, hadd, ok_bind, ih _ fun s hs => h s (List.mem_cons_of_mem _ hs)]
    simp

/-- … or lines of the description. -/
theorem addComments_written (L : List Line) (comments : List (List UInt8)) :
    L.foldlM addComment comments = .ok (comments ++ L.map Line.bytes) := by
  induction L generalizing comments with
  | nil => simp [pure, Except.pure]
  | cons l L ih =>
    rw [List.foldlM_cons, addComment, ok_bind, ih]
    simp

theorem length_le_flatMap (T : FullTable) : T.length ≤ (T.flatMap deltaLines).length := by
  induction T with
  | nil => exact Nat.zero_le _
  | cons d T ih =>
    rw [List.flatMap_cons, List.length_cons, List.length_append, deltaLines_eq, List.length_cons]
    omega

theorem cstr_head? {s : List UInt8} (h : s.head? ≠ some 1) : (cstr s).head? ≠ some 1 := by
  cases s with
  | nil => simp [cstr]
  | cons c s =>
    by_cases hc : c = 0
    · simp [cstr, hc]
    · simpa [cstr, hc] using h

/-- **The header is read back**, if it consists of lines. -/
theorem parseTable_written {stop : Quit} {T : FullTable} {file : SccsFile} (hT : ∀ d ∈ T, Writable d)
    (hu : ∀ s ∈ file.users, s.head? ≠ some 1) (hc : ∀ s ∈ file.comments, s.head? ≠ some 1) {L : List Line}
    (hL : L.map Line.bytes = headerLines T file) (more : List Line) :
    parseTable stop (L ++ more) = (do
      let T' ← T.mapM reread
      return ⟨if T' = [] then none else some T', file.users.map cstr, shownFlags file.flags, file.comments.map cstr⟩) := by
  obtain ⟨L₁, L₂, rfl, hL, hE⟩ := List.map_eq_append_iff.mp hL
  obtain ⟨L₃, L₄, rfl, hL, hC⟩ := List.map_eq_append_iff.mp hL
  obtain ⟨L₅, L₆, rfl, hL, hF⟩ := List.map_eq_append_iff.mp hL
  obtain ⟨D, L₇, rfl, hD, hU⟩ := List.map_eq_append_iff.mp hL
  obtain ⟨e, E, rfl, he, hE⟩ := List.map_eq_cons_iff.mp hE
  obtain rfl := List.map_eq_nil_iff.mp hE
  obtain ⟨t, C, rfl, ht, hC⟩ := List.map_eq_cons_iff.mp hC
  obtain ⟨v, F, rfl, hv, hF⟩ := List.map_eq_cons_iff.mp hF
  obtain ⟨u, U, rfl, hbu, hU⟩ := List.map_eq_cons_iff.mp hU
  -- the lines in front of which each part begins
  obtain ⟨c₁, C', hC'⟩ : ∃ c C', C ++ e :: more = c :: C' := List.exists_cons_of_ne_nil (by simp)
  obtain ⟨f₁, F', hF'⟩ : ∃ f F', F ++ t :: (C ++ e :: more) = f :: F' := List.exists_cons_of_ne_nil (by simp)
  obtain ⟨u₁, U', hU'⟩ : ∃ u U', U ++ v :: (F ++ t :: (C ++ e :: more)) = u :: U' := List.exists_cons_of_ne_nil (by simp)
  obtain ⟨d₁, D', hD'⟩ : ∃ d D', D ++ u :: (U ++ v :: (F ++ t :: (C ++ e :: more))) = d :: D' :=
    List.exists_cons_of_ne_nil (by simp)
  have hlines : D ++ u :: U ++ v :: F ++ t :: C ++ [e] ++ more = d₁ :: D' := by
    rw [← hD']
    simp
  have hfuel : T.length < D'.length + 1 := by
    have h1 := length_le_flatMap T
    rw [← hD, List.length_map] at h1
    have h2 := congrArg List.length hD'
    simp only [List.length_append, List.length_cons] at h2
    omega
  rw [hlines, parseTable]
  show (readDeltas stop (D'.length + 1) [] d₁ D' >>= _) = _
  rw [readDeltas_written hT hD (by rw [kind_of_bytes hbu]; decide) hfuel hD'.symm]
  cases T.mapM reread with
  | error q => rfl
  | ok T' =>
    have husers : ∀ l ∈ U, decide (l.kind ≠ 85) = true := by
      intro l hl
      rw [kind_eq_zero]
      · decide
      · obtain ⟨s, hs, hb⟩ := List.mem_map.mp (hU ▸ List.mem_map_of_mem hl)
        exact hb ▸ cstr_head? (hu s hs)
    have hflags : ∀ l ∈ F, decide (l.kind = 102) = true := by
      intro l hl
      obtain ⟨name, -, hb⟩ := List.mem_filterMap.mp (hF ▸ List.mem_map_of_mem hl : l.bytes ∈ flagLines file.flags)
      obtain ⟨arg, -, hb⟩ := Option.map_eq_some_iff.mp hb
      refine decide_eq_true ?_
      cases arg with
      | none => exact kind_of_bytes hb.symm
      | some arg => exact kind_of_bytes hb.symm
    have hcomments : ∀ l ∈ C, decide (l.kind = 0) = true := by
      intro l hl
      refine decide_eq_true (kind_eq_zero ?_)
      obtain ⟨s, hs, hb⟩ := List.mem_map.mp (hC ▸ List.mem_map_of_mem hl)
      exact hb ▸ cstr_head? (hc s hs)
    have hkind : ∀ {l : Line} {k : UInt8}, l.bytes = [1, k] → l.kind = k := fun h => kind_of_bytes h
    simp only [ok_bind, pure, Except.pure, List.nil_append]
    rw [expect_of_kind _ (hkind hbu), ok_bind, checkNoarg_of_bytes hbu, ok_bind, hU']
    show (readLoop stop _ addUser [] u₁ U' >>= _) = _
    rw [readLoop_lines husers (addUsers_written (fun s hs => ?_) hU []) (by rw [hkind hv]; decide) hU'.symm, ok_bind]
    · show (readLine stop (F ++ t :: (C ++ e :: more)) >>= _) = _
      rw [hF']
      show (readLoop stop _ addFlag [] f₁ F' >>= _) = _
      rw [readLoop_lines hflags (addFlags_written hF []) (by rw [hkind ht]; decide) hF'.symm, ok_bind]
      show (expect t 116 _ >>= _) = _
      rw [expect_of_kind _ (hkind ht), ok_bind, hC']
      show (readLoop stop _ addComment [] c₁ C' >>= _) = _
      rw [readLoop_lines hcomments (addComments_written C []) (by rw [hkind he]; decide) hC'.symm, ok_bind]
      show (expect e 84 _ >>= _) = _
      rw [expect_of_kind _ (hkind he), ok_bind, hC]
      rfl
    · obtain ⟨s', hs', rfl⟩ := List.mem_map.mp hs
      exact cstr_head? (hu s' hs')

end CSSC.Header
