import CSSC.Header.Checksum
import CSSC.Header.Read
import CSSC.Header.RereadFlags

/-!
# Writing a header and reading it again

A history file is opened, perhaps changed by `admin`, and its header is written. Not everything in it comes back when
the new file is opened. What holds of the header of a file that was opened, and goes on to hold, is `SccsFile.Sound`;
the headers that are obtained so are `Obtained`.

**A header comes back exactly if it survives** (`roundTrips_iff`): SIDs have no hole and no sign, lists that are there
are not empty, strings have no newline, no release that is locked is negative, and of the letters there is at most
one, or a blank is among them.
-/

namespace CSSC.Header

open CSSC.Lines CSSC.Body CSSC.Table CSSC.Library.Decimal

/-! ### Headers that were obtained -/

/-- Counts and dates that can be written. -/
structure InRange (d : FullDelta) : Prop where
  /-- Counts have five digits. -/
  counts : d.inserted ≤ 99999 ∧ d.deleted ≤ 99999 ∧ d.unchanged ≤ 99999
  /-- Years have two digits. -/
  year : 1969 ≤ d.date.year ∧ d.date.year < 2069

/-- What holds of the header of a file that was opened, and goes on to hold. -/
structure SccsFile.Sound (s : SccsFile) : Prop where
  /-- There is a delta in a table. -/
  nonempty : s.deltaTable ≠ some []
  /-- Deltas were read. -/
  deltas : ∀ T, s.deltaTable = some T → ∀ d ∈ T, Read d ∧ InRange d
  /-- Flags are sound. -/
  flags : s.flags.Sound

/-- The headers of files that are opened, and that `admin` changes. -/
inductive Obtained : SccsFile → Prop where
  /-- A file that is not one of BitKeeper is opened. -/
  | opened {mode : OpenMode} {silent : Bool} {f : List UInt8} {o : Opened} (h : openFile mode silent f = .ok o)
    (hbk : o.editModeOk = true) (hr : ∀ T, o.file.deltaTable = some T → ∀ d ∈ T, InRange d) : Obtained o.file
  /-- `admin` changes it. -/
  | admin {args : AdminArgs} {s s' : SccsFile} (h : Obtained s) (ha : admin args s = .ok s') : Obtained s'

/-- What is kept of a file that is opened was read, and its strings are lines. -/
theorem read_of_openFile {mode : OpenMode} {silent : Bool} {f : List UInt8} {o : Opened}
    (h : openFile mode silent f = .ok o) :
    o.file.deltaTable ≠ some [] ∧ (∀ T, o.file.deltaTable = some T → ∀ d ∈ T, Read d) ∧ o.file.flags.Sound ∧
      (∀ s ∈ o.file.users, Clean s) ∧ (∀ s ∈ o.file.comments, Clean s) ∧
      ∀ s, some s ∈ o.file.flags.strings → (10 : UInt8) ∉ s := by
  unfold openFile at h
  obtain ⟨r, hr, h⟩ := bind_eq_ok.mp h
  split_ifs at h
  obtain ⟨file, hfile, h⟩ := bind_eq_ok.mp h
  obtain rfl := Except.ok.inj h
  unfold parseHeader at hr
  obtain ⟨isBk, -, hr⟩ := bind_eq_ok.mp hr
  obtain ⟨rest, -, hr⟩ := bind_eq_ok.mp hr
  obtain ⟨computed, -, hr⟩ := bind_eq_ok.mp hr
  obtain ⟨⟨l, ls⟩, -, hr⟩ := bind_eq_ok.mp hr
  by_cases hk : l.kind ≠ if isBk then 72 else 104
  · simp [hk] at hr
  simp only [if_neg hk] at hr
  obtain ⟨sum, -, hr⟩ := bind_eq_ok.mp hr
  obtain ⟨t, ht, hr⟩ := bind_eq_ok.mp hr
  obtain rfl := Except.ok.inj hr
  have hread := read_of_parseTable ht
  obtain ⟨flags, hflags, hfile⟩ := bind_eq_ok.mp hfile
  obtain rfl := Except.ok.inj hfile
  exact ⟨hread.nonempty, hread.deltas, sound_of_setFlags (fun p hp s hs hm => (hread.flags p hp s hs 0 hm).1 rfl) hflags,
    hread.users, hread.comments, not_mem_of_setFlags (fun p hp s hs hm => (hread.flags p hp s hs 10 hm).2 rfl) hflags⟩

/-- **A header that was obtained is sound.** -/
theorem Obtained.sound {s : SccsFile} (h : Obtained s) : s.Sound := by
  induction h with
  | opened h _ hr =>
    obtain ⟨hne, hT, hf, -⟩ := read_of_openFile h
    exact ⟨hne, fun T hT' d hd => ⟨hT T hT' d hd, hr T hT' d hd⟩, hf⟩
  | admin _ ha ih =>
    have hflags := sound_of_admin ih.flags ha
    unfold Header.admin at ha
    obtain ⟨comments, -, ha⟩ := bind_eq_ok.mp ha
    obtain ⟨g, -, ha⟩ := bind_eq_ok.mp ha
    obtain ⟨g', -, ha⟩ := bind_eq_ok.mp ha
    obtain rfl := Except.ok.inj ha
    exact ⟨ih.nonempty, ih.deltas, hflags⟩

/-! ### What is written consists of lines -/

/-- Characters from 32 on end neither a string nor a line. -/
theorem clean_of_le {s : List UInt8} (h : ∀ c ∈ s, 32 ≤ c.toNat) : Clean s := by
  refine clean_of_not_mem (fun hm => ?_) fun hm => ?_
  · exact absurd (h 0 hm) (by decide)
  · exact absurd (h 10 hm) (by decide)

theorem le_of_isDigit {c : UInt8} (h : isDigit c = true) : 32 ≤ c.toNat := by
  simp only [isDigit, Bool.and_eq_true, decide_eq_true_eq, UInt8.le_iff_toNat_le] at h
  exact le_trans (by decide) h.1

theorem clean_decimal (n : ℕ) : Clean (decimal n) := clean_of_le fun c hc => le_of_isDigit (decimal_isDigit n c hc)

theorem clean_padded (width n : ℕ) : Clean (padded width n) :=
  clean_of_le fun c hc => le_of_isDigit (padded_isDigit width n c hc)

theorem clean_intDecimal (n : ℤ) : Clean (intDecimal n) := by
  refine clean_of_le fun c hc => ?_
  rcases intDecimal_chars n c hc with rfl | h
  · decide
  · exact le_of_isDigit h

theorem clean_sid (s : Sid) : Clean s.text := by
  refine clean_of_le fun c hc => ?_
  rcases s.text_chars c hc with rfl | rfl | h
  · decide
  · decide
  · exact le_of_isDigit h

theorem clean_intercalate {c : UInt8} (hc : c ≠ 0 ∧ c ≠ 10) {fs : Texts} (h : ∀ s ∈ fs, Clean s) :
    Clean ([c].intercalate fs) := by
  intro d hd
  rcases Library.Fields.mem_intercalate hd with rfl | ⟨s, hs, hd⟩
  · exact hc
  · exact h s hs d hd

/-- Lines of a delta. -/
theorem clean_deltaLines {d : FullDelta} (h : Writable d) : ∀ l ∈ deltaLines d, Clean l := by
  have hdate : Clean (d.date.dateText ++ d.date.timeText) :=
    clean_of_le fun c hc => le_trans (by decide) (d.date.text_chars c hc).1
  obtain ⟨hdate, htime⟩ := clean_append.mp hdate
  have htype : Clean [typeLetter d.type] := by
    cases d.type <;> simp [typeLetter, Clean]
  have hseqs : ∀ (k : ListKind) (seqs : List ℕ), ∀ l ∈ printSeqs k seqs, Clean l := by
    intro k seqs l hl
    rw [printSeqs] at hl
    split_ifs at hl
    · cases hl
    · rw [List.mem_singleton.mp hl, clean_cons, clean_cons]
      refine ⟨by decide, by cases k <;> decide, fun c hc => ?_⟩
      obtain ⟨n, -, hc⟩ := List.mem_flatMap.mp hc
      exact clean_cons.mpr ⟨by decide, clean_decimal n⟩ c hc
  intro l hl
  rw [deltaLines_eq] at hl
  simp only [List.mem_cons, List.mem_append, List.mem_flatMap, noteTexts, List.mem_map, List.not_mem_nil,
    or_false] at hl
  rcases hl with rfl | rfl | ⟨k, -, hl⟩ | (⟨s, hs, rfl⟩ | ⟨s, hs, rfl⟩) | rfl
  · simp only [iduText, clean_cons, clean_append, clean_padded]
    decide
  · refine clean_cons.mpr ⟨by decide, clean_cons.mpr ⟨by decide, clean_cons.mpr ⟨by decide, ?_⟩⟩⟩
    refine clean_intercalate (by decide) fun s hs => ?_
    simp only [fieldTexts, List.mem_cons, List.not_mem_nil, or_false] at hs
    rcases hs with rfl | rfl | rfl | rfl | rfl | rfl | rfl
    · exact htype
    · exact clean_sid _
    · exact hdate
    · exact htime
    · exact h.user.1.cstr.symm ▸ h.user.1
    · exact clean_decimal _
    · exact clean_decimal _
  · exact hseqs k _ l hl
  · have hs := h.mrs s hs
    exact clean_cons.mpr ⟨by decide, clean_cons.mpr ⟨by decide, clean_cons.mpr ⟨by decide, hs.cstr.symm ▸ hs⟩⟩⟩
  · have hs := h.comments s hs
    exact clean_cons.mpr ⟨by decide, clean_cons.mpr ⟨by decide, clean_cons.mpr ⟨by decide, hs.cstr.symm ▸ hs⟩⟩⟩
  · simp [Clean]

/-- Arguments of flags. -/
theorem clean_shown {f : Flags} (hs : ∀ s, some s ∈ f.strings → Clean s) {name : FlagName} {arg : List UInt8}
    (h : f.shown name = some (some arg)) : Clean arg := by
  have hstring : ∀ {o : Option (List UInt8)}, o ∈ f.strings → (o.map fun s => some (cstr s)) = some (some arg) →
      Clean arg := by
    intro o ho h
    obtain ⟨s, rfl, he⟩ := Option.map_eq_some_iff.mp h
    have hc := hs s ho
    rw [hc.cstr, Option.some.injEq] at he
    exact he ▸ hc
  have hrelease : ∀ {o : Option Int16}, (o.map fun r => some (intDecimal r.toInt)) = some (some arg) → Clean arg := by
    intro o h
    obtain ⟨r, -, h⟩ := Option.map_eq_some_iff.mp h
    exact Option.some.inj h ▸ clean_intDecimal _
  cases name with
  | b | i | j | n | x =>
    simp only [Flags.shown] at h
    split_ifs at h
    cases h
  | c | f => exact hrelease h
  | d =>
    obtain ⟨s, -, h⟩ := Option.map_eq_some_iff.mp h
    exact Option.some.inj h ▸ clean_sid s
  | l =>
    simp only [Flags.shown] at h
    split_ifs at h
    · obtain rfl := Option.some.inj (Option.some.inj h)
      simp [Clean]
    · obtain rfl := Option.some.inj (Option.some.inj h)
      refine clean_intercalate (by decide) fun s hs => ?_
      obtain ⟨r, -, rfl⟩ := List.mem_map.mp hs
      exact clean_intDecimal _
  | m | q | t | v | z => exact hstring (by simp [Flags.strings]) h
  | e =>
    obtain rfl := Option.some.inj (Option.some.inj h)
    cases f.encoded <;> simp [Clean]
  | y =>
    simp only [Flags.shown] at h
    split_ifs at h
    obtain rfl := Option.some.inj (Option.some.inj h)
    refine clean_intercalate (by decide) fun s hs' => ?_
    obtain ⟨c, hc, rfl⟩ := List.mem_map.mp hs'
    exact fun d hd => List.mem_singleton.mp hd ▸ hs f.letters (by simp [Flags.strings]) c hc

/-- Lines of flags. -/
theorem clean_flagLines {f : Flags} (hs : ∀ s, some s ∈ f.strings → Clean s) : ∀ l ∈ flagLines f, Clean l := by
  intro l hl
  obtain ⟨name, -, hl⟩ := List.mem_filterMap.mp hl
  obtain ⟨arg, harg, rfl⟩ := Option.map_eq_some_iff.mp hl
  have hname : name.letter ≠ 0 ∧ name.letter ≠ 10 := by cases name <;> decide
  cases arg with
  | none => simp [flagLine, hname, Clean]
  | some arg => simp [flagLine, clean_cons, hname, clean_shown hs harg]

/-- The header consists of lines. -/
theorem exists_lines {T : FullTable} {s : SccsFile} (hT : ∀ d ∈ T, Writable d) (hu : ∀ u ∈ s.users, Clean u)
    (hc : ∀ c ∈ s.comments, Clean c) (hs : ∀ t, some t ∈ s.flags.strings → Clean t) :
    ∃ L : List Line, L.map Line.bytes = headerLines T s := by
  have hlines : ∀ ls : Texts, (∀ l ∈ ls, Clean l) → ∃ L : List Line, L.map Line.bytes = ls := by
    intro ls
    induction ls with
    | nil => exact fun _ => ⟨[], rfl⟩
    | cons l ls ih =>
      intro h
      obtain ⟨hl, hls⟩ := List.forall_mem_cons.mp h
      obtain ⟨L, rfl⟩ := ih hls
      exact ⟨⟨l, fun h => (hl 0 h).1 rfl, fun h => (hl 10 h).2 rfl⟩ :: L, rfl⟩
  refine hlines _ fun l hl => ?_
  simp only [headerLines, List.mem_append, List.mem_cons, List.mem_flatMap, List.mem_map, List.not_mem_nil,
    or_false] at hl
  rcases hl with (((⟨d, hd, hl⟩ | rfl | ⟨u, hm, rfl⟩) | rfl | hl) | rfl | ⟨c, hm, rfl⟩) | rfl
  · exact clean_deltaLines (hT d hd) l hl
  · simp [Clean]
  · exact (hu u hm).cstr.symm ▸ hu u hm
  · simp [Clean]
  · exact clean_flagLines hs l hl
  · simp [Clean]
  · exact (hc c hm).cstr.symm ▸ hc c hm
  · simp [Clean]

/-! ### What is read again -/

/-- What the constructor makes of a header that was written. -/
def rereadFile (T : FullTable) (s : SccsFile) : Except Quit SccsFile := do
  let T' ← T.mapM reread
  SccsFile.ofTable ⟨if T' = [] then none else some T', s.users.map cstr, shownFlags s.flags, s.comments.map cstr⟩

theorem printed_lines (L : List Line) : printed (L.map Line.bytes) = storedLines L := by
  induction L with
  | nil => rfl
  | cons l L ih => rw [List.map_cons, printed_cons, ih, storedLines_cons, Line.stored, List.append_assoc]; rfl

/-- **A header that was written is read**, whatever comes after it. -/
theorem openFile_written {T : FullTable} {s : SccsFile} (hT : ∀ d ∈ T, Writable d)
    (hu : ∀ u ∈ s.users, u.head? ≠ some 1) (hc : ∀ c ∈ s.comments, c.head? ≠ some 1) {L : List Line}
    (hL : L.map Line.bytes = headerLines T s) (mode : OpenMode) (silent : Bool) {sum : ℤ}
    (hsum : 0 ≤ sum ∧ sum < 65536) (body : List UInt8) :
    ∃ v, openFile mode silent (sumLine sum ++ 10 :: (printed (headerLines T s) ++ body)) = (do
      let file ← rereadFile T s
      return ⟨file, v, true⟩) := by
  obtain ⟨b, hb⟩ := parseHeader_firstLine
  have hclean : Clean (sumLine sum) := clean_cons.mpr ⟨by decide, clean_cons.mpr ⟨by decide, clean_padded _ _⟩⟩
  obtain ⟨stop, hp⟩ := hb (silent || mode = .fixChecksum)
    ⟨sumLine sum, fun hm => (hclean 0 hm).1 rfl, fun hm => (hclean 10 hm).2 rfl⟩ _ (storedLines L ++ body) rfl
    (by simpa [sumLine] using sumLine_length hsum)
  obtain ⟨b', hread⟩ := readBody_append b L body
  rw [checkSum_padded _ hsum, ok_bind, hread, parseTable_written hT hu hc hL] at hp
  rw [← hL, printed_lines, openFile, hp, rereadFile]
  refine ⟨mode = .fixChecksum || decide (sum = computedSum (storedLines L ++ body)), ?_⟩
  cases T.mapM reread with
  | error q => rfl
  | ok T' => rfl

/-! ### What comes back -/

theorem mapM_eq_self {α : Type} {f : α → Except Quit α} {as : List α} :
    as.mapM f = .ok as ↔ ∀ a ∈ as, f a = .ok a := by
  induction as with
  | nil => simp [pure, Except.pure]
  | cons a as ih =>
    rw [List.mapM_cons, bind_eq_ok, List.forall_mem_cons, ← ih]
    constructor
    · rintro ⟨a', ha, h⟩
      obtain ⟨as', has, h⟩ := bind_eq_ok.mp h
      obtain ⟨rfl, rfl⟩ := List.cons.inj (Except.ok.inj h)
      exact ⟨ha, has⟩
    · rintro ⟨ha, has⟩
      exact ⟨a, ha, by rw [has]; rfl⟩

/-- No list is there without entries. -/
def ListsShown (d : FullDelta) : Prop :=
  (d.haveIncludes = true → d.included ≠ []) ∧ (d.haveExcludes = true → d.excluded ≠ []) ∧
    (d.haveIgnores = true → d.ignored ≠ [])

theorem rereadDelta_eq_self {d : FullDelta} (h : Read d) {id : Sid} : rereadDelta d id = d ↔ id = d.id ∧ ListsShown d := by
  have hbool : ∀ {b : Bool} {l : List ℕ}, (b = false → l = []) → (decide (l ≠ []) = b ↔ (b = true → l ≠ [])) := by
    intro b l hb
    cases b with
    | false => simp [hb rfl]
    | true => simp
  obtain ⟨hi, hx, hg⟩ := h.present
  obtain ⟨⟨type, id', seq, prevSeq, inc, exc, ign⟩, date, user, bi, bx, bg, mrs, comments, ins, del, unc⟩ := d
  rw [ListsShown, ← hbool hi, ← hbool hx, ← hbool hg]
  simp [rereadDelta]

/-- A delta comes back if its SID and its lists do. -/
theorem reread_eq_self {d : FullDelta} (h : Read d) : reread d = .ok d ↔ d.id.Plain ∧ ListsShown d := by
  rw [reread, bind_eq_ok, ← Sid.ofText_text_iff h.id]
  simp only [deltaSid_eq_ok, pure, Except.pure, Except.ok.injEq, rereadDelta_eq_self h]
  constructor
  · rintro ⟨id, ⟨-, rfl⟩, he, hl⟩
    exact ⟨he, hl⟩
  · rintro ⟨he, hl⟩
    exact ⟨_, ⟨he.symm ▸ h.id, rfl⟩, he, hl⟩

theorem rereadSid_eq_self {o : Option Sid} (h : ∀ s, o = some s → s.valid = true) :
    rereadSid o = .ok o ↔ ∀ s, o = some s → s.Plain := by
  cases o with
  | none => simp [rereadSid]
  | some s =>
    have hv := h s rfl
    simp only [Option.some.injEq, forall_eq', ← Sid.ofText_text_iff hv, rereadSid, sidArg, assertArg, ok_bind,
      intResult_wrapping]
    split_ifs with hs
    · simp
    · refine iff_of_false (by simp) fun he => hs (he.symm ▸ hv)

/-- The releases that are locked are shown, and none is negative. -/
def LockedShown (f : Flags) : Prop := if f.allLocked then f.locked = [] else ∀ r ∈ f.locked, ¬ r < 0

theorem rereadLocked_eq_self {f : Flags} (h : f.locked.Nodup) : rereadLocked f = .ok f.locked ↔ LockedShown f := by
  rw [rereadLocked, LockedShown]
  cases f.allLocked with
  | true => simp [eq_comm]
  | false => exact ReleaseList.ofText_text_iff h

/-- No letter is set, or a single one, or a blank is among them. -/
def LettersShown (letters : List UInt8) : Prop := letters.length ≤ 1 ∨ (32 : UInt8) ∈ letters

/-- The flags come back if those do that are not simply copied. -/
theorem setFlags_eq_self {f : Flags} (hf : f.Sound) : setFlags .initial (shownFlags f) = .ok f ↔
    (∀ s, f.defaultSid = some s → s.Plain) ∧ LockedShown f ∧ LettersShown f.letters := by
  rw [setFlags_shown hf, ← rereadSid_eq_self hf.defaultSid, ← rereadLocked_eq_self hf.locked, LettersShown,
    ← rereadLetters_iff hf.letters]
  simp only [bind_eq_ok, pure, Except.pure, Except.ok.injEq]
  constructor
  · rintro ⟨s, hs, l, hl, he⟩
    have h1 := congrArg Flags.defaultSid he
    have h2 := congrArg Flags.locked he
    have h3 := congrArg Flags.letters he
    exact ⟨h1 ▸ hs, h2 ▸ hl, h3⟩
  · rintro ⟨hs, hl, hletters⟩
    exact ⟨_, hs, _, hl, by rw [hletters]⟩

/-- A header of lines comes back if its deltas and its flags do. -/
theorem rereadFile_eq_self {T : FullTable} {s : SccsFile} (h : s.Sound) (hT : s.deltaTable = some T)
    (hu : ∀ u ∈ s.users, Clean u) (hc : ∀ c ∈ s.comments, Clean c) :
    rereadFile T s = .ok s ↔ (∀ d ∈ T, d.id.Plain ∧ ListsShown d) ∧
      (∀ d, s.flags.defaultSid = some d → d.Plain) ∧ LockedShown s.flags ∧ LettersShown s.flags.letters := by
  have hmap : ∀ {ss : Texts}, (∀ u ∈ ss, Clean u) → ss.map cstr = ss := by
    intro ss hss
    exact List.map_congr_left (fun u hu => (hss u hu).cstr) |>.trans (List.map_id ss)
  have hne : T ≠ [] := fun hnil => h.nonempty (hnil ▸ hT)
  have hdeltas : T.mapM reread = .ok T ↔ ∀ d ∈ T, d.id.Plain ∧ ListsShown d := by
    rw [mapM_eq_self]
    exact forall₂_congr fun d hd => reread_eq_self (h.deltas T hT d hd).1
  rw [← hdeltas, ← setFlags_eq_self h.flags, rereadFile, bind_eq_ok, hmap hu, hmap hc]
  simp only [SccsFile.ofTable, bind_eq_ok, pure, Except.pure, Except.ok.injEq]
  constructor
  · rintro ⟨T', hT', f, hf, he⟩
    have h1 := (congrArg SccsFile.deltaTable he).trans hT
    have h2 : f = s.flags := congrArg SccsFile.flags he
    split_ifs at h1
    obtain rfl := Option.some.inj h1
    exact ⟨hT', h2 ▸ hf⟩
  · rintro ⟨hT', hf⟩
    refine ⟨T, hT', s.flags, hf, ?_⟩
    rw [if_neg hne, ← hT]

/-! ### Round trips -/

/-- A header is written, and whatever sum and body a file has with it, the constructor makes of it what it was. -/
def RoundTrips (s : SccsFile) : Prop :=
  ∃ ls, write s = .ok ls ∧ ∀ (mode : OpenMode) (silent : Bool) (sum : ℤ) (body : List UInt8), 0 ≤ sum → sum < 65536 →
    ∃ o, openFile mode silent (sumLine sum ++ 10 :: (printed ls ++ body)) = .ok o ∧ o.file = s

/-- What a header must be like to come back. -/
structure Survives (s : SccsFile) : Prop where
  /-- There are deltas. -/
  table : s.deltaTable ≠ none
  /-- No component of a SID is negative, and none follows one that is 0; no list of a delta is there and empty. -/
  deltas : ∀ T, s.deltaTable = some T → ∀ d ∈ T, d.id.Plain ∧ ListsShown d
  /-- Users hold no NUL and no newline, and do not begin with `^A`. -/
  users : ∀ u ∈ s.users, Clean u ∧ u.head? ≠ some 1
  /-- The same holds of the lines of the description. -/
  comments : ∀ c ∈ s.comments, Clean c ∧ c.head? ≠ some 1
  /-- Strings of flags hold no newline. -/
  strings : ∀ t, some t ∈ s.flags.strings → (10 : UInt8) ∉ t
  /-- The default SID is like the SIDs of deltas. -/
  defaultSid : ∀ d, s.flags.defaultSid = some d → d.Plain
  /-- No release that is locked is negative, and none is locked besides all of them. -/
  locked : LockedShown s.flags
  /-- There is at most one letter, or a blank among them. -/
  letters : LettersShown s.flags.letters

/-- A sound header comes back exactly if it survives. -/
theorem SccsFile.Sound.roundTrips_iff {s : SccsFile} (h : s.Sound) : RoundTrips s ↔ Survives s := by
  have hwritable : ∀ T, s.deltaTable = some T → ∀ d ∈ T, Writable d := fun T hT d hd =>
    (h.deltas T hT d hd).1.writable (h.deltas T hT d hd).2.year (h.deltas T hT d hd).2.counts
  have hclean : (∀ t, some t ∈ s.flags.strings → (10 : UInt8) ∉ t) → ∀ t, some t ∈ s.flags.strings → Clean t :=
    fun hs t ht => clean_of_not_mem (h.flags.strings t ht) (hs t ht)
  constructor
  · rintro ⟨ls, hw, hr⟩
    obtain ⟨T, hT, -, hu, hc, rfl⟩ := write_eq_ok.mp hw
    obtain ⟨o, ho, rfl⟩ := hr .read false 0 [] le_rfl (by decide)
    -- what was read has no newline in it, so it was written as lines
    obtain ⟨-, -, -, hcu, hcc, hcs⟩ := read_of_openFile ho
    obtain ⟨L, hL⟩ := exists_lines (hwritable T hT) hcu hcc (hclean hcs)
    have h0 : (0 : ℤ) ≤ 0 ∧ (0 : ℤ) < 65536 := ⟨le_rfl, by decide⟩
    obtain ⟨v, hopen⟩ := openFile_written (hwritable T hT) hu hc hL .read false h0 []
    rw [ho] at hopen
    obtain ⟨file, hfile, he⟩ := bind_eq_ok.mp hopen.symm
    obtain rfl := Except.ok.inj he
    obtain ⟨hd, hdef, hl, hy⟩ := (rereadFile_eq_self h hT hcu hcc).mp hfile
    refine ⟨by rw [hT]; simp, fun T' hT' => ?_, fun u hm => ⟨hcu u hm, hu u hm⟩, fun c hm => ⟨hcc c hm, hc c hm⟩, hcs, hdef,
      hl, hy⟩
    obtain rfl := Option.some.inj (hT.symm.trans hT')
    exact hd
  · intro hs
    obtain ⟨T, hT⟩ := Option.ne_none_iff_exists'.mp hs.table
    have hu := fun u hm => (hs.users u hm).2
    have hc := fun c hm => (hs.comments c hm).2
    have hcu := fun u hm => (hs.users u hm).1
    have hcc := fun c hm => (hs.comments c hm).1
    refine ⟨headerLines T s, write_eq_ok.mpr ⟨T, hT, fun d hd => (h.deltas T hT d hd).1.id, hu, hc, rfl⟩, ?_⟩
    intro mode silent sum body h0 h1
    obtain ⟨L, hL⟩ := exists_lines (hwritable T hT) hcu hcc (hclean hs.strings)
    obtain ⟨v, hopen⟩ := openFile_written (hwritable T hT) hu hc hL mode silent ⟨h0, h1⟩ body
    have hfile := (rereadFile_eq_self h hT hcu hcc).mpr ⟨hs.deltas T hT, hs.defaultSid, hs.locked, hs.letters⟩
    exact ⟨⟨s, v, true⟩, by rw [hopen, hfile]; rfl, rfl⟩

/-- **A header that was obtained comes back exactly if it survives.** -/
theorem obtained_roundTrips_iff {s : SccsFile} (h : Obtained s) : RoundTrips s ↔ Survives s := h.sound.roundTrips_iff

/-- A small file as it is stored. -/
def smallText : List UInt8 := sumLine 0 ++ 10 :: printed (headerLines [trunkDelta 1 0 [] []] smallFile)

theorem obtained_smallFile : Obtained smallFile := by
  have ho : openFile .read true smallText = .ok ⟨smallFile, false, true⟩ := by decide +kernel
  refine .opened ho rfl fun T hT d hd => ?_
  obtain rfl := Option.some.inj hT
  obtain rfl := List.mem_singleton.mp hd
  exact ⟨by decide, by decide⟩

/-- The small file survives. -/
theorem smallFile_roundTrips : Obtained smallFile ∧ Survives smallFile ∧ RoundTrips smallFile := by
  have hs : Survives smallFile := {
    table := by decide
    deltas := fun T hT d hd => by
      obtain rfl := Option.some.inj hT
      obtain rfl := List.mem_singleton.mp hd
      exact ⟨⟨by decide, by decide, by decide, by decide, by decide, by decide⟩, by simp [ListsShown, trunkDelta]⟩
    users := by simp [smallFile]
    comments := by simp [smallFile]
    strings := by simp [smallFile, Flags.initial, Flags.strings]
    defaultSid := by simp [smallFile, Flags.initial]
    locked := by simp [LockedShown, smallFile, Flags.initial]
    letters := by simp [LettersShown, smallFile, Flags.initial] }
  exact ⟨obtained_smallFile, hs, (obtained_roundTrips_iff obtained_smallFile).mpr hs⟩

/-- `admin -fyA,B` -/
def lettersArgs : AdminArgs := ⟨.keep, false, [[121, 65, 44, 66]], [], [], []⟩

/-- The same file with two letters. -/
def lettersFile : SccsFile := { smallFile with flags := { Flags.initial with letters := [65, 66] } }

/-- Two letters come back with the blank that is printed between them. -/
theorem letters_not_roundTrips : admin lettersArgs smallFile = .ok lettersFile ∧ Obtained lettersFile ∧
    ¬ RoundTrips lettersFile := by
  have ha : admin lettersArgs smallFile = .ok lettersFile := by decide +kernel
  have ho : Obtained lettersFile := .admin obtained_smallFile ha
  refine ⟨ha, ho, fun h => ?_⟩
  rcases (ho.sound.roundTrips_iff.mp h).letters with h | h
  · exact absurd h (by decide)
  · exact absurd h (by decide)

end CSSC.Header
