import CSSC.Header.Admin
import CSSC.Header.Reread

/-!
# Reading flags that were written

Each flag that is set is written as a line, and the constructor sets it from the argument in this line. What the
constructor makes of all of them is computed here (`setFlags_shown`). Most come back as they were. A list of releases
does exactly if none is negative (`ofText_text_iff`), and letters do exactly if there is at most one, or a blank among
them (`rereadLetters_iff`).
-/

namespace CSSC.Header

open CSSC.Lines CSSC.Body CSSC.Table CSSC.Library.Decimal

/-! ### Releases -/

theorem releaseOfText_intDecimal {r : Int16} (h : 0 < r) : releaseOfText (intDecimal r.toInt) = some r := by
  simp [releaseOfText, Sid.getIdComp_last (Int16.le_of_lt h), h]

namespace ReleaseList

/-- Releases with a blank in front of each. -/
def spaced (l : ReleaseList) : List UInt8 := l.flatMap fun r => 32 :: intDecimal r.toInt

theorem text_cons (r : Int16) (l : ReleaseList) : text (r :: l) = intDecimal r.toInt ++ spaced l := by
  induction l generalizing r with
  | nil => simp [text, spaced]
  | cons r' l ih =>
    have h : text (r :: r' :: l) = intDecimal r.toInt ++ 32 :: text (r' :: l) := by
      simp [text, List.intercalate_cons_of_ne_nil]
    rw [h, ih]
    rfl

/-- `strtol` reads a release, after a blank or without one. -/
theorem strtol_release {p t : List UInt8} (hp : p = [] ∨ p = [32]) (r : Int16) (ht : isDigit (t.headD 0) = false) :
    strtol (p ++ (intDecimal r.toInt ++ t)) = (r.toInt, t) := by
  have hskip : ∀ s : List UInt8, (p ++ s).dropWhile isSpace = s.dropWhile isSpace := by
    intro s
    rcases hp with rfl | rfl
    · rfl
    · rw [List.singleton_append, List.dropWhile_cons_of_pos (by decide)]
  have hsame : ∀ s : List UInt8, (strtol s).2 ≠ s → strtol (p ++ s) = strtol s := by
    intro s hs
    simp only [strtol, hskip] at hs ⊢
    split_ifs at hs ⊢ with h1 <;> first | rfl | exact absurd rfl hs
  have hnum : strtol (intDecimal r.toInt ++ t) = (r.toInt, t) := by
    have hdec := decimal_isDigit r.toInt.natAbs
    have hne := decimal_ne_nil r.toInt.natAbs
    by_cases h0 : r.toInt < 0
    · rw [intDecimal_of_neg h0, List.cons_append]
      obtain ⟨h1, h2⟩ := takeWhile_digits hdec ht
      have hsp : (45 :: (decimal r.toInt.natAbs ++ t)).dropWhile isSpace = 45 :: (decimal r.toInt.natAbs ++ t) :=
        List.dropWhile_cons_of_neg (by decide)
      simp only [strtol, hsp, List.head?_cons, true_or, if_true, List.tail_cons, h1, h2, if_neg hne, valueFrom_decimal]
      exact Prod.ext (by simp only; omega) rfl
    · rw [intDecimal_of_nonneg (by omega), strtol_digits hdec hne ht, valueFrom_decimal]
      exact Prod.ext (by simp only; omega) rfl
  rw [hsame _ ?_, hnum]
  rw [hnum]
  show t ≠ _
  intro h
  have := congrArg List.length h
  have hpos : 0 < (intDecimal r.toInt).length := List.length_pos_of_ne_nil (intDecimal_ne_nil _)
  rw [List.length_append] at this
  omega

theorem headD_spaced (l : ReleaseList) : (spaced l).headD 0 = 0 ∨ (spaced l).headD 0 = 32 := by
  cases l with
  | nil => exact .inl rfl
  | cons r l => exact .inr rfl

/-- One turn of the loop. -/
theorem ofTextLoop_release {fuel : ℕ} {acc : ReleaseList} {p : List UInt8} (hp : p = [] ∨ p = [32]) (r : Int16)
    (l : ReleaseList) :
    ofTextLoop (fuel + 1) acc (p ++ (intDecimal r.toInt ++ spaced l)) =
      if r < 0 then .error (.failure "ranges not allowed in release lists")
      else ofTextLoop fuel (acc.insert r) (spaced l) := by
  have hhead := headD_spaced l
  have hstr := strtol_release hp r (t := spaced l) (by rcases hhead with h | h <;> rw [h] <;> decide)
  have hr := r.toInt_lt
  have hr' := r.le_toInt
  have hlong : toLong r.toInt = r.toInt := by
    rw [toLong]
    omega
  have hpos : 0 < (intDecimal r.toInt).length := List.length_pos_of_ne_nil (intDecimal_ne_nil _)
  have hne : ¬ (p ++ (intDecimal r.toInt ++ spaced l) = [] ∨ spaced l = p ++ (intDecimal r.toInt ++ spaced l)) := by
    rintro (h | h)
    · have := congrArg List.length h
      simp only [List.length_append, List.length_nil] at this
      omega
    · have := congrArg List.length h
      simp only [List.length_append] at this
      omega
  have hcomma : (spaced l).head? ≠ some 44 := by
    cases l <;> simp [spaced]
  rw [ofTextLoop]
  simp only [hstr, if_neg hne, hlong, if_neg hcomma, Int16.ofInt_toInt]
  have hlt : r.toInt < 0 ↔ r < 0 := by
    rw [Int16.lt_iff_toInt_lt]
    rfl
  simp only [hlt]

/-- The loop over releases that were printed. -/
theorem ofTextLoop_spaced {fuel : ℕ} {acc l : ReleaseList} (hfuel : l.length ≤ fuel) (hnd : (acc ++ l).Nodup) :
    ofTextLoop fuel acc (spaced l) =
      if l.any (· < 0) then .error (.failure "ranges not allowed in release lists") else .ok (acc ++ l) := by
  induction l generalizing fuel acc with
  | nil =>
    rw [List.any_nil, if_neg Bool.false_ne_true, List.append_nil]
    cases fuel with
    | zero => rfl
    | succ fuel => rw [ofTextLoop]; exact if_pos (.inl rfl)
  | cons r l ih =>
    obtain ⟨fuel, rfl⟩ : ∃ k, fuel = k + 1 := ⟨fuel - 1, by rw [List.length_cons] at hfuel; omega⟩
    have hr : r ∉ acc := fun hm => (List.nodup_append.mp hnd).2.2 r hm r List.mem_cons_self rfl
    have hsp : spaced (r :: l) = [32] ++ (intDecimal r.toInt ++ spaced l) := by simp [spaced]
    rw [hsp, ofTextLoop_release (.inr rfl), insert, if_neg hr, ih (Nat.le_of_succ_le_succ hfuel) (by simpa using hnd)]
    by_cases h0 : r < 0
    · rw [if_pos h0, List.any_cons, decide_eq_true h0, Bool.true_or, if_pos rfl]
    · rw [if_neg h0, List.any_cons, decide_eq_false h0, Bool.false_or, List.append_assoc, List.singleton_append]

/-- **A list of releases is read back exactly if none is negative.** -/
theorem ofText_text_iff {l : ReleaseList} (h : l.Nodup) : ofText l.text = .ok l ↔ ∀ r ∈ l, ¬ r < 0 := by
  cases l with
  | nil => exact iff_of_true rfl (by simp)
  | cons r l =>
    have hlen : l.length + 1 ≤ (text (r :: l)).length := by
      have hsp : ∀ l : ReleaseList, l.length ≤ (spaced l).length := by
        intro l
        induction l with
        | nil => exact le_rfl
        | cons r l ih =>
          simp only [spaced, List.flatMap_cons, List.length_append, List.length_cons] at ih ⊢
          omega
      have hpos : 0 < (intDecimal r.toInt).length := List.length_pos_of_ne_nil (intDecimal_ne_nil _)
      rw [text_cons, List.length_append]
      have := hsp l
      omega
    obtain ⟨fuel, hfuel⟩ : ∃ k, (text (r :: l)).length = k + 1 := ⟨(text (r :: l)).length - 1, by omega⟩
    have hloop : ofTextLoop (fuel + 1) [] ([] ++ (intDecimal r.toInt ++ spaced l)) = _ := ofTextLoop_release (.inl rfl) r l
    rw [List.nil_append] at hloop
    rw [ofText, hfuel, text_cons, hloop, insert, if_neg List.not_mem_nil, List.nil_append,
      ofTextLoop_spaced (by omega) (by simpa using h)]
    by_cases h0 : r < 0
    · rw [if_pos h0]
      exact iff_of_false (by simp) fun h => h r List.mem_cons_self h0
    · rw [if_neg h0]
      by_cases hl : l.any (· < 0) = true
      · rw [if_pos hl]
        refine iff_of_false (by simp) fun h => ?_
        obtain ⟨s, hs, hneg⟩ := List.any_eq_true.mp hl
        exact h s (List.mem_cons_of_mem r hs) (of_decide_eq_true hneg)
      · rw [if_neg hl]
        refine iff_of_true rfl (List.forall_mem_cons.mpr ⟨h0, fun s hs hneg => hl ?_⟩)
        exact List.any_eq_true.mpr ⟨s, hs, decide_eq_true hneg⟩

end ReleaseList

/-! ### Letters -/

/-- The letters as they are printed. -/
def lettersText (letters : List UInt8) : List UInt8 := [32].intercalate (letters.map fun c => [c])

/-- What the constructor makes of the letters. -/
def rereadLetters (letters : List UInt8) : List UInt8 := charSet (lettersText letters)

theorem mem_lettersText {letters : List UInt8} {c : UInt8} :
    c ∈ lettersText letters ↔ c ∈ letters ∨ (c = 32 ∧ 1 < letters.length) := by
  induction letters with
  | nil => simp [lettersText]
  | cons d letters ih =>
    cases letters with
    | nil => simp [lettersText]
    | cons d' letters =>
      have h : lettersText (d :: d' :: letters) = d :: 32 :: lettersText (d' :: letters) := by
        simp [lettersText, List.intercalate_cons_of_ne_nil]
      rw [h, List.mem_cons, List.mem_cons, ih]
      simp only [List.mem_cons, List.length_cons]
      constructor
      · rintro (h | h | h | ⟨h, -⟩)
        · exact .inl (.inl h)
        · exact .inr ⟨h, by omega⟩
        · exact .inl (.inr h)
        · exact .inr ⟨h, by omega⟩
      · rintro ((h | h) | ⟨h, -⟩)
        · exact .inl h
        · exact .inr (.inr (.inl h))
        · exact .inr (.inl h)

/-- **Letters are read back exactly if there is at most one, or a blank among them.** -/
theorem rereadLetters_iff {letters : List UInt8} (h : charSet letters = letters) :
    rereadLetters letters = letters ↔ letters.length ≤ 1 ∨ (32 : UInt8) ∈ letters := by
  have hset : rereadLetters letters = letters ↔ ∀ c, c ∈ lettersText letters ↔ c ∈ letters := by
    rw [← charSet_eq, h, rereadLetters]
  rw [hset]
  constructor
  · intro hall
    by_cases hlen : letters.length ≤ 1
    · exact .inl hlen
    · exact .inr ((hall 32).mp (mem_lettersText.mpr (.inr ⟨rfl, by omega⟩)))
  · intro hor c
    rw [mem_lettersText]
    refine or_iff_left_of_imp ?_
    rintro ⟨rfl, hlen⟩
    exact hor.resolve_left (by omega)

/-! ### All flags -/

/-- What the constructor makes of the default SID. -/
def rereadSid : Option Sid → Except Quit (Option Sid)
  | none => .ok none
  | some s => sidArg (some s.text) "Bad 'd' flag argument %s"

/-- What the constructor makes of the releases that are locked. -/
def rereadLocked (f : Flags) : Except Quit ReleaseList :=
  if f.allLocked then .ok [] else ReleaseList.ofText f.locked.text

/-- A flag is set as it was shown. -/
def applyShown (f g : Flags) (name : FlagName) : Except Quit Flags :=
  match f.shown name with
  | none => .ok g
  | some arg => g.set name arg

theorem setFlags_eq_foldlM (f g : Flags) (names : List FlagName) :
    setFlags g (names.filterMap fun name => (f.shown name).map fun arg => ⟨name.letter, arg⟩) =
      names.foldlM (applyShown f) g := by
  induction names generalizing g with
  | nil => rfl
  | cons name names ih =>
    rw [List.foldlM_cons, applyShown]
    cases h : f.shown name with
    | none =>
      rw [List.filterMap_cons_none (by simp [h]), ih]
      rfl
    | some arg =>
      rw [List.filterMap_cons_some (b := ⟨name.letter, arg⟩) (by simp [h]), setFlags, List.foldlM_cons, setFlag,
        FlagName.ofLetter_letter]
      exact congrArg _ (funext fun g => ih g)

/-- Flags with one more that was shown, where it is read back whatever it is. -/
def Flags.adopt (f g : Flags) : FlagName → Flags
  | .b => { g with branch := g.branch || f.branch }
  | .c => { g with ceiling := f.ceiling.or g.ceiling }
  | .f => { g with floor := f.floor.or g.floor }
  | .i => { g with noIdKeywordsIsFatal := g.noIdKeywordsIsFatal || f.noIdKeywordsIsFatal }
  | .j => { g with jointEdit := g.jointEdit || f.jointEdit }
  | .m => { g with module_ := f.module_.or g.module_ }
  | .n => { g with nullDeltas := g.nullDeltas || f.nullDeltas }
  | .q => { g with userDef := f.userDef.or g.userDef }
  | .t => { g with type := f.type.or g.type }
  | .v => { g with mrChecker := f.mrChecker.or g.mrChecker }
  | .e => { g with encoded := f.encoded }
  | .x => { g with executable := g.executable || f.executable }
  | .y => { g with letters := if f.letters = [] then g.letters else rereadLetters f.letters }
  | .z => { g with reserved := f.reserved.or g.reserved }
  | .d | .l => g

theorem Flags.Sound.cstr {f : Flags} (hf : f.Sound) {s : List UInt8} (h : some s ∈ f.strings) : cstr s = s :=
  cstr_eq_self (hf.strings s h)

/-- A flag whose argument is a string is set to that string. -/
theorem applyShown_string {f : Flags} (hf : f.Sound) (g : Flags) {name : FlagName} {field : Option (List UInt8)}
    (hfield : field ∈ f.strings) (hshown : f.shown name = field.map fun s => some (cstr s))
    {write : List UInt8 → Flags} (hset : ∀ s, g.set name (some s) = .ok (write s)) :
    applyShown f g name = .ok (field.elim g write) := by
  rw [applyShown, hshown]
  cases field with
  | none => rfl
  | some s =>
    rw [Option.map_some, hf.cstr hfield]
    exact hset s

/-- A flag whose argument is a release is set to that release. -/
theorem applyShown_release {f : Flags} (g : Flags) {name : FlagName} {field : Option Int16}
    (hpos : ∀ r, field = some r → 0 < r)
    (hshown : f.shown name = (field.filter (0 < ·)).map fun r => some (intDecimal r.toInt)) {msg : String}
    {write : Option Int16 → Flags} (hset : ∀ arg, g.set name arg = (releaseArg arg msg).map write) :
    applyShown f g name = .ok (field.elim g fun r => write (some r)) := by
  rw [applyShown, hshown]
  cases field with
  | none => rfl
  | some r =>
    have hr := hpos r rfl
    rw [Option.filter_some_pos (by simpa using hr), Option.map_some]
    dsimp only
    rw [hset, releaseArg, deref, ok_bind, intResult_wrapping, releaseOfText_intDecimal hr]
    rfl

/-- Such a flag is set. -/
theorem applyShown_adopt {f : Flags} (hf : f.Sound) (g : Flags) {name : FlagName} (hd : name ≠ .d) (hl : name ≠ .l) :
    applyShown f g name = .ok (f.adopt g name) := by
  cases name with
  | d => exact absurd rfl hd
  | l => exact absurd rfl hl
  | b => cases h : f.branch <;> simp [applyShown, Flags.shown, Flags.set, Flags.adopt, h]
  | i => cases h : f.noIdKeywordsIsFatal <;> simp [applyShown, Flags.shown, Flags.set, Flags.adopt, h]
  | j => cases h : f.jointEdit <;> simp [applyShown, Flags.shown, Flags.set, Flags.adopt, h]
  | n => cases h : f.nullDeltas <;> simp [applyShown, Flags.shown, Flags.set, Flags.adopt, h]
  | x => cases h : f.executable <;> simp [applyShown, Flags.shown, Flags.set, Flags.adopt, h]
  | e => cases h : f.encoded <;> simp [applyShown, Flags.shown, Flags.set, Flags.adopt, encodedArg, deref, h, pure, Except.pure]
  | c =>
    rw [@applyShown_release f g .c f.ceiling hf.ceiling rfl _ (fun r => { g with ceiling := r }) fun _ => rfl]
    cases h : f.ceiling <;> simp [Flags.adopt, h]
  | f =>
    rw [@applyShown_release f g .f f.floor hf.floor rfl _ (fun r => { g with floor := r }) fun _ => rfl]
    cases h : f.floor <;> simp [Flags.adopt, h]
  | m =>
    rw [@applyShown_string f hf g .m f.module_ (by simp [Flags.strings]) rfl (fun s => { g with module_ := some s })
      fun _ => rfl]
    cases h : f.module_ <;> simp [Flags.adopt, h]
  | q =>
    rw [@applyShown_string f hf g .q f.userDef (by simp [Flags.strings]) rfl (fun s => { g with userDef := some s })
      fun _ => rfl]
    cases h : f.userDef <;> simp [Flags.adopt, h]
  | t =>
    rw [@applyShown_string f hf g .t f.type (by simp [Flags.strings]) rfl (fun s => { g with type := some s })
      fun _ => rfl]
    cases h : f.type <;> simp [Flags.adopt, h]
  | v =>
    rw [@applyShown_string f hf g .v f.mrChecker (by simp [Flags.strings]) rfl (fun s => { g with mrChecker := some s })
      fun _ => rfl]
    cases h : f.mrChecker <;> simp [Flags.adopt, h]
  | z =>
    rw [@applyShown_string f hf g .z f.reserved (by simp [Flags.strings]) rfl (fun s => { g with reserved := some s })
      fun _ => rfl]
    cases h : f.reserved <;> simp [Flags.adopt, h]
  | y =>
    by_cases h : f.letters = []
    · simp [applyShown, Flags.shown, Flags.adopt, h]
    · simp [applyShown, Flags.shown, Flags.set, Flags.adopt, h, deref, pure, Except.pure, rereadLetters, lettersText]

theorem applyShown_d {f : Flags} (hf : f.Sound) (g : Flags) : applyShown f g .d = (do
    let s ← rereadSid f.defaultSid
    return { g with defaultSid := s.or g.defaultSid }) := by
  cases h : f.defaultSid with
  | none => simp [applyShown, Flags.shown, h, rereadSid, pure, Except.pure]
  | some s =>
    have hs := hf.defaultSid s h
    simp only [applyShown, Flags.shown, Flags.set, h, Option.filter, hs, if_true, Option.map_some, rereadSid, sidArg,
      assertArg, ok_bind, intResult_wrapping]
    split_ifs <;> rfl

theorem applyShown_l (f g : Flags) : applyShown f g .l = (do
    let l ← rereadLocked f
    return { g with
      allLocked := g.allLocked || f.allLocked
      locked := if f.allLocked = true ∨ f.locked = [] then g.locked else l }) := by
  cases ha : f.allLocked with
  | true => simp [applyShown, Flags.shown, Flags.set, ha, rereadLocked, pure, Except.pure]
  | false =>
    by_cases h : f.locked = []
    · simp [applyShown, Flags.shown, ha, h, rereadLocked, ReleaseList.text, ReleaseList.ofText, ReleaseList.ofTextLoop, pure,
        Except.pure]
    · have hne : f.locked.text ≠ [97] := by
        obtain ⟨r, l, hl⟩ := List.exists_cons_of_ne_nil h
        rw [hl, ReleaseList.text_cons]
        intro he
        obtain ⟨c, s, hc⟩ := List.exists_cons_of_ne_nil (intDecimal_ne_nil r.toInt)
        rw [hc, List.cons_append] at he
        rcases intDecimal_chars r.toInt c (hc ▸ List.mem_cons_self) with h | h
        · exact absurd (h.symm.trans (List.cons.inj he).1) (by decide)
        · rw [(List.cons.inj he).1] at h
          exact absurd h (by decide)
      simp [applyShown, Flags.shown, Flags.set, ha, h, hne, rereadLocked, assertArg]

/-- **The flags that the constructor sets.** -/
theorem setFlags_shown {f : Flags} (hf : f.Sound) : setFlags .initial (shownFlags f) = (do
    let s ← rereadSid f.defaultSid
    let l ← rereadLocked f
    return { f with defaultSid := s, locked := l, letters := rereadLetters f.letters }) := by
  have hadopt : ∀ (g : Flags) {name : FlagName}, name ≠ .d → name ≠ .l → ∀ k : Flags → Except Quit Flags,
      (applyShown f g name >>= k) = k (f.adopt g name) := by
    intro g name hd hl k
    rw [applyShown_adopt hf g hd hl, ok_bind]
  rw [shownFlags, setFlags_eq_foldlM, flagOrder]
  simp only [List.foldlM_cons, List.foldlM_nil]
  rw [hadopt _ (by decide) (by decide), hadopt _ (by decide) (by decide), applyShown_d hf]
  cases rereadSid f.defaultSid with
  | error q => rfl
  | ok s =>
    simp only [ok_bind, pure, Except.pure]
    rw [hadopt _ (by decide) (by decide), hadopt _ (by decide) (by decide), hadopt _ (by decide) (by decide), applyShown_l]
    cases hl : rereadLocked f with
    | error q => rfl
    | ok l =>
      simp only [ok_bind, pure, Except.pure]
      iterate 9 rw [hadopt _ (by decide) (by decide)]
      -- a list that is not shown is empty
      have hlocked : (if f.allLocked = true ∨ f.locked = [] then [] else l) = l := by
        split_ifs with h
        · rw [rereadLocked] at hl
          rcases h with h | h
          · rw [if_pos h] at hl
            exact Except.ok.inj hl
          · rw [h] at hl
            split_ifs at hl
            · exact Except.ok.inj hl
            · exact Except.ok.inj hl
        · rfl
      have hletters : (if f.letters = [] then [] else rereadLetters f.letters) = rereadLetters f.letters := by
        split_ifs with h
        · rw [h]
          simp [rereadLetters, lettersText, charSet]
        · rfl
      simp only [Flags.adopt, Flags.initial, Bool.false_or, Option.or_none, hlocked, hletters]

end CSSC.Header
