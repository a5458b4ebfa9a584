import CSSC.Header.Parse

/-!
# `admin`

`sccs_file::admin` changes the description, the flags and the user list of a history file. `Flags.adminSet` and
`Flags.adminUnset` are what `-f` and `-d` do to a flag. The function fails where the source returns `false`; warnings
are left out. A release that is unset is one that is not valid.

The flags of a file that was opened are `Flags.Sound`: releases and the SID are valid, strings and letters hold no
NUL, no release is locked twice. **The constructor makes such flags, and `admin` keeps them** (`sound_of_setFlags`,
`sound_of_admin`).
-/

namespace CSSC.Header

open CSSC.Lines CSSC.Body CSSC.Table CSSC.Library.Decimal

/-! ### The description -/

/-- `file_comment`. -/
inductive FileComment where
  /-- There is none. -/
  | keep
  /-- It is empty. -/
  | clear
  /-- A file with this contents, if it can be read. -/
  | file (contents : Option (List UInt8))
  deriving DecidableEq, Repr

/-- The loop of `read_file_lines`, with the start of a line. -/
def readFileLoop : List UInt8 → List UInt8 → List (List UInt8)
  | s, [] => if s = [] then [] else [s]
  | s, ch :: f => if ch = 10 then s :: readFileLoop [] f else readFileLoop (s ++ [ch]) f

/-- `read_file_lines`. -/
def readFileLines (f : List UInt8) : List (List UInt8) := readFileLoop [] f

/-- The description that `admin` leaves. -/
def newComments (comments : List (List UInt8)) : FileComment → Except Quit (List (List UInt8))
  | .keep => .ok comments
  | .clear => .ok []
  | .file none => .error (.failure "failed to read from %s")
  | .file (some f) => .ok (readFileLines f)

/-! ### Flags -/

namespace ReleaseList

/-- `merge`. -/
def merge (l m : ReleaseList) : ReleaseList := m.foldl insert l

/-- `remove`. -/
def remove (l rm : ReleaseList) : ReleaseList := l.filter (· ∉ rm)

end ReleaseList

/-- `isalpha`, in the C locale. -/
def isAlpha (c : UInt8) : Bool := (65 ≤ c && c ≤ 90) || (97 ≤ c && c ≤ 122)

/-- A character in an argument of `y`: commas are passed over. -/
def addLetter (letters : List UInt8) (c : UInt8) : Except Quit (List UInt8) :=
  if c = 44 then .ok letters
  else if isAlpha c then .ok (charSet (c :: letters))
  else .error (.failure "Unexpected character '%c' in argument to option '-fy'.")

/-- The letters of an argument of `y`. -/
def keywordLetters (value : List UInt8) : Except Quit (List UInt8) := value.foldlM addLetter []

/-- The argument of `c` and `f`. -/
def adminRelease (value : List UInt8) (msg : String) : Except Quit (Option Int16) :=
  match releaseOfText value with
  | none => .error (.failure msg)
  | some r => .ok (some r)

/-- What `-f` does to a flag. -/
def Flags.adminSet (f : Flags) (name : FlagName) (value : List UInt8) : Except Quit Flags :=
  match name with
  | .b => .ok { f with branch := true }
  | .c => do
    let r ← adminRelease value "Invalid release ceiling: '%s'"
    return { f with ceiling := r }
  | .f => do
    let r ← adminRelease value "Invalid release floor: '%s'"
    return { f with floor := r }
  | .d =>
    if (Sid.ofText value).valid then .ok { f with defaultSid := some (Sid.ofText value) }
    else .error (.failure "Invalid default SID: '%s'")
  | .i =>
    if value ≠ [] then .error (.failure "Flag 'i' does not take an argument.")
    else .ok { f with noIdKeywordsIsFatal := true }
  | .j => .ok { f with jointEdit := true }
  | .l =>
    if value = [97] then .ok { f with allLocked := true, locked := [] }
    else do
      let l ← ReleaseList.ofText value
      return { f with locked := ReleaseList.merge [] l }
  | .m => .ok { f with module_ := some value }
  | .n => .ok { f with nullDeltas := true }
  | .q => .ok { f with userDef := some value }
  | .e => .error (.failure "The encoding flag must be set with the -b option")
  | .t => .ok { f with type := some value }
  | .v => .ok { f with mrChecker := some value }
  | .x => .ok { f with executable := true }
  | .y => do
    let letters ← keywordLetters value
    return { f with letters := letters }
  | .z => .error (.failure "Unrecognized flag '%c'")

/-- What `-d` does to a flag. -/
def Flags.adminUnset (f : Flags) (name : FlagName) (value : List UInt8) : Except Quit Flags :=
  match name with
  | .b => .ok { f with branch := false }
  | .c => .ok { f with ceiling := none }
  | .f => .ok { f with floor := none }
  | .d => .ok { f with defaultSid := none }
  | .i => .ok { f with noIdKeywordsIsFatal := false }
  | .j => .ok { f with jointEdit := false }
  | .l =>
    if value = [97] then .ok { f with allLocked := false, locked := [] }
    else if f.allLocked then
      .error (.failure ("Unlocking just release %s of %s is not possible, " ++
        "since all releases are locked.  Use admin -dla to unlock all releases."))
    else do
      let l ← ReleaseList.ofText value
      return { f with locked := f.locked.remove l }
  | .m => .ok { f with module_ := none }
  | .n => .ok { f with nullDeltas := false }
  | .q => .ok { f with userDef := none }
  | .e => .error (.failure "Deletion of the binary-encoding flag is not supported.")
  | .t => .ok { f with type := none }
  | .v => .ok { f with mrChecker := none }
  | .x => .ok { f with executable := false }
  | .y => .ok { f with letters := [] }
  | .z => .error (.failure "Unrecognized flag '%c'")

/-- The loop over `set_flags`. The value is a C string. -/
def adminSetFlag (f : Flags) (arg : List UInt8) : Except Quit Flags :=
  match FlagName.ofLetter (arg.headD 0) with
  | none => .error (.failure "Unrecognized flag '%c'")
  | some name => f.adminSet name (cstr (arg.drop 1))

/-- The loop over `unset_flags`. There is no value in an empty string. -/
def adminUnsetFlag (f : Flags) (arg : List UInt8) : Except Quit Flags :=
  match arg with
  | [] => .error .aborted
  | letter :: value =>
    match FlagName.ofLetter letter with
    | none => .error (.failure "Unrecognized flag '%c'")
    | some name => f.adminUnset name (cstr value)

/-! ### The command -/

/-- The arguments of `admin`. -/
structure AdminArgs where
  /-- `file_comment`. -/
  fileComment : FileComment
  /-- `force_binary`. -/
  forceBinary : Bool
  /-- `set_flags`. -/
  setFlags : List (List UInt8)
  /-- `unset_flags`. -/
  unsetFlags : List (List UInt8)
  /-- `add_users`. -/
  addUsers : List (List UInt8)
  /-- `erase_users`. -/
  eraseUsers : List (List UInt8)
  deriving DecidableEq, Repr

/-- `admin`. -/
def admin (args : AdminArgs) (file : SccsFile) : Except Quit SccsFile := do
  let comments ← newComments file.comments args.fileComment
  let flags ← args.setFlags.foldlM adminSetFlag { file.flags with encoded := file.flags.encoded || args.forceBinary }
  let flags ← args.unsetFlags.foldlM adminUnsetFlag flags
  return ⟨file.deltaTable, args.addUsers ++ file.users.filter (· ∉ args.eraseUsers), flags, comments⟩

/-! ### What holds of the flags -/

/-- The flags that are strings, and the letters. -/
def Flags.strings (f : Flags) : List (Option (List UInt8)) :=
  [f.module_, f.userDef, f.type, f.mrChecker, f.reserved, some f.letters]

/-- What holds of the flags of a file that was opened, and goes on to hold. -/
structure Flags.Sound (f : Flags) : Prop where
  /-- A floor is valid. -/
  floor : ∀ r, f.floor = some r → 0 < r
  /-- So is a ceiling. -/
  ceiling : ∀ r, f.ceiling = some r → 0 < r
  /-- So is a default SID. -/
  defaultSid : ∀ s, f.defaultSid = some s → s.valid = true
  /-- Strings hold no NUL. -/
  strings : ∀ s, some s ∈ f.strings → (0 : UInt8) ∉ s
  /-- No release is locked twice. -/
  locked : f.locked.Nodup
  /-- The letters are a set. -/
  letters : charSet f.letters = f.letters

theorem Flags.sound_initial : Flags.initial.Sound where
  floor := by simp [initial]
  ceiling := by simp [initial]
  defaultSid := by simp [initial]
  strings := by simp [initial, Flags.strings]
  locked := List.nodup_nil
  letters := by simp [initial, charSet]

namespace ReleaseList

theorem nodup_insert {l : ReleaseList} (h : l.Nodup) (r : Int16) : (l.insert r).Nodup := by
  rw [insert]
  split_ifs with hr
  · exact h
  · rw [← List.concat_eq_append]
    exact h.concat hr

theorem nodup_merge {l : ReleaseList} (h : l.Nodup) (m : ReleaseList) : (l.merge m).Nodup := by
  induction m generalizing l with
  | nil => exact h
  | cons r m ih => exact ih (nodup_insert h r)

theorem nodup_ofTextLoop {fuel : ℕ} {l l' : ReleaseList} {s : List UInt8} (h : l.Nodup)
    (hl : ofTextLoop fuel l s = .ok l') : l'.Nodup := by
  induction fuel generalizing l s with
  | zero => exact Except.ok.inj hl ▸ h
  | succ fuel ih =>
    simp only [ofTextLoop] at hl
    split at hl
    · exact Except.ok.inj hl ▸ h
    · split at hl
      · cases hl
      · exact ih (nodup_insert h _) hl

theorem nodup_ofText {s : List UInt8} {l : ReleaseList} (h : ofText s = .ok l) : l.Nodup :=
  nodup_ofTextLoop List.nodup_nil h

end ReleaseList

theorem charSet_charSet (s : List UInt8) : charSet (charSet s) = charSet s := charSet_eq.mpr fun _ => mem_charSet

theorem releaseOfText_pos {s : List UInt8} {r : Int16} (h : releaseOfText s = some r) : 0 < r := by
  simp only [releaseOfText] at h
  split_ifs at h with hc
  exact Option.some.inj h ▸ hc.2

/-- Steps that keep a property, one after the other. -/
theorem foldlM_keeps {α σ : Type} {P : σ → Prop} {step : σ → α → Except Quit σ} {as : List α}
    (hstep : ∀ s a t, a ∈ as → P s → step s a = .ok t → P t) {s t : σ} (hs : P s) (h : as.foldlM step s = .ok t) : P t := by
  induction as generalizing s with
  | nil => exact Except.ok.inj h ▸ hs
  | cons a as ih =>
    rw [List.foldlM_cons] at h
    obtain ⟨u, hu, h⟩ := bind_eq_ok.mp h
    exact ih (fun s a t ha => hstep s a t (List.mem_cons_of_mem _ ha)) (hstep s a u List.mem_cons_self hs hu) h

/-- The letters are a set of letters. -/
theorem keywordLetters_keeps {value letters : List UInt8} (h : keywordLetters value = .ok letters) :
    charSet letters = letters ∧ ∀ c ∈ letters, isAlpha c = true := by
  refine foldlM_keeps (P := fun l => charSet l = l ∧ ∀ c ∈ l, isAlpha c = true) (fun l c l' _ hl h => ?_)
    ⟨by simp [charSet], by simp⟩ h
  rw [addLetter] at h
  split_ifs at h with hcomma halpha
  · exact Except.ok.inj h ▸ hl
  · obtain rfl := Except.ok.inj h
    refine ⟨charSet_charSet _, fun d hd => ?_⟩
    rcases List.mem_cons.mp (mem_charSet.mp hd) with rfl | hd
    · exact halpha
    · exact hl.2 d hd

theorem deref_eq_ok {arg : Option (List UInt8)} {s : List UInt8} : deref arg = .ok s ↔ arg = some s := by
  cases arg <;> simp [deref]

theorem releaseArg_pos {arg : Option (List UInt8)} {msg : String} {r : Option Int16} (h : releaseArg arg msg = .ok r) :
    ∀ x, r = some x → 0 < x := by
  obtain ⟨s, -, h⟩ := bind_eq_ok.mp h
  rw [intResult_wrapping] at h
  split at h
  · cases h
  · rename_i x hx
    obtain rfl := Except.ok.inj h
    exact fun y hy => Option.some.inj hy ▸ releaseOfText_pos hx

theorem sidArg_valid {arg : Option (List UInt8)} {msg : String} {r : Option Sid} (h : sidArg arg msg = .ok r) :
    ∀ x, r = some x → x.valid = true := by
  obtain ⟨s, -, h⟩ := bind_eq_ok.mp h
  rw [intResult_wrapping] at h
  split_ifs at h with hv
  obtain rfl := Except.ok.inj h
  exact fun y hy => Option.some.inj hy ▸ hv

/-- A character that no string has is not in the strings either when one is replaced. -/
theorem Flags.not_mem_set {c : UInt8} {f g : Flags} (hf : ∀ s, some s ∈ f.strings → c ∉ s) {name : FlagName}
    {arg : Option (List UInt8)} (harg : ∀ s, arg = some s → c ∉ s) (h : f.set name arg = .ok g) :
    ∀ s, some s ∈ g.strings → c ∉ s := by
  intro u hu
  have hold := hf u
  cases name with
  | i | b | n | j | x =>
    obtain rfl := Except.ok.inj h
    exact hold hu
  | t | v | m | q | z =>
    obtain ⟨s, hs, h⟩ := bind_eq_ok.mp h
    have hs := harg s (deref_eq_ok.mp hs)
    obtain rfl := Except.ok.inj h
    simp only [Flags.strings, List.mem_cons, List.not_mem_nil, or_false, Option.some.injEq] at hu hold
    grind
  | y =>
    obtain ⟨s, hs, h⟩ := bind_eq_ok.mp h
    have hs : c ∉ charSet s := fun hm => harg s (deref_eq_ok.mp hs) (mem_charSet.mp hm)
    obtain rfl := Except.ok.inj h
    simp only [Flags.strings, List.mem_cons, List.not_mem_nil, or_false, Option.some.injEq] at hu hold
    grind
  | f | c | d | e =>
    obtain ⟨r, -, h⟩ := bind_eq_ok.mp h
    obtain rfl := Except.ok.inj h
    exact hold hu
  | l =>
    simp only [Flags.set] at h
    split_ifs at h
    · obtain rfl := Except.ok.inj h
      exact hold hu
    · obtain ⟨s, -, h⟩ := bind_eq_ok.mp h
      obtain ⟨l, -, h⟩ := bind_eq_ok.mp h
      obtain rfl := Except.ok.inj h
      exact hold hu

/-- A flag of the file keeps the others as they are. -/
theorem Flags.Sound.set {f g : Flags} (hf : f.Sound) {name : FlagName} {arg : Option (List UInt8)}
    (harg : ∀ s, arg = some s → (0 : UInt8) ∉ s) (h : f.set name arg = .ok g) : g.Sound := by
  have hstrings := Flags.not_mem_set hf.strings harg h
  cases name with
  | i | b | n | j | x => exact Except.ok.inj h ▸ { hf with }
  | t | v | m | q | z =>
    obtain ⟨s, -, h⟩ := bind_eq_ok.mp h
    obtain rfl := Except.ok.inj h
    exact { hf with strings := hstrings }
  | f =>
    obtain ⟨r, hr, h⟩ := bind_eq_ok.mp h
    exact Except.ok.inj h ▸ { hf with floor := releaseArg_pos hr }
  | c =>
    obtain ⟨r, hr, h⟩ := bind_eq_ok.mp h
    exact Except.ok.inj h ▸ { hf with ceiling := releaseArg_pos hr }
  | d =>
    obtain ⟨r, hr, h⟩ := bind_eq_ok.mp h
    exact Except.ok.inj h ▸ { hf with defaultSid := sidArg_valid hr }
  | l =>
    simp only [Flags.set] at h
    split_ifs at h
    · exact Except.ok.inj h ▸ { hf with }
    · obtain ⟨s, -, h⟩ := bind_eq_ok.mp h
      obtain ⟨l, hl, h⟩ := bind_eq_ok.mp h
      exact Except.ok.inj h ▸ { hf with locked := ReleaseList.nodup_ofText hl }
  | y =>
    obtain ⟨s, -, h⟩ := bind_eq_ok.mp h
    obtain rfl := Except.ok.inj h
    exact { hf with letters := charSet_charSet s, strings := hstrings }
  | e =>
    obtain ⟨b, -, h⟩ := bind_eq_ok.mp h
    exact Except.ok.inj h ▸ { hf with }

/-- What the strings of the parser do not hold, the flags do not hold. -/
theorem not_mem_of_setFlags {c : UInt8} {ps : List ParsedFlag} {f : Flags}
    (hps : ∀ p ∈ ps, ∀ s, p.value = some s → c ∉ s) (h : setFlags .initial ps = .ok f) :
    ∀ s, some s ∈ f.strings → c ∉ s := by
  refine foldlM_keeps (P := fun f => ∀ s, some s ∈ f.strings → c ∉ s) (fun f p g hp hf hg => ?_)
    (by simp [Flags.initial, Flags.strings]) h
  rw [setFlag] at hg
  split at hg
  · cases hg
  · exact Flags.not_mem_set hf (hps p hp) hg

/-- **The constructor makes sound flags.** -/
theorem sound_of_setFlags {ps : List ParsedFlag} {f : Flags} (hps : ∀ p ∈ ps, ∀ s, p.value = some s → (0 : UInt8) ∉ s)
    (h : setFlags .initial ps = .ok f) : f.Sound := by
  refine foldlM_keeps (fun f p g hp hf hg => ?_) Flags.sound_initial h
  rw [setFlag] at hg
  split at hg
  · cases hg
  · exact hf.set (hps p hp) hg

theorem adminRelease_pos {value : List UInt8} {msg : String} {r : Option Int16} (h : adminRelease value msg = .ok r) :
    ∀ x, r = some x → 0 < x := by
  rw [adminRelease] at h
  split at h
  · cases h
  · rename_i x hx
    obtain rfl := Except.ok.inj h
    exact fun y hy => Option.some.inj hy ▸ releaseOfText_pos hx

theorem Flags.Sound.adminSet {f g : Flags} (hf : f.Sound) {name : FlagName} {value : List UInt8}
    (hv : (0 : UInt8) ∉ value) (h : f.adminSet name value = .ok g) : g.Sound := by
  cases name with
  | b | j | n | x => exact Except.ok.inj h ▸ { hf with }
  | e | z => cases h
  | m | q | t | v =>
    refine Except.ok.inj h ▸ { hf with strings := fun u hu => ?_ }
    have hold := hf.strings u
    simp only [Flags.strings, List.mem_cons, List.not_mem_nil, or_false, Option.some.injEq] at hu hold
    grind
  | c =>
    obtain ⟨r, hr, h⟩ := bind_eq_ok.mp h
    exact Except.ok.inj h ▸ { hf with ceiling := adminRelease_pos hr }
  | f =>
    obtain ⟨r, hr, h⟩ := bind_eq_ok.mp h
    exact Except.ok.inj h ▸ { hf with floor := adminRelease_pos hr }
  | d =>
    simp only [Flags.adminSet] at h
    split_ifs at h with hvalid
    exact Except.ok.inj h ▸ { hf with defaultSid := fun s hs => Option.some.inj hs ▸ hvalid }
  | i =>
    simp only [Flags.adminSet] at h
    split_ifs at h
    exact Except.ok.inj h ▸ { hf with }
  | l =>
    simp only [Flags.adminSet] at h
    split_ifs at h
    · exact Except.ok.inj h ▸ { hf with locked := List.nodup_nil }
    · obtain ⟨l, -, h⟩ := bind_eq_ok.mp h
      exact Except.ok.inj h ▸ { hf with locked := ReleaseList.nodup_merge List.nodup_nil l }
  | y =>
    obtain ⟨letters, hl, h⟩ := bind_eq_ok.mp h
    obtain ⟨hset, halpha⟩ := keywordLetters_keeps hl
    refine Except.ok.inj h ▸ { hf with letters := hset, strings := fun u hu => ?_ }
    have hold := hf.strings u
    have h0 : (0 : UInt8) ∉ letters := fun hm => absurd (halpha 0 hm) (by decide)
    simp only [Flags.strings, List.mem_cons, List.not_mem_nil, or_false, Option.some.injEq] at hu hold
    grind

theorem Flags.Sound.adminUnset {f g : Flags} (hf : f.Sound) {name : FlagName} {value : List UInt8}
    (h : f.adminUnset name value = .ok g) : g.Sound := by
  cases name with
  | b | j | n | x | i => exact Except.ok.inj h ▸ { hf with }
  | e | z => cases h
  | m | q | t | v =>
    refine Except.ok.inj h ▸ { hf with strings := fun u hu => hf.strings u ?_ }
    simp only [Flags.strings, List.mem_cons, List.not_mem_nil, or_false, reduceCtorEq] at hu ⊢
    grind
  | c => exact Except.ok.inj h ▸ { hf with ceiling := by simp }
  | f => exact Except.ok.inj h ▸ { hf with floor := by simp }
  | d => exact Except.ok.inj h ▸ { hf with defaultSid := by simp }
  | l =>
    simp only [Flags.adminUnset] at h
    split_ifs at h
    · exact Except.ok.inj h ▸ { hf with locked := List.nodup_nil }
    · obtain ⟨l, -, h⟩ := bind_eq_ok.mp h
      exact Except.ok.inj h ▸ { hf with locked := hf.locked.filter _ }
  | y =>
    refine Except.ok.inj h ▸ { hf with letters := by simp [charSet], strings := fun u hu => ?_ }
    have hold := hf.strings u
    simp only [Flags.strings, List.mem_cons, List.not_mem_nil, or_false, Option.some.injEq] at hu hold
    grind

/-- **`admin` keeps flags sound.** -/
theorem sound_of_admin {args : AdminArgs} {file file' : SccsFile} (hf : file.flags.Sound)
    (h : admin args file = .ok file') : file'.flags.Sound := by
  unfold admin at h
  obtain ⟨comments, -, h⟩ := bind_eq_ok.mp h
  obtain ⟨g, hg, h⟩ := bind_eq_ok.mp h
  obtain ⟨g', hg', h⟩ := bind_eq_ok.mp h
  rw [← Except.ok.inj h]
  have hstart : Flags.Sound { file.flags with encoded := file.flags.encoded || args.forceBinary } :=
    ⟨hf.floor, hf.ceiling, hf.defaultSid, hf.strings, hf.locked, hf.letters⟩
  refine foldlM_keeps (fun f arg g _ hf h => ?_) (foldlM_keeps (fun f arg g _ hf h => ?_) hstart hg) hg'
  · cases arg with
    | nil => cases h
    | cons letter value =>
      simp only [adminUnsetFlag] at h
      split at h
      · cases h
      · exact hf.adminUnset h
  · rw [adminSetFlag] at h
    split at h
    · cases h
    · exact hf.adminSet (zero_not_mem_cstr _) h

end CSSC.Header
