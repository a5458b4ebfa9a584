import CSSC.Header.Parse

/-!
# What can be opened safely

Opening a file should end with a message about what is wrong with it, or with a complete state: `Safely`. The header of
a history file is described by an automaton over its lines (`Place`, `next`), which says what kinds of lines follow each
other and which of them are accepted, and the parser is shown to follow it (`parseTable_safely`).

What is not safe is then told by the lines: a line that is not refused, but of which fields are read that it does not
have (`Offends`), a flag whose argument is missing (`FlagOffends`), or a header without a delta. `opens_safely_iff` says
that a file is opened safely exactly if there is nothing of this kind in it, whether or not the overflow of an `int` is
held to be defined.
-/

namespace CSSC.Header

open CSSC.Lines CSSC.Body CSSC.Table CSSC.Library.Decimal

/-- The program says that the file is corrupt, or that it does not handle such files. -/
def Reports : Quit → Prop
  | .corrupt _ => True
  | .failure _ => True
  | _ => False

/-- A result that is good, or a refusal. -/
def Safely {α : Type} (good : α → Prop) : Except Quit α → Prop
  | .ok a => good a
  | .error q => Reports q

/-! ### The grammar of a header -/

/-- The places in a header. -/
inductive Place where
  /-- In front of a delta or the user list. -/
  | table
  /-- After `^As`. -/
  | delta
  /-- After `^Ad`, where these lists may still come. -/
  | lists (ks : List ListKind)
  /-- In the user list. -/
  | users
  /-- In the flags. -/
  | flags
  /-- In the description. -/
  | text
  /-- After `^AT`. -/
  | finished
  deriving DecidableEq

/-- The fields of a line `^Ad`. -/
def deltaFields (l : Line) : Args := Linebuf.split 7 32 (l.bytes.drop 3)

/-- The lines after `^Ad`: lists in their order, MRs and comments, and `^Ae`. -/
def nextList : List ListKind → Line → Option Place
  | [], l => if isNote l then some (.lists []) else if l.kind = 101 ∧ l.bufchar 2 = 0 then some .table else none
  | k :: ks, l =>
    if l.kind = k.letter then (if (ListKind.readSeqs l).isOk then some (.lists ks) else none) else nextList ks l

/-- The place after a line that is accepted. -/
def next [IntOverflow] : Place → Line → Option Place
  | .table, l =>
    if l.kind = 115 then (if (readIdu l).isOk then some .delta else none)
    else if l.kind = 117 ∧ l.bufchar 2 = 0 then some .users
    else none
  | .delta, l =>
    if l.kind = 100 ∧ l.bufchar 2 = 32 ∧ (readFields (deltaFields l) (0, 0, 0)).isOk then some (.lists [.i, .x, .g])
    else none
  | .lists ks, l => nextList ks l
  | .users, l => if l.kind = 85 then some .flags else if l.kind = 0 then some .users else none
  | .flags, l =>
    if l.kind = 102 then (if (addFlag [] l).isOk then some .flags else none)
    else if l.kind = 116 then some .text
    else none
  | .text, l => if l.kind = 0 then some .text else if l.kind = 84 then some .finished else none
  | .finished, _ => none

/-- The place after lines that are all accepted. -/
def follow [IntOverflow] (p : Place) (ls : List Line) : Option Place := ls.foldlM next p

/-! ### What is not safe -/

/-- The date has the right form, and a year of four digits outside 1969..2068. -/
def DateAsserts (date time : List UInt8) : Prop :=
  let century := (SccsDate.splitCentury date).1
  ∃ y md t, SccsDate.threeFields 47 (SccsDate.fixColon (SccsDate.splitCentury date).2) = some (y, md) ∧
    SccsDate.threeFields 58 time = some t ∧ century ≠ 0 ∧
      (century * 100 + y < 1969 ∨ 2069 ≤ century * 100 + y)

/-- The fields from the user on: those that are missing are read. -/
def NumbersOffend : List (List UInt8) → Prop
  | [] | [_] => True
  | [_, seq] => (strictAtous seq).isOk = true
  | _ => False

/-- The fields from the date on: one is missing, or the year is asserted not to come. -/
def DateOffends [IntOverflow] : List (List UInt8) → Prop
  | date :: time :: rest => DateAsserts date time ∨ ((deltaDate date time).isOk = true ∧ NumbersOffend rest)
  | _ => True

/-- The fields of a line `^Ad`: the line ends in front of a field that is read, or has a year that is asserted not to
come, or a number in the SID that overflows. Each field is read if those in front of it are in order. -/
def FieldsOffend [IntOverflow] : List (List UInt8) → Prop
  | [] => False
  | [type] => (deltaType type).isOk = true
  | type :: id :: rest =>
    (deltaType type).isOk = true ∧ (Overflow (Sid.overflows id) ∨ ((deltaSid id).isOk = true ∧ DateOffends rest))

/-- A line at this place offends. -/
def Offends [IntOverflow] (p : Place) (l : Line) : Prop :=
  p = .delta ∧ l.kind = 100 ∧ l.bufchar 2 = 32 ∧ FieldsOffend (deltaFields l).args

/-- The flag of a line `^Af`. -/
def flagOf (l : Line) : Option ParsedFlag :=
  if l.kind = 102 then some ⟨l.bufchar 3, if l.bufchar 4 = 32 then some (l.bytes.drop 5) else none⟩ else none

/-- The number that is an argument overflows: a release, or one in a SID. -/
def argOverflows (name : FlagName) (arg : List UInt8) : Bool :=
  match name with
  | .f | .c => idCompOverflows arg
  | .d => Sid.overflows arg
  | _ => false

/-- A flag that needs an argument has none, or the argument overflows. -/
def FlagOffends [IntOverflow] (p : ParsedFlag) : Prop :=
  ∃ name, FlagName.ofLetter p.letter = some name ∧
    p.value.elim (name.isSwitch = false) fun arg => Overflow (argOverflows name arg)

/-- A flag offends, and those in front of it are in order. -/
def FlagsOffend [IntOverflow] (ps : List ParsedFlag) : Prop :=
  ∃ pre p post, ps = pre ++ p :: post ∧ (∀ q ∈ pre, (setFlag .initial q).isOk = true) ∧ FlagOffends p

/-- A header with flags that offend, or without a delta and with flags that are all accepted. -/
def TableOffends [IntOverflow] (header : List Line) : Prop :=
  FlagsOffend (header.filterMap flagOf) ∨
    ((∀ l ∈ header, l.kind ≠ 115) ∧ ∀ p ∈ header.filterMap flagOf, (setFlag .initial p).isOk = true)

/-- From a place on, the reading comes to a line that offends, or to one that starts with a NUL; or it comes to the end
of a header that is not good. -/
def Offence [IntOverflow] (stop : Quit) (good : List Line → Prop) (seen : List Line) (p : Place) (ls : List Line) :
    Prop :=
  (∃ pre l post p', ls = pre ++ l :: post ∧ follow p pre = some p' ∧ Offends p' l) ∨
    (¬ Reports stop ∧ ∃ p', follow p ls = some p' ∧ p' ≠ .finished) ∨
    ∃ header post, ls = header ++ post ∧ follow p header = some .finished ∧ ¬ good (seen ++ header)

/-- What is not safe: the sum of the characters overflows; or the first line has a NUL after its magic number; or its
checksum is accepted, and then a line offends, or the end of the header. A file of BitKeeper is refused before its flags
are looked at, if it is to be changed. -/
def OpenOffends [IntOverflow] (mode : OpenMode) (silent : Bool) (f : List UInt8) : Prop :=
  ∃ isBk rest l ls, magic f = .ok isBk ∧ eatFirstLine f = .ok rest ∧
    (countedLines (readBody Linebuf.initial f)).1 = l :: ls ∧
      (Overflow (sumOverflows 0 rest) ∨ f[2]? = some 0 ∨
        ((checkSum (silent || mode = .fixChecksum) (computedSum rest) (l.bytes.drop 2)).isOk = true ∧
          Offence (countedLines (readBody Linebuf.initial f)).2
            (fun header => (isBk = true ∧ mode ≠ .read) ∨ ¬ TableOffends header) [] .table ls))

/-! ### Following the automaton -/

section

variable [IntOverflow] {stop : Quit} {good : List Line → Prop}

theorem follow_cons (p : Place) (l : Line) (ls : List Line) :
    follow p (l :: ls) = (next p l).bind fun p' => follow p' ls := List.foldlM_cons

theorem follow_finished {ls : List Line} {p : Place} (h : follow .finished ls = some p) : ls = [] ∧ p = .finished := by
  cases ls with
  | nil => exact ⟨rfl, (Option.some.inj h).symm⟩
  | cons l ls => cases h

theorem offence_finished {seen ls : List Line} : Offence stop good seen .finished ls ↔ ¬ good seen := by
  constructor
  · rintro (⟨pre, l, post, p', -, hf, ho⟩ | ⟨-, p', hf, hne⟩ | ⟨header, post, -, hf, hg⟩)
    · obtain ⟨-, rfl⟩ := follow_finished hf
      cases ho.1
    · exact absurd (follow_finished hf).2 hne
    · obtain ⟨rfl, -⟩ := follow_finished hf
      rwa [List.append_nil] at hg
  · intro hg
    exact .inr (.inr ⟨[], ls, rfl, rfl, by rwa [List.append_nil]⟩)

theorem offence_nil {seen : List Line} {p : Place} (hp : p ≠ .finished) :
    Offence stop good seen p [] ↔ ¬ Reports stop := by
  constructor
  · rintro (⟨pre, l, post, p', h, -⟩ | ⟨hs, -⟩ | ⟨header, post, h, hf, -⟩)
    · simp at h
    · exact hs
    · obtain rfl : header = [] := (List.append_eq_nil_iff.mp h.symm).1
      exact absurd (Option.some.inj hf) hp
  · intro hs
    exact .inr (.inl ⟨hs, p, rfl, hp⟩)

/-- One line more. -/
theorem offence_cons {seen ls : List Line} {p : Place} {l : Line} (hp : p ≠ .finished) :
    Offence stop good seen p (l :: ls) ↔
      Offends p l ∨ ∃ p', next p l = some p' ∧ Offence stop good (seen ++ [l]) p' ls := by
  constructor
  · rintro (⟨pre, l', post, p', h, hf, ho⟩ | ⟨hs, p', hf, hne⟩ | ⟨header, post, h, hf, hg⟩)
    · cases pre with
      | nil =>
        obtain ⟨rfl, rfl⟩ := List.cons.inj h
        obtain rfl := Option.some.inj hf
        exact .inl ho
      | cons l₁ pre =>
        obtain ⟨rfl, rfl⟩ := List.cons.inj h
        rw [follow_cons] at hf
        obtain ⟨p₁, h₁, hf⟩ := Option.bind_eq_some_iff.mp hf
        exact .inr ⟨p₁, h₁, .inl ⟨pre, l', post, p', rfl, hf, ho⟩⟩
    · rw [follow_cons] at hf
      obtain ⟨p₁, h₁, hf⟩ := Option.bind_eq_some_iff.mp hf
      exact .inr ⟨p₁, h₁, .inr (.inl ⟨hs, p', hf, hne⟩)⟩
    · cases header with
      | nil => exact absurd (Option.some.inj hf) hp
      | cons l₁ header =>
        obtain ⟨rfl, rfl⟩ := List.cons.inj h
        rw [follow_cons] at hf
        obtain ⟨p₁, h₁, hf⟩ := Option.bind_eq_some_iff.mp hf
        exact .inr ⟨p₁, h₁, .inr (.inr ⟨header, post, rfl, hf, by rwa [List.append_assoc]⟩)⟩
  · rintro (ho | ⟨p₁, h₁, ⟨pre, l', post, p', rfl, hf, ho⟩ | ⟨hs, p', hf, hne⟩ | ⟨header, post, rfl, hf, hg⟩⟩)
    · exact .inl ⟨[], l, ls, p, rfl, rfl, ho⟩
    · exact .inl ⟨l :: pre, l', post, p', rfl, by rw [follow_cons, h₁]; exact hf, ho⟩
    · exact .inr (.inl ⟨hs, p', by rw [follow_cons, h₁]; exact hf, hne⟩)
    · exact .inr (.inr ⟨l :: header, post, rfl, by rw [follow_cons, h₁]; exact hf, by rwa [List.append_assoc] at hg⟩)

/-- Only the line after `^As` can offend. -/
theorem not_offends {p : Place} {l : Line} (hp : p ≠ .delta) : ¬ Offends p l := fun h => hp h.1

/-- A line that is accepted. -/
theorem offence_of_next {seen ls : List Line} {p p' : Place} {l : Line} (ho : ¬ Offends p l) (h : next p l = some p') :
    Offence stop good seen p (l :: ls) ↔ Offence stop good (seen ++ [l]) p' ls := by
  have hp : p ≠ .finished := by
    rintro rfl
    cases h
  rw [offence_cons hp]
  simp [ho, h]

/-- A line that is refused. -/
theorem offence_of_refused {seen ls : List Line} {p : Place} {l : Line} (hp : p ≠ .finished) (h : next p l = none) :
    Offence stop good seen p (l :: ls) ↔ Offends p l := by
  rw [offence_cons hp]
  simp [h]

end

/-! ### Where the parser refuses a line -/

theorem safely_bind {α β : Type} {good : β → Prop} {x : Except Quit α} {f : α → Except Quit β} :
    Safely good (x >>= f) ↔ (∀ q, x = .error q → Reports q) ∧ ∀ a, x = .ok a → Safely good (f a) := by
  cases x with
  | error q => simp [Safely]
  | ok a => simp

/-- Numbers are refused with a message. -/
theorem strictAtous_error {s : List UInt8} {q : Quit} (h : strictAtous s = .error q) : Reports q := by
  have hloop : ∀ (s : List UInt8) (n : ℕ) (e : Bool), strictAtousLoop n e s = .error q → Reports q := by
    intro s
    induction s with
    | nil =>
      intro n e h
      rw [strictAtousLoop] at h
      split at h
      · exact Except.error.inj h ▸ trivial
      · cases h
    | cons c s ih =>
      intro n e h
      rw [strictAtousLoop] at h
      split at h
      · exact Except.error.inj h ▸ trivial
      split at h
      · exact Except.error.inj h ▸ trivial
      · exact ih _ _ h
  exact hloop s 0 true h

theorem mapM_error {α β : Type} {f : α → Except Quit β} {q : Quit} {xs : List α} (h : xs.mapM f = .error q) :
    ∃ x ∈ xs, f x = .error q := by
  induction xs with
  | nil => cases h
  | cons x xs ih =>
    rw [List.mapM_cons] at h
    rcases bind_eq_error.mp h with h | ⟨y, hy, h⟩
    · exact ⟨x, List.mem_cons_self, h⟩
    · rcases bind_eq_error.mp h with h | ⟨ys, -, h⟩
      · obtain ⟨z, hz, h⟩ := ih h
        exact ⟨z, List.mem_cons_of_mem x hz, h⟩
      · cases h

theorem readSeqs_error {l : Line} {q : Quit} (h : ListKind.readSeqs l = .error q) : Reports q := by
  rw [ListKind.readSeqs] at h
  split at h
  · cases h
  · obtain ⟨s, -, hs⟩ := mapM_error h
    exact strictAtous_error hs

theorem checkArg_error {l : Line} {q : Quit} (h : checkArg l = .error q) : Reports q := by
  rw [checkArg] at h
  split at h
  · exact Except.error.inj h ▸ trivial
  · cases h

theorem strictAtoulIdu_error {s : List UInt8} {q : Quit} (h : strictAtoulIdu s = .error q) : Reports q := by
  simp only [strictAtoulIdu] at h
  split_ifs at h
  · exact Except.error.inj h ▸ trivial
  · exact Except.error.inj h ▸ trivial

/-- What is counted was assigned. -/
theorem split_argc_le (len : ℕ) (c : UInt8) (s : List UInt8) :
    (Linebuf.split len c s).argc ≤ (Linebuf.split len c s).args.length := by
  induction len generalizing s with
  | zero => exact le_rfl
  | succ len ih =>
    rw [Linebuf.split]
    split
    · exact Nat.succ_le_succ (ih _)
    · dsimp only
      split <;> simp

theorem field_of_lt {a : Args} {i : ℕ} (h : i < a.args.length) : field a i = .ok (a.args[i]) := by
  rw [field, List.getElem?_eq_getElem h]

/-- A line `^As` is refused with a message: the fields that are read are those that were counted. -/
theorem readIdu_error {l : Line} {q : Quit} (h : readIdu l = .error q) : Reports q := by
  rw [readIdu] at h
  rcases bind_eq_error.mp h with h | ⟨-, -, h⟩
  · exact checkArg_error h
  dsimp only at h
  split at h
  · exact Except.error.inj h ▸ trivial
  · rename_i hc
    have hlen := split_argc_le 3 47 (l.bytes.drop 3)
    rw [not_not.mp hc] at hlen
    rw [field_of_lt (by omega), ok_bind] at h
    rcases bind_eq_error.mp h with h | ⟨i, -, h⟩
    · exact strictAtoulIdu_error h
    rw [field_of_lt (by omega), ok_bind] at h
    rcases bind_eq_error.mp h with h | ⟨d, -, h⟩
    · exact strictAtoulIdu_error h
    rw [field_of_lt (by omega), ok_bind] at h
    rcases bind_eq_error.mp h with h | ⟨u, -, h⟩
    · exact strictAtoulIdu_error h
    · cases h

theorem deltaType_error {s : List UInt8} {q : Quit} (h : deltaType s = .error q) : Reports q := by
  rw [deltaType] at h
  split_ifs at h
  exact Except.error.inj h ▸ trivial

/-- A result that comes from an `int` is safe, unless the `int` overflows. -/
theorem intResult_safely [IntOverflow] {α : Type} {good : α → Prop} {overflows : Bool} {x : Except Quit α} :
    Safely good (intResult overflows x) ↔ ¬ Overflow overflows ∧ Safely good x := by
  by_cases h : Overflow overflows
  · rw [intResult_of_overflow h]
    exact iff_of_false id fun hn => hn.1 h
  · rw [intResult_of_not h, and_iff_right h]

theorem reports_iff_safely {α : Type} {x : Except Quit α} :
    (∀ q, x = .error q → Reports q) ↔ Safely (fun _ => True) x := by
  cases x with
  | error q => simp [Safely]
  | ok a => simp [Safely]

/-- A SID is refused with a message, or it overflows. -/
theorem deltaSid_error [IntOverflow] (s : List UInt8) :
    (∀ q, deltaSid s = .error q → Reports q) ↔ ¬ Overflow (Sid.overflows s) := by
  rw [reports_iff_safely, deltaSid, intResult_safely]
  refine and_iff_left ?_
  split_ifs <;> trivial

/-- A year of two digits is in the window. -/
theorem y2kWindow_digits {y : ℤ} (h0 : 0 ≤ y) (h : y < 100) : ∃ y', y2kWindow y = .ok y' := by
  simp only [y2kWindow]
  split_ifs
  · exact ⟨_, rfl⟩
  · omega
  · exact ⟨_, rfl⟩
  · omega

theorem getTwoDigits_bounds {a b : UInt8} (ha : isDigit a = true) (hb : isDigit b = true) :
    0 ≤ getTwoDigits a b ∧ getTwoDigits a b < 100 := by
  have h1 := isDigit_bounds ha
  have h2 := isDigit_bounds hb
  rw [getTwoDigits, digitValue, digitValue]
  omega

theorem threeFields_bounds {sep : UInt8} {s : List UInt8} {y : ℤ} {r : ℤ × ℤ}
    (h : SccsDate.threeFields sep s = some (y, r)) : 0 ≤ y ∧ y < 100 := by
  unfold SccsDate.threeFields at h
  split at h
  · split_ifs at h with hd
    obtain rfl := (Prod.mk.inj (Option.some.inj h)).1
    exact getTwoDigits_bounds hd.1 hd.2.1
  · cases h

/-- A year of two digits is never asserted not to come. -/
theorem fullYear_error {century y : ℤ} {q : Quit} (h0 : 0 ≤ y) (h : y < 100) :
    SccsDate.fullYear century y = .error q ↔
      q = .assertion ∧ century ≠ 0 ∧ (century * 100 + y < 1969 ∨ 2069 ≤ century * 100 + y) := by
  rw [SccsDate.fullYear]
  split_ifs with hc hy
  · exact iff_of_false (by simp) (by omega)
  · rw [Except.error.injEq, eq_comm]
    exact (and_iff_left ⟨hc, by omega⟩).symm
  · obtain ⟨y', hy'⟩ := y2kWindow_digits h0 h
    rw [hy']
    exact iff_of_false (by simp) fun hn => hc hn.2.1

/-- Only the assertion about the year stops the reading of a date. -/
theorem ofText_error {date time : List UInt8} {q : Quit} :
    SccsDate.ofText date time = .error q ↔ q = .assertion ∧ DateAsserts date time := by
  simp only [SccsDate.ofText, DateAsserts]
  split
  · rename_i y mo da h mi s hd ht
    obtain ⟨h0, h1⟩ := threeFields_bounds hd
    rw [hd, ht]
    have hmap : ∀ {x : Except Quit ℤ} {g : ℤ → SccsDate}, x.map g = .error q ↔ x = .error q := by
      intro x g
      cases x <;> simp [Except.map]
    rw [hmap, fullYear_error h0 h1]
    refine and_congr_right fun _ => ⟨fun hy => ⟨y, (mo, da), (h, mi, s), rfl, rfl, hy⟩, ?_⟩
    rintro ⟨_, _, _, he, -, hy⟩
    obtain rfl := (Prod.mk.inj (Option.some.inj he)).1
    exact hy
  · rename_i hno
    refine iff_of_false (by simp) ?_
    rintro ⟨-, y, ⟨mo, da⟩, ⟨h, mi, s⟩, hd, ht, -⟩
    exact hno y mo da h mi s hd ht

/-- A date is refused with a message, or the year is asserted not to come. -/
theorem deltaDate_error (date time : List UInt8) :
    (∀ q, deltaDate date time = .error q → Reports q) ↔ ¬ DateAsserts date time := by
  constructor
  · intro h ha
    have he : SccsDate.ofText date time = .error .assertion := ofText_error.mpr ⟨rfl, ha⟩
    exact h .assertion (by rw [deltaDate, he]; rfl)
  · intro hn q h
    rcases bind_eq_error.mp h with h | ⟨d, -, h⟩
    · exact absurd (ofText_error.mp h).2 hn
    · split_ifs at h
      exact Except.error.inj h ▸ trivial

@[simp] theorem isOk_ok {α : Type} (a : α) : (Except.ok a : Except Quit α).isOk = true := rfl
@[simp] theorem isOk_error {α : Type} (q : Quit) : (Except.error q : Except Quit α).isOk = false := rfl

theorem isOk_bind_congr {α β γ : Type} {x : Except Quit α} {f : α → Except Quit β} {g : α → Except Quit γ}
    (h : ∀ a, (f a).isOk = (g a).isOk) : (x >>= f).isOk = (x >>= g).isOk := by
  cases x with
  | error q => rfl
  | ok a => exact h a

/-- The counts have no part in whether a line `^Ad` is accepted. -/
theorem readFields_isOk [IntOverflow] (a : Args) (idu idu' : ℕ × ℕ × ℕ) :
    (readFields a idu).isOk = (readFields a idu').isOk := by
  simp only [readFields]
  repeat refine isOk_bind_congr fun _ => ?_
  rfl

theorem isOk_iff {α : Type} {x : Except Quit α} : x.isOk = true ↔ ∃ a, x = .ok a := by
  cases x with
  | error q => exact iff_of_false (by simp [Except.isOk, Except.toBool]) (by simp)
  | ok a => exact iff_of_true rfl ⟨a, rfl⟩

/-- A step that refuses with a message only, if `P` does not hold. -/
theorem safely_step {α β : Type} {good : β → Prop} {x : Except Quit α} {f : α → Except Quit β} {P Q : Prop}
    (hx : (∀ q, x = .error q → Reports q) ↔ P) (hf : ∀ a, x = .ok a → (Safely good (f a) ↔ Q)) :
    Safely good (x >>= f) ↔ P ∧ (x.isOk = true → Q) := by
  rw [safely_bind, hx, isOk_iff]
  refine and_congr_right fun _ => ?_
  constructor
  · rintro h ⟨a, ha⟩
    exact (hf a ha).mp (h a ha)
  · exact fun h a ha => (hf a ha).mpr (h ⟨a, ha⟩)

/-- A line `^Ad` is accepted, refused with a message, or offends. -/
theorem readFields_safely [IntOverflow] {args : List (List UInt8)} {argc : ℕ} {idu : ℕ × ℕ × ℕ} (ha : args ≠ []) :
    Safely (fun _ => True) (readFields ⟨args, argc⟩ idu) ↔ ¬ FieldsOffend args := by
  have htype : ∀ s, (∀ q, deltaType s = .error q → Reports q) ↔ True := fun s => iff_true_intro fun _ => deltaType_error
  have hnum : ∀ s, (∀ q, strictAtous s = .error q → Reports q) ↔ True :=
    fun s => iff_true_intro fun _ => strictAtous_error
  match args with
  | [type] =>
    refine (safely_step (htype type) fun _ _ => show _ ↔ False from Iff.rfl).trans ?_
    simp [FieldsOffend]
  | [type, id] =>
    refine (safely_step (htype type) fun _ _ => safely_step (deltaSid_error id) fun _ _ =>
      show _ ↔ False from Iff.rfl).trans ?_
    simp [FieldsOffend, DateOffends]
  | [type, id, d] =>
    refine (safely_step (htype type) fun _ _ => safely_step (deltaSid_error id) fun _ _ =>
      show _ ↔ False from Iff.rfl).trans ?_
    simp [FieldsOffend, DateOffends]
  | [type, id, d, t] =>
    refine (safely_step (htype type) fun _ _ => safely_step (deltaSid_error id) fun _ _ =>
      safely_step (deltaDate_error d t) fun _ _ => show _ ↔ False from Iff.rfl).trans ?_
    simp [FieldsOffend, DateOffends, NumbersOffend]
  | [type, id, d, t, user] =>
    refine (safely_step (htype type) fun _ _ => safely_step (deltaSid_error id) fun _ _ =>
      safely_step (deltaDate_error d t) fun _ _ => show _ ↔ False from Iff.rfl).trans ?_
    simp [FieldsOffend, DateOffends, NumbersOffend]
  | [type, id, d, t, user, seq] =>
    refine (safely_step (htype type) fun _ _ => safely_step (deltaSid_error id) fun _ _ =>
      safely_step (deltaDate_error d t) fun _ _ => safely_step (hnum seq) fun _ _ =>
        show _ ↔ False from Iff.rfl).trans ?_
    simp [FieldsOffend, DateOffends, NumbersOffend]
  | type :: id :: d :: t :: user :: seq :: prev :: rest =>
    refine (safely_step (htype type) fun _ _ => safely_step (deltaSid_error id) fun _ _ =>
      safely_step (deltaDate_error d t) fun _ _ => safely_step (hnum seq) fun _ _ => safely_step (hnum prev) fun _ _ =>
        show _ ↔ True from Iff.rfl).trans ?_
    simp [FieldsOffend, DateOffends, NumbersOffend]

/-! ### The parser follows the automaton -/

/-- What was read up to a place: whether there was a delta, and the flags. -/
structure Seen (deltas : Bool) (flags : List ParsedFlag) (seen : List Line) : Prop where
  /-- There was a line `^As`. -/
  deltas : deltas = true ↔ ∃ l ∈ seen, l.kind = 115
  /-- The lines `^Af`. -/
  flags : seen.filterMap flagOf = flags

namespace Seen

variable {deltas : Bool} {fs : List ParsedFlag} {seen : List Line} {l : Line}

theorem nil : Seen false [] [] := ⟨by simp, rfl⟩

/-- Only a line `^As` shows that there is a delta. -/
theorem deltas_append (h : Seen deltas fs seen) (hs : l.kind ≠ 115) :
    deltas = true ↔ ∃ l' ∈ seen ++ [l], l'.kind = 115 := by
  rw [h.deltas]
  constructor
  · rintro ⟨l', hl', hk⟩
    exact ⟨l', List.mem_append_left _ hl', hk⟩
  · rintro ⟨l', hl', hk⟩
    rcases List.mem_append.mp hl' with hl' | hl'
    · exact ⟨l', hl', hk⟩
    · exact absurd (List.mem_singleton.mp hl' ▸ hk) hs

/-- A line of another kind. -/
theorem other (h : Seen deltas fs seen) (hs : l.kind ≠ 115) (hf : l.kind ≠ 102) : Seen deltas fs (seen ++ [l]) where
  deltas := h.deltas_append hs
  flags := by rw [List.filterMap_append, h.flags, List.filterMap_cons, flagOf, if_neg hf, List.filterMap_nil,
    List.append_nil]

/-- A line `^As`. -/
theorem delta (h : Seen deltas fs seen) (hs : l.kind = 115) : Seen true fs (seen ++ [l]) where
  deltas := iff_of_true rfl ⟨l, List.mem_append_right _ (List.mem_singleton_self l), hs⟩
  flags := by
    have hf : ¬ l.kind = 102 := by
      rw [hs]
      decide
    rw [List.filterMap_append, h.flags, List.filterMap_cons, flagOf, if_neg hf, List.filterMap_nil, List.append_nil]

/-- A line `^Af`. -/
theorem flag (h : Seen deltas fs seen) (hf : l.kind = 102) :
    Seen deltas (fs ++ [⟨l.bufchar 3, if l.bufchar 4 = 32 then some (l.bytes.drop 5) else none⟩]) (seen ++ [l]) where
  deltas := h.deltas_append (by rw [hf]; decide)
  flags := by rw [List.filterMap_append, h.flags, List.filterMap_cons, flagOf, if_pos hf, List.filterMap_nil]

end Seen

section

variable [IntOverflow] {τ : Type} {goodResult : τ → Prop} {stop : Quit} {good : List Line → Prop}

theorem readLine_safely {p : Place} {seen ls : List Line} {k : Line × List Line → Except Quit τ} (hp : p ≠ .finished)
    (hk : ∀ l ls', ls'.length < ls.length →
      (Safely goodResult (k (l, ls')) ↔ ¬ Offence stop good seen p (l :: ls'))) :
    Safely goodResult (readLine stop ls >>= k) ↔ ¬ Offence stop good seen p ls := by
  cases ls with
  | nil =>
    rw [offence_nil hp, not_not]
    exact Iff.rfl
  | cons l ls => exact hk l ls (Nat.lt_succ_self _)

/-- A loop that stays at a place. -/
theorem readLoop_safely {σ : Type} {p : Place} {again : Line → Bool} {step : σ → Line → Except Quit σ}
    {k : σ × Line × List Line → Except Quit τ} {R : List Line → σ → Prop} {n : ℕ} (hp : p ≠ .finished)
    (hpd : p ≠ .delta)
    (hk : ∀ seen st l ls, ls.length ≤ n → R seen st → again l = false →
      (Safely goodResult (k (st, l, ls)) ↔ ¬ Offence stop good seen p (l :: ls)))
    (hok : ∀ seen st st' l, R seen st → again l = true → step st l = .ok st' → next p l = some p ∧ R (seen ++ [l]) st')
    (herr : ∀ st q l, again l = true → step st l = .error q → Reports q ∧ next p l = none)
    {seen ls : List Line} {st : σ} {l : Line} (hn : ls.length ≤ n) (hR : R seen st) :
    Safely goodResult (readLoop stop again step st l ls >>= k) ↔ ¬ Offence stop good seen p (l :: ls) := by
  induction ls generalizing seen st l with
  | nil =>
    cases ha : again l with
    | false =>
      rw [readLoop, ha, if_neg (by decide)]
      exact hk seen st l [] hn hR ha
    | true =>
      rw [readLoop, ha, if_pos rfl]
      cases hs : step st l with
      | error q =>
        obtain ⟨hq, hnext⟩ := herr st q l ha hs
        rw [offence_of_refused hp hnext]
        exact iff_of_true hq (not_offends hpd)
      | ok st' =>
        obtain ⟨hnext, -⟩ := hok seen st st' l hR ha hs
        rw [offence_of_next (not_offends hpd) hnext, offence_nil hp, not_not]
        exact Iff.rfl
  | cons l' ls ih =>
    cases ha : again l with
    | false =>
      rw [readLoop, ha, if_neg (by decide)]
      exact hk seen st l (l' :: ls) hn hR ha
    | true =>
      rw [readLoop, ha, if_pos rfl]
      cases hs : step st l with
      | error q =>
        obtain ⟨hq, hnext⟩ := herr st q l ha hs
        rw [offence_of_refused hp hnext]
        exact iff_of_true hq (not_offends hpd)
      | ok st' =>
        obtain ⟨hnext, hR'⟩ := hok seen st st' l hR ha hs
        rw [offence_of_next (not_offends hpd) hnext, ok_bind]
        exact ih (Nat.le_of_succ_le hn) hR'

/-- A check of the kind of a line. -/
theorem expect_safely {p : Place} {seen ls : List Line} {l : Line} {kind : UInt8} {msg : String}
    {k : Unit → Except Quit τ} (hp : p ≠ .finished) (hpd : p ≠ .delta) (hn : l.kind ≠ kind → next p l = none)
    (hk : l.kind = kind → (Safely goodResult (k ()) ↔ ¬ Offence stop good seen p (l :: ls))) :
    Safely goodResult (expect l kind msg >>= k) ↔ ¬ Offence stop good seen p (l :: ls) := by
  by_cases h : l.kind = kind
  · rw [expect, if_pos h]
    exact hk h
  · rw [expect, if_neg h, offence_of_refused hp (hn h)]
    exact iff_of_true trivial (not_offends hpd)

/-- The lists of a delta. -/
theorem readLists_safely {ks : List ListKind} {fs : List ParsedFlag} {n : ℕ}
    {k : FullDelta × Line × List Line → Except Quit τ}
    (hk : ∀ seen d l ls, ls.length ≤ n → Seen true fs seen →
      (Safely goodResult (k (d, l, ls)) ↔ ¬ Offence stop good seen (.lists []) (l :: ls)))
    {seen ls : List Line} {d : FullDelta} {l : Line} (hn : ls.length ≤ n) (hs : Seen true fs seen) :
    Safely goodResult (readLists stop ks d l ls >>= k) ↔ ¬ Offence stop good seen (.lists ks) (l :: ls) := by
  induction ks generalizing seen d l ls with
  | nil => exact hk seen d l ls hn hs
  | cons kd ks ih =>
    rw [readLists]
    by_cases h : l.kind = kd.letter
    · have hkd : l.kind ≠ 115 ∧ l.kind ≠ 102 := by
        rw [h]
        cases kd <;> decide
      rw [if_pos h]
      cases hr : ListKind.readSeqs l with
      | error q =>
        have hnext : next (.lists (kd :: ks)) l = none := by
          rw [next, nextList, if_pos h, hr, isOk_error, if_neg Bool.false_ne_true]
        rw [offence_of_refused (by simp) hnext]
        exact iff_of_true (readSeqs_error hr) (not_offends (by simp))
      | ok seqs =>
        have hnext : next (.lists (kd :: ks)) l = some (.lists ks) := by
          rw [next, nextList, if_pos h, hr, isOk_ok, if_pos rfl]
        rw [offence_of_next (not_offends (by simp)) hnext, ok_bind, bind_assoc]
        exact readLine_safely (by simp) fun l' ls' hlt => ih (by omega) (hs.other hkd.1 hkd.2)
    · have hnext : next (.lists (kd :: ks)) l = next (.lists ks) l := by
        rw [next, nextList, if_neg h]
        rfl
      rw [if_neg h, ih hn hs, offence_cons (by simp), offence_cons (by simp), hnext]
      simp [not_offends]

omit [IntOverflow] in
theorem split_ne_nil (len : ℕ) (c : UInt8) (s : List UInt8) : (Linebuf.split (len + 1) c s).args ≠ [] := by
  rw [Linebuf.split]
  split
  · exact List.cons_ne_nil _ _
  · exact List.cons_ne_nil _ _

/-- The line `^Ad`. -/
theorem deltaLine_safely {fs : List ParsedFlag} {idu : ℕ × ℕ × ℕ} {k : FullDelta → Except Quit τ} {seen ls : List Line}
    {l : Line} (hs : Seen true fs seen)
    (hk : ∀ d seen, Seen true fs seen →
      (Safely goodResult (k d) ↔ ¬ Offence stop good seen (.lists [.i, .x, .g]) ls)) :
    Safely goodResult (expect l 100 "Expected '@d'" >>= fun _ => checkArg l >>= fun _ =>
      readFields (deltaFields l) idu >>= k) ↔ ¬ Offence stop good seen .delta (l :: ls) := by
  by_cases hd : l.kind = 100
  · by_cases ha : l.bufchar 2 = 32
    · have hf : Safely (fun _ => True) (readFields (deltaFields l) idu) ↔ ¬ FieldsOffend (deltaFields l).args :=
        readFields_safely (split_ne_nil 6 32 (l.bytes.drop 3))
      have hn : next .delta l = if (readFields (deltaFields l) (0, 0, 0)).isOk then some (.lists [.i, .x, .g]) else none := by
        simp only [next, hd, ha, true_and]
      have ho : Offends .delta l ↔ FieldsOffend (deltaFields l).args := by simp [Offends, hd, ha]
      rw [expect, if_pos hd, ok_bind, checkArg, if_neg (not_not.mpr ha), ok_bind]
      rw [readFields_isOk _ _ idu] at hn
      rw [← ho] at hf
      cases hr : readFields (deltaFields l) idu with
      | error q =>
        rw [hr, isOk_error, if_neg Bool.false_ne_true] at hn
        rw [hr] at hf
        rw [offence_of_refused (by simp) hn]
        exact hf
      | ok d =>
        rw [hr, isOk_ok, if_pos rfl] at hn
        rw [hr] at hf
        rw [offence_of_next (hf.mp trivial) hn, ok_bind]
        refine hk d _ (hs.other ?_ ?_)
        · rw [hd]
          decide
        · rw [hd]
          decide
    · have hn : next .delta l = none := by simp [next, ha]
      rw [expect, if_pos hd, ok_bind, checkArg, if_pos ha, offence_of_refused (by simp) hn]
      exact iff_of_true trivial fun ho => ha ho.2.2.1
  · have hn : next .delta l = none := by simp [next, hd]
    rw [expect, if_neg hd, offence_of_refused (by simp) hn]
    exact iff_of_true trivial fun ho => hd ho.2.1

omit [IntOverflow] in
theorem isNote_iff {l : Line} : isNote l = true ↔ l.kind = 109 ∨ l.kind = 99 := by simp [isNote]

/-- The end of a delta, after the lists. -/
theorem notes_safely {fs : List ParsedFlag} {n : ℕ} {k : FullDelta × List Line → Except Quit τ}
    (hk : ∀ seen d ls, ls.length ≤ n → Seen true fs seen →
      (Safely goodResult (k (d, ls)) ↔ ¬ Offence stop good seen .table ls))
    {seen ls : List Line} {d : FullDelta} {l : Line} (hn : ls.length ≤ n) (hs : Seen true fs seen) :
    Safely goodResult (readLoop stop isNote addNote d l ls >>= fun r =>
      expect r.2.1 101 "Expected '@e'" >>= fun _ => checkNoarg r.2.1 >>= fun _ => k (r.1, r.2.2)) ↔
        ¬ Offence stop good seen (.lists []) (l :: ls) := by
  refine readLoop_safely (R := fun seen _ => Seen true fs seen) (by simp) (by simp) ?_ ?_ ?_ hn hs
  · intro seen d l ls hlen hs hn
    refine expect_safely (by simp) (by simp) (fun h => by simp [next, nextList, hn, h]) fun h => ?_
    dsimp only at h ⊢
    by_cases h0 : l.bufchar 2 = 0
    · have hnext : next (.lists []) l = some .table := by simp [next, nextList, hn, h, h0]
      rw [checkNoarg, if_neg (not_not.mpr h0), offence_of_next (not_offends (by simp)) hnext]
      refine hk _ d ls hlen (hs.other ?_ ?_)
      · rw [h]
        decide
      · rw [h]
        decide
    · have hnext : next (.lists []) l = none := by simp [next, nextList, hn, h0]
      rw [checkNoarg, if_pos h0, offence_of_refused (by simp) hnext]
      exact iff_of_true trivial (not_offends (by simp))
  · intro seen d d' l hs hn _
    refine ⟨by simp [next, nextList, hn], ?_⟩
    rcases isNote_iff.mp hn with h | h
    · exact hs.other (by rw [h]; decide) (by rw [h]; decide)
    · exact hs.other (by rw [h]; decide) (by rw [h]; decide)
  · intro d q l _ h
    rw [addNote] at h
    split at h
    · cases h
    · cases h

/-- A delta. -/
theorem readDelta_safely {fs : List ParsedFlag} {n : ℕ} {k : FullDelta × List Line → Except Quit τ}
    (hk : ∀ seen d ls, ls.length ≤ n → Seen true fs seen →
      (Safely goodResult (k (d, ls)) ↔ ¬ Offence stop good seen .table ls))
    {deltas : Bool} {seen ls : List Line} {l : Line} (hn : ls.length ≤ n) (hs : Seen deltas fs seen)
    (hl : l.kind = 115) :
    Safely goodResult (readDelta stop l ls >>= k) ↔ ¬ Offence stop good seen .table (l :: ls) := by
  rw [readDelta]
  cases hi : readIdu l with
  | error q =>
    have hnext : next .table l = none := by
      rw [next, if_pos hl, hi, isOk_error, if_neg Bool.false_ne_true]
    rw [offence_of_refused (by simp) hnext]
    exact iff_of_true (readIdu_error hi) (not_offends (by simp))
  | ok idu =>
    have hnext : next .table l = some .delta := by
      rw [next, if_pos hl, hi, isOk_ok, if_pos rfl]
    have hs := hs.delta hl
    rw [offence_of_next (not_offends (by simp)) hnext, ok_bind, bind_assoc]
    refine readLine_safely (by simp) fun l ls h1 => ?_
    simp only [bind_assoc]
    refine deltaLine_safely hs fun d seen hs => ?_
    refine readLine_safely (by simp) fun l ls h2 => ?_
    have hlen : ls.length ≤ n := by omega
    refine readLists_safely (fun seen d l ls hlen hs => ?_) hlen hs
    exact notes_safely hk hlen hs

/-- The deltas, and the line that is not `^As`. -/
theorem readDeltas_safely {fs : List ParsedFlag} {k : FullTable × Line × List Line → Except Quit τ}
    (hk : ∀ seen T l ls, Seen (!T.isEmpty) fs seen → l.kind ≠ 115 →
      (Safely goodResult (k (T, l, ls)) ↔ ¬ Offence stop good seen .table (l :: ls)))
    {fuel : ℕ} {T : FullTable} {seen ls : List Line} {l : Line} (hs : Seen (!T.isEmpty) fs seen)
    (hfuel : ls.length < fuel) :
    Safely goodResult (readDeltas stop fuel T l ls >>= k) ↔ ¬ Offence stop good seen .table (l :: ls) := by
  induction fuel generalizing T seen l ls with
  | zero => omega
  | succ fuel ih =>
    rw [readDeltas]
    by_cases h : l.kind = 115
    · rw [if_pos h, bind_assoc]
      refine readDelta_safely (fun seen d ls' hlen hs => ?_) (show ls.length ≤ ls.length from le_rfl) hs h
      dsimp only
      rw [bind_assoc]
      refine readLine_safely (by simp) fun l ls'' hlt => ?_
      have hne : (T ++ [d]).isEmpty = false := by cases T <;> rfl
      have hlt' : ls''.length < fuel := by omega
      exact ih (by rwa [hne]) hlt'
    · rw [if_neg h]
      exact hk seen T l ls hs h

/-- The description. -/
theorem text_safely {deltas : Bool} {fs : List ParsedFlag} {k : List (List UInt8) × Line × List Line → Except Quit τ}
    (hk : ∀ seen r, Seen deltas fs seen → (Safely goodResult (k r) ↔ good seen))
    {seen ls : List Line} {l : Line} (hs : Seen deltas fs seen) :
    Safely goodResult (readLoop stop (fun l => l.kind = 0) addComment [] l ls >>= fun r =>
      expect r.2.1 84 "Expected '@T'" >>= fun _ => k r) ↔ ¬ Offence stop good seen .text (l :: ls) := by
  refine readLoop_safely (R := fun seen _ => Seen deltas fs seen) (by simp) (by simp) ?_ ?_ ?_ le_rfl hs
  · intro seen comments l ls _ hs hl
    have hl : l.kind ≠ 0 := by simpa using hl
    refine expect_safely (by simp) (by simp) (fun h => ?_) fun h => ?_
    · dsimp only at h
      simp [next, hl, h]
    · dsimp only at h ⊢
      have hnext : next .text l = some .finished := by simp [next, h]
      rw [offence_of_next (not_offends (by simp)) hnext, offence_finished, not_not]
      refine hk _ _ (hs.other ?_ ?_)
      · rw [h]
        decide
      · rw [h]
        decide
  · intro seen comments _ l hs hl _
    have hl : l.kind = 0 := by simpa using hl
    refine ⟨by simp [next, hl], hs.other ?_ ?_⟩
    · rw [hl]
      decide
    · rw [hl]
      decide
  · intro comments q l _ h
    cases h

omit [IntOverflow] in
/-- A line `^Af` is accepted or refused, whatever flags there are. -/
theorem addFlag_cases (fs : List ParsedFlag) (l : Line) :
    ((addFlag [] l).isOk = true ∧
      addFlag fs l = .ok (fs ++ [⟨l.bufchar 3, if l.bufchar 4 = 32 then some (l.bytes.drop 5) else none⟩])) ∨
    ((addFlag [] l).isOk = false ∧ ∃ q, addFlag fs l = .error q ∧ Reports q) := by
  rw [addFlag, addFlag]
  cases ha : checkArg l with
  | error q => exact .inr ⟨rfl, q, rfl, checkArg_error ha⟩
  | ok u =>
    rw [ok_bind, ok_bind]
    by_cases hb : l.bufchar 3 = 0 ∨ (l.bufchar 4 ≠ 0 ∧ l.bufchar 4 ≠ 32)
    · rw [if_pos hb, if_pos hb]
      exact .inr ⟨rfl, _, rfl, trivial⟩
    · rw [if_neg hb, if_neg hb]
      exact .inl ⟨rfl, rfl⟩

/-- The flags, and the line that follows them. -/
theorem flags_safely {deltas : Bool} {k : List ParsedFlag × Line × List Line → Line × List Line → Except Quit τ}
    (hk : ∀ seen fs r l ls, Seen deltas fs seen →
      (Safely goodResult (k (fs, r) (l, ls)) ↔ ¬ Offence stop good seen .text (l :: ls)))
    {seen ls : List Line} {l : Line} (hs : Seen deltas [] seen) :
    Safely goodResult (readLoop stop (fun l => l.kind = 102) addFlag [] l ls >>= fun r =>
      expect r.2.1 116 "Expected '@t'" >>= fun _ => readLine stop r.2.2 >>= k r) ↔
        ¬ Offence stop good seen .flags (l :: ls) := by
  refine readLoop_safely (R := fun seen fs => Seen deltas fs seen) (by simp) (by simp) ?_ ?_ ?_ le_rfl hs
  · intro seen fs l ls _ hs hl
    have hl : l.kind ≠ 102 := by simpa using hl
    refine expect_safely (by simp) (by simp) (fun h => ?_) fun h => ?_
    · dsimp only at h
      simp [next, hl, h]
    · dsimp only at h ⊢
      have hnext : next .flags l = some .text := by simp [next, h]
      rw [offence_of_next (not_offends (by simp)) hnext]
      refine readLine_safely (by simp) fun l' ls' _ => hk _ fs _ l' ls' (hs.other ?_ hl)
      rw [h]
      decide
  · intro seen fs fs' l hs hl h
    have hl : l.kind = 102 := by simpa using hl
    rcases addFlag_cases fs l with ⟨hok, ha⟩ | ⟨-, q, ha, -⟩
    · obtain rfl := Except.ok.inj (ha.symm.trans h)
      exact ⟨by simp [next, hl, hok], hs.flag hl⟩
    · rw [ha] at h
      cases h
  · intro fs q l hl h
    have hl : l.kind = 102 := by simpa using hl
    rcases addFlag_cases fs l with ⟨-, ha⟩ | ⟨hok, q', ha, hq⟩
    · rw [ha] at h
      cases h
    · obtain rfl := Except.error.inj (ha.symm.trans h)
      exact ⟨hq, by simp [next, hl, hok]⟩

/-- The user list, and the line that follows it. -/
theorem users_safely {deltas : Bool} {k : List (List UInt8) × Line × List Line → Line × List Line → Except Quit τ}
    (hk : ∀ seen r l ls, Seen deltas [] seen →
      (Safely goodResult (k r (l, ls)) ↔ ¬ Offence stop good seen .flags (l :: ls)))
    {seen ls : List Line} {l : Line} (hs : Seen deltas [] seen) :
    Safely goodResult (readLoop stop (fun l => l.kind ≠ 85) addUser [] l ls >>= fun r => readLine stop r.2.2 >>= k r) ↔
      ¬ Offence stop good seen .users (l :: ls) := by
  refine readLoop_safely (R := fun seen _ => Seen deltas [] seen) (by simp) (by simp) ?_ ?_ ?_ le_rfl hs
  · intro seen users l ls _ hs hl
    have hl : l.kind = 85 := by simpa using hl
    have hnext : next .users l = some .flags := by simp [next, hl]
    rw [offence_of_next (not_offends (by simp)) hnext]
    refine readLine_safely (by simp) fun l' ls' _ => hk _ _ l' ls' (hs.other ?_ ?_)
    · rw [hl]
      decide
    · rw [hl]
      decide
  · intro seen users _ l hs hl h
    rw [addUser, expect] at h
    by_cases h0 : l.kind = 0
    · refine ⟨by simp [next, h0], hs.other ?_ ?_⟩
      · rw [h0]
        decide
      · rw [h0]
        decide
    · rw [if_neg h0] at h
      cases h
  · intro users q l hl h
    have hl : l.kind ≠ 85 := by simpa using hl
    rw [addUser, expect] at h
    by_cases h0 : l.kind = 0
    · rw [if_pos h0] at h
      cases h
    · rw [if_neg h0] at h
      exact ⟨Except.error.inj h ▸ trivial, by simp [next, hl, h0]⟩

/-- **The parser follows the automaton**, and finds what was seen on the way. -/
theorem parseTable_safely {k : HeaderTable → Except Quit τ}
    (hk : ∀ seen t, Seen t.deltaTable.isSome t.flags seen → (Safely goodResult (k t) ↔ good seen)) (ls : List Line) :
    Safely goodResult (parseTable stop ls >>= k) ↔ ¬ Offence stop good [] .table ls := by
  rw [parseTable, bind_assoc]
  refine readLine_safely (by simp) fun l ls h1 => ?_
  dsimp only
  rw [bind_assoc]
  refine readDeltas_safely (fun seen T l ls hs hl => ?_) Seen.nil (Nat.lt_succ_self _)
  dsimp only
  rw [bind_assoc]
  refine expect_safely (by simp) (by simp) (fun h => by simp [next, hl, h]) fun h => ?_
  have hkind : l.kind ≠ 115 ∧ l.kind ≠ 102 := by
    rw [h]
    decide
  by_cases h0 : l.bufchar 2 = 0
  · have hnext : next .table l = some .users := by simp [next, h, h0]
    rw [bind_assoc, checkNoarg, if_neg (not_not.mpr h0), offence_of_next (not_offends (by simp)) hnext, ok_bind,
      bind_assoc]
    refine readLine_safely (by simp) fun l ls h2 => ?_
    simp only [bind_assoc]
    refine users_safely (fun seen _ l ls hs => ?_) (hs.other hkind.1 hkind.2)
    refine flags_safely (fun seen fs _ l ls hs => ?_) hs
    refine text_safely (fun seen _ hs => hk seen _ ?_) hs
    cases T <;> exact hs
  · have hnext : next .table l = none := by simp [next, hl, h0]
    rw [bind_assoc, checkNoarg, if_pos h0, offence_of_refused (by simp) hnext]
    exact iff_of_true trivial (not_offends (by simp))

end

/-! ### The flags -/

theorem releaseArg_safely [IntOverflow] (a : Option (List UInt8)) (msg : String) :
    Safely (fun _ => True) (releaseArg a msg) ↔ ¬ a.elim True fun s => Overflow (idCompOverflows s) := by
  cases a with
  | none => simp [releaseArg, deref, Safely, Reports]
  | some s =>
    rw [releaseArg, deref, ok_bind, intResult_safely]
    refine and_iff_left ?_
    split <;> trivial

theorem sidArg_safely [IntOverflow] (a : Option (List UInt8)) (msg : String) :
    Safely (fun _ => True) (sidArg a msg) ↔ ¬ a.elim True fun s => Overflow (Sid.overflows s) := by
  cases a with
  | none => simp [sidArg, assertArg, Safely, Reports]
  | some s =>
    rw [sidArg, assertArg, ok_bind, intResult_safely]
    refine and_iff_left ?_
    split <;> trivial

theorem encodedArg_safely (a : Option (List UInt8)) (msg : String) :
    Safely (fun _ => True) (encodedArg a msg) ↔ a ≠ none := by
  cases a with
  | none => simp [encodedArg, deref, Safely, Reports]
  | some s =>
    rw [encodedArg, deref, ok_bind]
    refine iff_of_true ?_ (by simp)
    split_ifs <;> trivial

theorem deref_safely (a : Option (List UInt8)) : Safely (fun _ => True) (deref a) ↔ a ≠ none := by
  cases a with
  | none => simp [deref, Safely, Reports]
  | some s => simp [deref, Safely]

/-- A list of releases is refused with a message. -/
theorem releaseList_safely (s : List UInt8) : Safely (fun _ => True) (ReleaseList.ofText s) := by
  have hloop : ∀ (fuel : ℕ) (l : ReleaseList) (s : List UInt8),
      Safely (fun _ => True) (ReleaseList.ofTextLoop fuel l s) := by
    intro fuel
    induction fuel with
    | zero => exact fun l s => trivial
    | succ fuel ih =>
      intro l s
      rw [ReleaseList.ofTextLoop]
      split_ifs
      · trivial
      · trivial
      · exact ih _ _
      · exact ih _ _
  exact hloop _ _ _

theorem safely_pure {α β : Type} {x : Except Quit α} (g : α → β) :
    Safely (fun _ => True) (x >>= fun a => pure (g a)) ↔ Safely (fun _ => True) x := by
  cases x with
  | error q => exact Iff.rfl
  | ok a => exact iff_of_true trivial trivial

/-- A flag that needs an argument must have one, whose number does not overflow. -/
theorem set_safely [IntOverflow] (f : Flags) (name : FlagName) (arg : Option (List UInt8)) :
    Safely (fun _ => True) (f.set name arg) ↔
      ¬ arg.elim (name.isSwitch = false) fun arg => Overflow (argOverflows name arg) := by
  have hno : ¬ Overflow false := fun h => Bool.false_ne_true h.2
  cases name with
  | t | v | m | q | z | y =>
    rw [Flags.set, safely_pure, deref_safely]
    cases arg <;> simp [FlagName.isSwitch, argOverflows, hno]
  | f | c =>
    rw [Flags.set, safely_pure, releaseArg_safely]
    cases arg <;> simp [FlagName.isSwitch, argOverflows]
  | d =>
    rw [Flags.set, safely_pure, sidArg_safely]
    cases arg <;> simp [FlagName.isSwitch, argOverflows]
  | e =>
    rw [Flags.set, safely_pure, encodedArg_safely]
    cases arg <;> simp [FlagName.isSwitch, argOverflows, hno]
  | l =>
    cases arg with
    | none => simp [Flags.set, assertArg, Safely, Reports, FlagName.isSwitch]
    | some s =>
      refine iff_of_true ?_ (by simp [argOverflows, hno])
      rw [Flags.set]
      split_ifs
      · trivial
      · rw [assertArg, ok_bind, safely_pure]
        exact releaseList_safely s
  | i | b | n | j | x => cases arg <;> simp [Flags.set, Safely, FlagName.isSwitch, argOverflows, hno]

theorem setFlag_safely [IntOverflow] (f : Flags) (p : ParsedFlag) :
    Safely (fun _ => True) (setFlag f p) ↔ ¬ FlagOffends p := by
  rw [setFlag, FlagOffends]
  cases h : FlagName.ofLetter p.letter with
  | none => exact iff_of_true trivial (by simp)
  | some name =>
    refine (set_safely f name p.value).trans ?_
    simp

theorem setFlag_isOk [IntOverflow] (f g : Flags) (p : ParsedFlag) : (setFlag f p).isOk = (setFlag g p).isOk := by
  cases hf : setFlag f p with
  | error q => rw [setFlag_error.mp hf]
  | ok f' =>
    cases hg : setFlag g p with
    | error q =>
      rw [setFlag_error.mp hg] at hf
      cases hf
    | ok g' => rfl

theorem flagsOffend_cons [IntOverflow] {p : ParsedFlag} {ps : List ParsedFlag} :
    FlagsOffend (p :: ps) ↔ FlagOffends p ∨ ((setFlag .initial p).isOk = true ∧ FlagsOffend ps) := by
  constructor
  · rintro ⟨pre, p', post, h, hpre, hp⟩
    cases pre with
    | nil =>
      obtain ⟨rfl, rfl⟩ := List.cons.inj h
      exact .inl hp
    | cons q pre =>
      obtain ⟨rfl, rfl⟩ := List.cons.inj h
      exact .inr ⟨hpre p List.mem_cons_self, pre, p', post, rfl, fun q hq => hpre q (List.mem_cons_of_mem p hq), hp⟩
  · rintro (hp | ⟨hok, pre, p', post, rfl, hpre, hp⟩)
    · exact ⟨[], p, ps, rfl, fun q hq => absurd hq List.not_mem_nil, hp⟩
    · refine ⟨p :: pre, p', post, rfl, fun q hq => ?_, hp⟩
      rcases List.mem_cons.mp hq with rfl | hq
      · exact hok
      · exact hpre q hq

/-- All flags are set, or one is refused, or one offends. -/
theorem setFlags_safely [IntOverflow] {good : Flags → Prop} {P : Prop} (hgood : ∀ f, good f ↔ P) (f : Flags)
    (ps : List ParsedFlag) :
    Safely good (setFlags f ps) ↔
      ¬ FlagsOffend ps ∧ ((∀ p ∈ ps, (setFlag .initial p).isOk = true) → P) := by
  induction ps generalizing f with
  | nil =>
    rw [show Safely good (setFlags f []) ↔ good f from Iff.rfl, hgood]
    have : ¬ FlagsOffend [] := by
      rintro ⟨pre, p, post, h, -⟩
      simp at h
    simp [this]
  | cons p ps ih =>
    rw [setFlags, List.foldlM_cons, flagsOffend_cons, List.forall_mem_cons, setFlag_isOk .initial f]
    have hp := setFlag_safely f p
    cases hs : setFlag f p with
    | error q =>
      rw [hs] at hp
      refine Iff.trans (show Safely good (.error q) ↔ Safely (fun _ : Flags => True) (.error q) from Iff.rfl) ?_
      rw [hp]
      simp
    | ok f' =>
      rw [hs] at hp
      have hp := hp.mp trivial
      rw [ok_bind]
      refine (ih f').trans ?_
      simp [hp]

/-! ### Opening a file -/

/-- What the constructor makes of a header that was parsed. -/
theorem ofTable_safely [IntOverflow] {seen : List Line} {t : HeaderTable} (hs : Seen t.deltaTable.isSome t.flags seen) :
    Safely (fun s : SccsFile => s.deltaTable ≠ none) (SccsFile.ofTable t) ↔ ¬ TableOffends seen := by
  have hgood : ∀ f : Flags, Safely (fun s : SccsFile => s.deltaTable ≠ none)
      (pure ⟨t.deltaTable, t.users, f, t.comments⟩) ↔ t.deltaTable ≠ none := fun f => Iff.rfl
  have hnone : t.deltaTable = none ↔ ∀ l ∈ seen, l.kind ≠ 115 := by
    have := hs.deltas
    rw [Option.isSome_iff_ne_none, ← not_iff_not, not_not, not_exists] at this
    rw [this]
    exact forall_congr' fun l => not_and
  have : Safely (fun _ => t.deltaTable ≠ none) (setFlags .initial t.flags) ↔ _ :=
    setFlags_safely (fun _ => Iff.rfl) .initial t.flags
  rw [SccsFile.ofTable, TableOffends, hs.flags, not_or, ← hnone]
  cases hf : setFlags .initial t.flags with
  | error q =>
    rw [hf] at this
    refine Iff.trans (Iff.trans Iff.rfl this) ?_
    rw [not_and']
  | ok f =>
    rw [hf] at this
    refine Iff.trans (Iff.trans Iff.rfl this) ?_
    rw [not_and']

theorem magic_eq {f : List UInt8} {isBk : Bool} (h : magic f = .ok isBk) :
    ∃ f', f = 1 :: (if isBk then 72 else 104) :: f' := by
  unfold magic at h
  split at h
  · obtain rfl := Except.ok.inj h
    exact ⟨_, rfl⟩
  · obtain rfl := Except.ok.inj h
    exact ⟨_, rfl⟩
  · cases h

theorem mem_of_eatFirstLine {f rest : List UInt8} (h : eatFirstLine f = .ok rest) : (10 : UInt8) ∈ f := by
  rw [eatFirstLine] at h
  split_ifs at h
  assumption

/-- The first line of a body. -/
theorem readBody_cons {b b' : Linebuf} {f rest : List UInt8} {t : CLine} (h : b.readLine f = some (t, b', rest))
    (ht : t.bytes ≠ []) : ∃ l ls, (readBody b f).lines = l :: ls ∧ l.bytes = t.bytes.dropLast := by
  have hc : t.chomp = some ⟨t.bytes.dropLast, fun h => t.no_nul (List.dropLast_subset _ h), t.newline_last⟩ := by
    rw [CLine.chomp, if_neg ht]
  rw [readBody, deliveries, deliveriesLoop, h, chompAll]
  simp only [hc]
  exact ⟨_, _, rfl, rfl⟩

/-- The first line as it is read has the kind that was found, unless a NUL follows it. -/
theorem readBody_first {f rest : List UInt8} {isBk : Bool} (hm : magic f = .ok isBk) (hr : eatFirstLine f = .ok rest) :
    ∃ l ls, (readBody Linebuf.initial f).lines = l :: ls ∧
      (l.kind = (if isBk then 72 else 104) ↔ f[2]? ≠ some 0) := by
  obtain ⟨f', rfl⟩ := magic_eq hm
  generalize hk : (if isBk then (72 : UInt8) else 104) = m
  have hm10 : m ≠ 10 ∧ m ≠ 0 := by
    rw [← hk]
    cases isBk <;> decide
  rw [hk] at hr
  have h10 := mem_of_eatFirstLine hr
  obtain ⟨c, f, rfl⟩ : ∃ c f, f' = c :: f := by
    refine List.exists_cons_of_ne_nil ?_
    rintro rfl
    simp [hm10.1.symm] at h10
  -- the buffer begins with the first three characters
  obtain ⟨x, b', rest', hd⟩ : ∃ x b' rest', Linebuf.readData Linebuf.initial (1 :: m :: c :: f) =
      some (1 :: m :: c :: x, b', rest') := by
    obtain ⟨e, b', rest', he, happ, h⟩ := Linebuf.readData_some (b := Linebuf.initial) (n := 2) (by decide)
      ((List.mem_cons.mp ((List.mem_cons.mp h10).resolve_left (by decide))).resolve_left hm10.1.symm)
    obtain ⟨a, x, rfl⟩ := List.exists_cons_of_ne_nil he
    obtain rfl := (List.cons.inj happ).1
    have hd := h [1, m] [] rfl (by simpa using hm10.1.symm)
    rw [List.append_nil] at hd
    exact ⟨x, b', _, hd⟩
  have hcstr : cstr (1 :: m :: c :: x) = 1 :: m :: cstr (c :: x) := by
    rw [cstr, List.takeWhile_cons_of_pos (by decide), List.takeWhile_cons_of_pos (by simpa using hm10.2)]
    rfl
  have hbytes : (CLine.ofData _ (Linebuf.readData_newline hd)).bytes = 1 :: m :: cstr (c :: x) := hcstr
  obtain ⟨l, ls, hls, hl⟩ := readBody_cons (Linebuf.readLine_of_readData hd) (by rw [hbytes]; simp)
  rw [hbytes] at hl
  refine ⟨l, ls, hls, ?_⟩
  by_cases hc : c = 0
  · have h0 : cstr (c :: x) = [] := by
      rw [cstr, List.takeWhile_cons_of_neg (by simp [hc])]
    rw [h0] at hl
    refine iff_of_false ?_ (by simp [hc])
    rw [Line.kind, Line.bufchar, Line.bufchar, hl]
    exact fun h => hm10.2 h.symm
  · have h0 : cstr (c :: x) = c :: cstr x := by
      rw [cstr, List.takeWhile_cons_of_pos (by simpa using hc)]
      rfl
    rw [h0] at hl
    refine iff_of_true ?_ (by simp [hc])
    rw [Line.kind, Line.bufchar, Line.bufchar, hl]
    rfl

theorem checkSum_error {silent : Bool} {computed : ℤ} {s : List UInt8} {q : Quit}
    (h : checkSum silent computed s = .error q) : Reports q := by
  simp only [checkSum] at h
  split_ifs at h
  all_goals exact Except.error.inj h ▸ trivial

/-- The first line is counted. -/
theorem countedLines_cons [IntOverflow] {r : Reading} {l : Line} {ls : List Line} (h : r.lines = l :: ls) :
    ∃ ls', (countedLines r).1 = l :: ls' := by
  rw [countedLines]
  split_ifs
  · exact ⟨ls.take (2 ^ 31 - 1 - 1), by rw [h, List.take_cons (by decide)]⟩
  · exact ⟨ls, h⟩

/-- There is only one first line that a file can offend with. -/
theorem openOffends_iff [IntOverflow] {mode : OpenMode} {silent isBk : Bool} {f rest : List UInt8} {l : Line}
    {ls : List Line}
    (hm : magic f = .ok isBk) (hr : eatFirstLine f = .ok rest)
    (hls : (countedLines (readBody Linebuf.initial f)).1 = l :: ls) :
    OpenOffends mode silent f ↔ Overflow (sumOverflows 0 rest) ∨ f[2]? = some 0 ∨
      ((checkSum (silent || mode = .fixChecksum) (computedSum rest) (l.bytes.drop 2)).isOk = true ∧
        Offence (countedLines (readBody Linebuf.initial f)).2
          (fun header => (isBk = true ∧ mode ≠ .read) ∨ ¬ TableOffends header) [] .table ls) := by
  constructor
  · rintro ⟨isBk', rest', l', ls', hm', hr', hls', h⟩
    obtain rfl := Except.ok.inj (hm.symm.trans hm')
    obtain rfl := Except.ok.inj (hr.symm.trans hr')
    obtain ⟨rfl, rfl⟩ := List.cons.inj (hls.symm.trans hls')
    exact h
  · exact fun h => ⟨isBk, rest, l, ls, hm, hr, hls, h⟩

/-- **A file is opened safely, unless it offends.** -/
theorem opens_safely_iff [IntOverflow] (mode : OpenMode) (silent : Bool) (f : List UInt8) :
    Safely (fun o => o.file.deltaTable ≠ none) (openFile mode silent f) ↔ ¬ OpenOffends mode silent f := by
  rw [openFile, parseHeader, bind_assoc]
  cases hm : magic f with
  | error q =>
    have hq : Reports q := by
      unfold magic at hm
      split at hm
      · cases hm
      · cases hm
      · exact Except.error.inj hm ▸ trivial
    refine iff_of_true hq ?_
    rintro ⟨isBk, rest, l, ls, h, -⟩
    rw [hm] at h
    cases h
  | ok isBk =>
    rw [ok_bind, bind_assoc]
    cases hr : eatFirstLine f with
    | error q =>
      have hq : Reports q := by
        rw [eatFirstLine] at hr
        split_ifs at hr
        exact Except.error.inj hr ▸ trivial
      refine iff_of_true hq ?_
      rintro ⟨isBk, rest, l, ls, -, h, -⟩
      rw [hr] at h
      cases h
    | ok rest =>
      rw [ok_bind, bind_assoc]
      obtain ⟨l, ls₀, hls₀, hkind⟩ := readBody_first hm hr
      obtain ⟨ls, hls⟩ := countedLines_cons hls₀
      rw [openOffends_iff hm hr hls]
      by_cases hsum : Overflow (sumOverflows 0 rest)
      · rw [intResult_of_overflow hsum]
        exact iff_of_false id fun h => h (.inl hsum)
      rw [intResult_of_not hsum, ok_bind, or_iff_right hsum]
      dsimp only
      rw [hls, readLine, ok_bind]
      by_cases h0 : f[2]? = some 0
      · have hne : l.kind ≠ (if isBk then 72 else 104) := fun h => hkind.mp h h0
        rw [if_pos hne]
        exact iff_of_false id fun h => h (.inl h0)
      · rw [if_neg (not_not.mpr (hkind.mpr h0)), bind_assoc]
        cases hc : checkSum (silent || mode = .fixChecksum) (computedSum rest) (l.bytes.drop 2) with
        | error q =>
          refine iff_of_true (checkSum_error hc) ?_
          rintro (h | ⟨h, -⟩)
          · exact h0 h
          · cases h
        | ok sum =>
          have hok : (Except.ok sum : Except Quit (ℤ × Bool)).isOk = true := rfl
          rw [ok_bind, bind_assoc, or_iff_right h0, and_iff_right hok]
          refine parseTable_safely (fun seen t hs => ?_) ls
          · rw [pure_bind]
            by_cases hb : isBk = true ∧ mode ≠ .read
            · rw [if_pos hb]
              exact iff_of_true trivial (.inl hb)
            · rw [if_neg hb]
              simp only [hb, false_or]
              rw [← ofTable_safely hs]
              cases SccsFile.ofTable t with
              | error q => exact Iff.rfl
              | ok file => exact Iff.rfl

/-- A text as bytes. -/
def bytesOf (s : String) : List UInt8 := s.toList.map fun c => UInt8.ofNat c.toNat

/-- A history file with one delta and the flag `v` without an argument. -/
def flagWithoutArgument : List UInt8 :=
  bytesOf "\x01h00000\n\x01s 00001/00000/00000\n\x01d D 1.1 01/01/01 00:00:00 u 1 0\n\x01e\n\x01u\n\x01U\n\x01f v\n\x01t\n\x01T\n"

/-- **A null pointer is used as a string.** -/
theorem flag_without_argument_is_unsafe :
    openFile .read false flagWithoutArgument = .error .undefined ∧
      ¬ Safely (fun o => o.file.deltaTable ≠ none) (openFile .read false flagWithoutArgument) := by
  have h : openFile .read false flagWithoutArgument = .error .undefined := by rfl
  refine ⟨h, ?_⟩
  rw [h]
  exact id

end CSSC.Header
