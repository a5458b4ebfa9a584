import CSSC.Library.Decimal
import CSSC.Library.Fields
import CSSC.Lines.Split
import CSSC.Table.Sid
import Mathlib.Data.List.Chain

/-!
# SIDs and lists of SIDs as text

A SID is printed with no component after one that is 0. The constructor from a string adds the digits of each component
up in an `int` and cuts the result to 16 bits, so that a number of more than 31 bits overflows it; what that does is a
parameter, `IntOverflow`, and the machine's answer stands where no other is given. The valid SIDs that are read back are
the plain ones (`Sid.ofText_text_iff`): no component is negative, and none follows one that is 0.

`SidList.clean` sorts the ranges of a list in one after the other. A range passes those that end before the SID before
its start, and is then merged with those that begin no later than the SID after its end. A string is read from its last
item to its first, so a list that was printed is cleaned once more, the other way round (`SidList.ofText_text`). It
comes back as it was if of two neighbours neither passes nor is merged with the other (`SidList.Settled.returns`).
-/

namespace CSSC.Table

open CSSC.Lines CSSC.Library.Decimal

/-! ### The type `int` -/

/-- What happens when an `int` overflows. The C++ standard does not define it; the machine wraps around. -/
class IntOverflow where
  /-- It is not defined. -/
  undefined : Bool

/-- Where nothing else is assumed, an `int` wraps around. -/
instance (priority := low) IntOverflow.wrapping : IntOverflow := ⟨false⟩

/-- A result that comes from an `int`, which may have overflowed. -/
def intResult [IntOverflow] {α : Type} (overflows : Bool) (x : Except Quit α) : Except Quit α :=
  if IntOverflow.undefined && overflows then .error .undefined else x

/-- An `int` overflows, and that is not defined. -/
def Overflow [IntOverflow] (overflows : Bool) : Prop := IntOverflow.undefined = true ∧ overflows = true

theorem intResult_of_overflow [IntOverflow] {α : Type} {overflows : Bool} (h : Overflow overflows) (x : Except Quit α) :
    intResult overflows x = .error .undefined := if_pos (by simpa [Overflow] using h)

theorem intResult_of_not [IntOverflow] {α : Type} {overflows : Bool} (h : ¬ Overflow overflows) (x : Except Quit α) :
    intResult overflows x = x := if_neg (by simpa [Overflow] using h)

@[simp] theorem intResult_wrapping {α : Type} (overflows : Bool) (x : Except Quit α) :
    @intResult IntOverflow.wrapping α overflows x = x := rfl

/-! ### One SID -/

/-- The loop of `get_id_comp`, with the `int` read so far: the component and the rest of the string. -/
def idCompLoop (n : Int32) : List UInt8 → Int16 × List UInt8
  | [] => (n.toInt16, [])
  | c :: s =>
    if c = 46 then (if n = 0 then (-1, c :: s) else (n.toInt16, s))
    else if isDigit c then idCompLoop (n * 10 + Int32.ofNat (digitValue c)) s
    else (-1, c :: s)

/-- `get_id_comp`. -/
def getIdComp (s : List UInt8) : Int16 × List UInt8 := idCompLoop 0 s

/-- In `get_id_comp` the `int` overflows: the digits are a number of more than 31 bits. -/
def idCompOverflows (s : List UInt8) : Bool := 2 ^ 31 ≤ valueFrom 0 (s.takeWhile isDigit)

namespace Sid

/-- `sid(const char*)`. -/
def ofText (s : List UInt8) : Sid :=
  let r := getIdComp s
  let l := getIdComp r.2
  let b := getIdComp l.2
  let q := getIdComp b.2
  ⟨if q.2 ≠ [] ∨ r.1 = 0 ∨ q.1 = -1 then -1 else r.1, l.1, b.1, q.1⟩

/-- An `int` overflows in one of the calls of `get_id_comp`. -/
def overflows (s : List UInt8) : Bool :=
  let l := (getIdComp s).2
  let b := (getIdComp l).2
  let q := (getIdComp b).2
  idCompOverflows s || idCompOverflows l || idCompOverflows b || idCompOverflows q

/-- The components that are printed after the release. -/
def tailText (s : Sid) : List UInt8 :=
  if s.level = 0 then []
  else 46 :: (intDecimal s.level.toInt ++
    if s.branch = 0 then []
    else 46 :: (intDecimal s.branch.toInt ++ if s.sequence = 0 then [] else 46 :: intDecimal s.sequence.toInt))

/-- What `print` writes. -/
def text (s : Sid) : List UInt8 := intDecimal s.rel.toInt ++ s.tailText

/-- `print`. -/
def print (s : Sid) : Except Quit (List UInt8) := if s.valid then .ok s.text else .error .assertion

/-- `printf`. -/
def printf (s : Sid) (c : UInt8) (forceZero : Bool) : Except Quit (List UInt8) :=
  if s.valid && !s.partialSid then
    match c with
    | 82 => .ok (intDecimal s.rel.toInt) -- 'R'
    | 76 => .ok (intDecimal s.level.toInt) -- 'L'
    | 66 => -- 'B'
      if !forceZero && s.branch = 0 && s.sequence = 0 then .ok [] else .ok (intDecimal s.branch.toInt)
    | 83 => -- 'S'
      if !forceZero && s.branch = 0 && s.sequence = 0 then .ok [] else .ok (intDecimal s.sequence.toInt)
    | _ => .error .assertion
  else .error .assertion

theorem print_ok {s : Sid} {t : List UInt8} (h : s.print = .ok t) : t = s.text := by
  rw [print] at h
  split at h
  · exact (Except.ok.inj h).symm
  · cases h

theorem print_error {s : Sid} {q : Quit} (h : s.print = .error q) : q = .assertion := by
  rw [print] at h
  split at h
  · cases h
  · exact (Except.error.inj h).symm

/-- A SID whose components are positive up to the first one that is 0. -/
structure Plain (s : Sid) : Prop where
  /-- The release. -/
  rel : 0 < s.rel
  /-- The level. -/
  level : 0 ≤ s.level
  /-- The branch. -/
  branch : 0 ≤ s.branch
  /-- The sequence. -/
  sequence : 0 ≤ s.sequence
  /-- No branch without a level. -/
  branch_of_level : s.level = 0 → s.branch = 0
  /-- No sequence without a branch. -/
  sequence_of_branch : s.branch = 0 → s.sequence = 0

theorem idCompLoop_digits {n : ℕ} {ds : List UInt8} (h : ∀ c ∈ ds, isDigit c = true) (s : List UInt8) :
    idCompLoop (Int32.ofNat n) (ds ++ s) = idCompLoop (Int32.ofNat (valueFrom n ds)) s := by
  induction ds generalizing n with
  | nil => rfl
  | cons c ds ih =>
    have hc := h c List.mem_cons_self
    have h46 : c ≠ 46 := by
      rintro rfl
      exact absurd hc (by decide)
    have hn : Int32.ofNat n * 10 + Int32.ofNat (digitValue c) = Int32.ofNat (n * 10 + digitValue c) := by
      rw [Int32.ofNat_add, Int32.ofNat_mul]
      rfl
    rw [List.cons_append, idCompLoop, if_neg h46, if_pos hc, hn, valueFrom_cons,
      ih fun c hc => h c (List.mem_cons_of_mem _ hc)]

/-- A component that is all digits. -/
theorem getIdComp_digits {ds : List UInt8} (h : ∀ c ∈ ds, isDigit c = true) :
    getIdComp ds = (Int16.ofNat (valueFrom 0 ds), []) := by
  have hloop := idCompLoop_digits (n := 0) h []
  rw [List.append_nil] at hloop
  rw [getIdComp, show (0 : Int32) = Int32.ofNat 0 from rfl, hloop, idCompLoop, Int32.toInt16_ofNat']

/-- The `int` is 0 if the number is a multiple of 2³². -/
theorem int32_ofNat_eq_zero (n : ℕ) : Int32.ofNat n = 0 ↔ n % 2 ^ 32 = 0 := by
  rw [← Int32.toInt_inj, Int32.toInt_ofNat', Int.bmod, show (0 : Int32).toInt = 0 from rfl]
  simp only [Int32.size]
  split <;> omega

/-- A component in front of a dot. -/
theorem getIdComp_digits_dot {ds : List UInt8} (h : ∀ c ∈ ds, isDigit c = true) (s : List UInt8) :
    getIdComp (ds ++ 46 :: s) =
      if valueFrom 0 ds % 2 ^ 32 = 0 then (-1, 46 :: s) else (Int16.ofNat (valueFrom 0 ds), s) := by
  rw [getIdComp, show (0 : Int32) = Int32.ofNat 0 from rfl, idCompLoop_digits h, idCompLoop, if_pos rfl,
    Int32.toInt16_ofNat']
  simp only [int32_ofNat_eq_zero]

theorem ofNat_natAbs {x : Int16} (h : 0 ≤ x) : Int16.ofNat x.toInt.natAbs = x := by
  have h0 : 0 ≤ x.toInt := Int16.le_iff_toInt_le.mp h
  rw [← Int16.ofInt_eq_ofNat, Int.natAbs_of_nonneg h0, Int16.ofInt_toInt]

/-- A component that is not negative is read back, at the end of the string … -/
theorem getIdComp_last {x : Int16} (h : 0 ≤ x) : getIdComp (intDecimal x.toInt) = (x, []) := by
  rw [intDecimal_of_nonneg (Int16.le_iff_toInt_le.mp h), getIdComp_digits (decimal_isDigit _), valueFrom_decimal,
    ofNat_natAbs h]

/-- … and before a dot, if it is not 0. -/
theorem getIdComp_dot {x : Int16} (h : 0 < x) (s : List UInt8) :
    getIdComp (intDecimal x.toInt ++ 46 :: s) = (x, s) := by
  have h0 : 0 < x.toInt := Int16.lt_iff_toInt_lt.mp h
  have hx := x.toInt_lt
  rw [intDecimal_of_nonneg h0.le, getIdComp_digits_dot (decimal_isDigit _), valueFrom_decimal, if_neg (by omega),
    ofNat_natAbs (Int16.le_of_lt h)]

/-- Nothing is read at a dot, and at what is not a digit. -/
theorem getIdComp_stuck {c : UInt8} (h : c = 46 ∨ (c ≠ 46 ∧ isDigit c = false)) (s : List UInt8) :
    getIdComp (c :: s) = (-1, c :: s) := by
  rw [getIdComp, idCompLoop]
  rcases h with rfl | ⟨h46, hc⟩
  · rw [if_pos rfl, if_pos rfl]
  · rw [if_neg h46, if_neg (by simp [hc])]

/-- A component that is negative is none. -/
theorem getIdComp_neg {x : Int16} (h : x < 0) (s : List UInt8) :
    getIdComp (intDecimal x.toInt ++ s) = (-1, intDecimal x.toInt ++ s) := by
  have h0 : x.toInt < 0 := Int16.lt_iff_toInt_lt.mp h
  rw [intDecimal_of_neg h0, List.cons_append, getIdComp_stuck (.inr ⟨by decide, by decide⟩)]

theorem neg_zero_or_pos (x : Int16) : x < 0 ∨ x = 0 ∨ 0 < x := by
  rw [Int16.lt_iff_toInt_lt, Int16.lt_iff_toInt_lt, ← Int16.toInt_inj]
  show x.toInt < 0 ∨ x.toInt = 0 ∨ 0 < x.toInt
  omega

/-- A negative component leaves the SID invalid, whatever comes after it. -/
theorem ofText_of_stuck {s t : List UInt8} {r : Int16} (hs : getIdComp s = (r, t)) (ht : getIdComp t = (-1, t)) :
    (ofText s).rel = -1 := by
  simp only [ofText, hs, ht]
  rw [if_pos (.inr (.inr trivial))]

theorem ofText_of_stuck₂ {s t u : List UInt8} {r l : Int16} (hs : getIdComp s = (r, t)) (ht : getIdComp t = (l, u))
    (hu : getIdComp u = (-1, u)) : (ofText s).rel = -1 := by
  simp only [ofText, hs, ht, hu]
  rw [if_pos (.inr (.inr trivial))]

theorem ofText_of_stuck₃ {s t u v : List UInt8} {r l b : Int16} (hs : getIdComp s = (r, t))
    (ht : getIdComp t = (l, u)) (hu : getIdComp u = (b, v)) (hv : getIdComp v = (-1, v)) : (ofText s).rel = -1 := by
  simp only [ofText, hs, ht, hu, hv]
  rw [if_pos (.inr (.inr trivial))]

theorem getIdComp_nil : getIdComp [] = (0, []) := rfl

theorem getIdComp_neg_last {x : Int16} (h : x < 0) : getIdComp (intDecimal x.toInt) = (-1, intDecimal x.toInt) := by
  simpa using getIdComp_neg h []

theorem Plain.level_pos {s : Sid} (h : s.Plain) (h0 : s.level ≠ 0) : 0 < s.level :=
  (neg_zero_or_pos s.level).elim (fun hn => absurd h.level (Int16.not_le.mpr hn)) fun hp => hp.resolve_left h0

theorem Plain.branch_pos {s : Sid} (h : s.Plain) (h0 : s.branch ≠ 0) : 0 < s.branch :=
  (neg_zero_or_pos s.branch).elim (fun hn => absurd h.branch (Int16.not_le.mpr hn)) fun hp => hp.resolve_left h0

/-- A SID whose release is positive and whose sequence is not -1 is what its components say. -/
theorem ofText_eq {s t u v : List UInt8} {r l b q : Int16} (hs : getIdComp s = (r, t)) (ht : getIdComp t = (l, u))
    (hu : getIdComp u = (b, v)) (hv : getIdComp v = (q, [])) (hr : 0 < r) (hq : 0 ≤ q) :
    ofText s = ⟨r, l, b, q⟩ := by
  have hr0 : r ≠ 0 := by
    rintro rfl
    exact absurd hr (by decide)
  have hq1 : q ≠ -1 := by
    rintro rfl
    exact absurd hq (by decide)
  simp only [ofText, hs, ht, hu, hv]
  rw [if_neg (by simp [hr0, hq1])]

/-- A component is read, and nothing overflows. -/
def ReadsAs (s : List UInt8) (x : Int16) (t : List UInt8) : Prop := getIdComp s = (x, t) ∧ idCompOverflows s = false

theorem readsAs_nil : ReadsAs [] 0 [] := ⟨getIdComp_nil, by decide⟩

theorem not_idCompOverflows {x : Int16} (h : 0 ≤ x) {s : List UInt8} (hs : s.takeWhile isDigit = []) :
    idCompOverflows (intDecimal x.toInt ++ s) = false := by
  have h0 : 0 ≤ x.toInt := Int16.le_iff_toInt_le.mp h
  have hx := x.toInt_lt
  rw [intDecimal_of_nonneg h0, idCompOverflows, List.takeWhile_append_of_pos (decimal_isDigit _), hs,
    List.append_nil, valueFrom_decimal, decide_eq_false_iff_not]
  omega

theorem readsAs_last {x : Int16} (h : 0 ≤ x) : ReadsAs (intDecimal x.toInt) x [] :=
  ⟨getIdComp_last h, by simpa using not_idCompOverflows h (s := []) rfl⟩

theorem readsAs_dot {x : Int16} (h : 0 < x) (s : List UInt8) : ReadsAs (intDecimal x.toInt ++ 46 :: s) x s :=
  ⟨getIdComp_dot h s, not_idCompOverflows (Int16.le_of_lt h) (List.takeWhile_cons_of_neg (by decide))⟩

/-- The components of a plain SID are read one after the other. -/
theorem Plain.readsAs {s : Sid} (h : s.Plain) : ∃ t u v, ReadsAs s.text s.rel t ∧ ReadsAs t s.level u ∧
    ReadsAs u s.branch v ∧ ReadsAs v s.sequence [] := by
  obtain ⟨r, l, b, q⟩ := s
  have hr : 0 < r := h.rel
  rw [text, tailText]
  by_cases hl : l = 0
  · obtain rfl := hl
    obtain rfl : b = 0 := h.branch_of_level rfl
    obtain rfl : q = 0 := h.sequence_of_branch rfl
    rw [if_pos rfl, List.append_nil]
    exact ⟨[], [], [], readsAs_last (Int16.le_of_lt hr), readsAs_nil, readsAs_nil, readsAs_nil⟩
  · have hl0 : 0 < l := h.level_pos hl
    rw [if_neg hl]
    by_cases hb : b = 0
    · obtain rfl := hb
      obtain rfl : q = 0 := h.sequence_of_branch rfl
      rw [if_pos rfl, List.append_nil]
      exact ⟨_, [], [], readsAs_dot hr _, readsAs_last (Int16.le_of_lt hl0), readsAs_nil, readsAs_nil⟩
    · have hb0 : 0 < b := h.branch_pos hb
      rw [if_neg hb]
      by_cases hq : q = 0
      · obtain rfl := hq
        rw [if_pos rfl, List.append_nil]
        exact ⟨_, _, [], readsAs_dot hr _, readsAs_dot hl0 _, readsAs_last (Int16.le_of_lt hb0), readsAs_nil⟩
      · rw [if_neg hq]
        exact ⟨_, _, _, readsAs_dot hr _, readsAs_dot hl0 _, readsAs_dot hb0 _, readsAs_last h.sequence⟩

/-- A plain SID is read back. -/
theorem Plain.ofText_text {s : Sid} (h : s.Plain) : ofText s.text = s := by
  obtain ⟨t, u, v, h1, h2, h3, h4⟩ := h.readsAs
  exact ofText_eq h1.1 h2.1 h3.1 h4.1 h.rel h.sequence

/-- Nothing overflows where a plain SID is read back. -/
theorem Plain.overflows_text {s : Sid} (h : s.Plain) : overflows s.text = false := by
  obtain ⟨t, u, v, ⟨h1, o1⟩, ⟨h2, o2⟩, ⟨h3, o3⟩, h4, o4⟩ := h.readsAs
  simp [overflows, h1, h2, h3, o1, o2, o3, o4]

/-- **The plain SIDs are the valid ones that are read back.** -/
theorem ofText_text_iff {s : Sid} (hv : s.valid = true) : ofText s.text = s ↔ s.Plain := by
  refine ⟨fun he => ?_, fun h => h.ofText_text⟩
  obtain ⟨r, l, b, q⟩ := s
  have hr : 0 < r := by simpa [valid] using hv
  have hne : (ofText (text ⟨r, l, b, q⟩)).rel ≠ -1 := by
    rw [he]
    rintro h : r = -1
    rw [h] at hr
    exact absurd hr (by decide)
  rw [text, tailText] at he hne
  rcases neg_zero_or_pos l with hl | rfl | hl
  · -- the level is negative
    rw [if_neg (by rintro rfl; exact absurd hl (by decide))] at hne
    exact absurd (ofText_of_stuck (getIdComp_dot hr _) (getIdComp_neg hl _)) hne
  · -- there is no level
    rw [if_pos rfl, List.append_nil, ofText_eq (getIdComp_last (Int16.le_of_lt hr)) getIdComp_nil getIdComp_nil
      getIdComp_nil hr (by decide)] at he
    simp only [mk.injEq, true_and] at he
    obtain ⟨rfl, rfl⟩ := he
    exact ⟨hr, Int16.le_refl _, Int16.le_refl _, Int16.le_refl _, fun _ => rfl, fun _ => rfl⟩
  · have hl0 : l ≠ 0 := by
      rintro rfl
      exact absurd hl (by decide)
    rw [if_neg hl0] at he hne
    rcases neg_zero_or_pos b with hb | rfl | hb
    · rw [if_neg (by rintro rfl; exact absurd hb (by decide))] at hne
      exact absurd (ofText_of_stuck₂ (getIdComp_dot hr _) (getIdComp_dot hl _) (getIdComp_neg hb _)) hne
    · rw [if_pos rfl, List.append_nil, ofText_eq (getIdComp_dot hr _) (getIdComp_last (Int16.le_of_lt hl))
        getIdComp_nil getIdComp_nil hr (by decide)] at he
      simp only [mk.injEq, true_and] at he
      obtain rfl := he
      exact ⟨hr, Int16.le_of_lt hl, Int16.le_refl _, Int16.le_refl _, fun h => absurd h hl0, fun _ => rfl⟩
    · have hb0 : b ≠ 0 := by
        rintro rfl
        exact absurd hb (by decide)
      rw [if_neg hb0] at hne
      rcases neg_zero_or_pos q with hq | rfl | hq
      · rw [if_neg (by rintro rfl; exact absurd hq (by decide))] at hne
        exact absurd (ofText_of_stuck₃ (getIdComp_dot hr _) (getIdComp_dot hl _) (getIdComp_dot hb _)
          (getIdComp_neg_last hq)) hne
      · exact ⟨hr, Int16.le_of_lt hl, Int16.le_of_lt hb, Int16.le_refl _, fun h => absurd h hl0, fun h => absurd h hb0⟩
      · exact ⟨hr, Int16.le_of_lt hl, Int16.le_of_lt hb, Int16.le_of_lt hq, fun h => absurd h hl0,
          fun h => absurd h hb0⟩

/-- A SID is printed with digits, dots and signs. -/
theorem text_chars (s : Sid) : ∀ c ∈ s.text, c = 45 ∨ c = 46 ∨ isDigit c = true := by
  have hint : ∀ (x : Int16), ∀ c ∈ intDecimal x.toInt, c = 45 ∨ c = 46 ∨ isDigit c = true := fun x c hc =>
    (intDecimal_chars _ c hc).imp_right .inr
  intro c hc
  rw [text, tailText] at hc
  split_ifs at hc
  all_goals
    simp only [List.mem_append, List.mem_cons, List.append_nil] at hc
    grind

/-- A plain SID is printed without a sign. -/
theorem Plain.text_chars {s : Sid} (h : s.Plain) : ∀ c ∈ s.text, c = 46 ∨ isDigit c = true := by
  have hint : ∀ (x : Int16), 0 ≤ x → ∀ c ∈ intDecimal x.toInt, c = 46 ∨ isDigit c = true := fun x hx c hc => by
    rw [intDecimal_of_nonneg (Int16.le_iff_toInt_le.mp hx)] at hc
    exact .inr (decimal_isDigit _ c hc)
  have h1 := hint s.rel (Int16.le_of_lt h.rel)
  have h2 := hint s.level h.level
  have h3 := hint s.branch h.branch
  have h4 := hint s.sequence h.sequence
  intro c hc
  rw [text, tailText] at hc
  split_ifs at hc
  all_goals
    simp only [List.mem_append, List.mem_cons, List.append_nil] at hc
    grind

theorem intDecimal_length (x : Int16) : (intDecimal x.toInt).length ≤ 6 := by
  have hx : x.toInt.natAbs < 10 ^ 5 := by
    have h1 := x.toInt_lt
    have h2 := x.le_toInt
    omega
  have := decimal_length_le (k := 4) hx
  rw [intDecimal]
  split
  · rw [List.length_cons]
    omega
  · omega

theorem text_length (s : Sid) : s.text.length ≤ 27 := by
  have h1 := intDecimal_length s.rel
  have h2 := intDecimal_length s.level
  have h3 := intDecimal_length s.branch
  have h4 := intDecimal_length s.sequence
  rw [text, tailText]
  split_ifs
  all_goals
    simp only [List.length_append, List.length_cons, List.length_nil]
    omega

end Sid

/-! ### Lists of ranges -/

namespace SidList

/-- The second loop of `clean`: the ranges that `sp` overlaps or touches are merged into it. -/
def mergeLoop (sp : Sid × Sid) : SidList → (Sid × Sid) × SidList
  | [] => (sp, [])
  | dp :: l =>
    if dp.1.le sp.2.next then
      mergeLoop (if dp.1.lt sp.1 then dp.1 else sp.1, if dp.2.greater sp.2 then dp.2 else sp.2) l
    else (sp, dp :: l)

/-- One turn of `clean`: `sp` passes the ranges that end before it, and is merged with those that follow. -/
def sortIn (sp : Sid × Sid) (l : SidList) : SidList :=
  let m := mergeLoop sp (l.dropWhile fun dp => dp.2.lt sp.1.prev)
  (l.takeWhile fun dp => dp.2.lt sp.1.prev) ++ m.1 :: m.2

/-- The loop of `clean`; `none` if the list becomes invalid. -/
def cleanLoop (new : SidList) : SidList → Option SidList
  | [] => some new
  | sp :: l => if sp.1.le sp.2 then cleanLoop (sortIn sp new) l else none

/-- `clean`. -/
def clean (l : SidList) : Option SidList := cleanLoop [] l

/-- One item of a list: a range, or a SID for a range of one. -/
def itemRange (item : List UInt8) : Sid × Sid :=
  if 45 ∈ item then
    (Sid.ofText (item.takeWhile (· ≠ 45)), Sid.ofText ((item.dropWhile (· ≠ 45)).drop 1))
  else (Sid.ofText item, Sid.ofText item)

/-- `range_list<sid>(const char*)`: the list, or `none` if it is invalid. -/
def ofText (list : List UInt8) : Except Quit (Option SidList) :=
  if list = [] then .ok (some [])
  else
    let items := list.splitOn 44
    if items.any (63 < ·.length) then .error (.failure "Range in list too long: '%s'")
    else .ok (clean ((items.filter (· ≠ [])).map itemRange).reverse)

/-- A range as it is printed. -/
def rangeText (r : Sid × Sid) : List UInt8 := r.1.text ++ if r.2 ≠ r.1 then 45 :: r.2.text else []

/-- What `print` writes. -/
def text (l : SidList) : List UInt8 := [44].intercalate (l.map rangeText)

/-- `print`. -/
def print (l : SidList) : Except Quit (List UInt8) :=
  if ∀ r ∈ l, r.1.valid ∧ r.2.valid then .ok l.text else .error .assertion

/-- Of two neighbours the second does not end before the first, and does not begin before the first ends or just
after. -/
def Apart (r r' : Sid × Sid) : Prop := r'.2.lt r.1.prev = false ∧ r'.1.le r.2.next = false

instance : DecidableRel Apart := fun _ _ => inferInstanceAs (Decidable (_ ∧ _))

/-- A list that cleaning in reverse order leaves alone. -/
structure Settled (l : SidList) : Prop where
  /-- Ranges are not empty. -/
  ranges : ∀ r ∈ l, r.1.le r.2 = true
  /-- Neighbours stay as they are. -/
  apart : l.IsChain Apart

theorem cleanLoop_append (new l m : SidList) :
    cleanLoop new (l ++ m) = (cleanLoop new l).bind fun n => cleanLoop n m := by
  induction l generalizing new with
  | nil => rfl
  | cons sp l ih =>
    rw [List.cons_append, cleanLoop, cleanLoop]
    split
    · exact ih _
    · rfl

/-- A range that stays apart from the first one goes to the front. -/
theorem sortIn_of_apart {r : Sid × Sid} {l : SidList} (h : ∀ r' ∈ l.head?, Apart r r') : sortIn r l = r :: l := by
  cases l with
  | nil => rfl
  | cons dp l =>
    obtain ⟨h1, h2⟩ := h dp rfl
    rw [sortIn, List.takeWhile_cons_of_neg (by rw [h1]; simp), List.dropWhile_cons_of_neg (by rw [h1]; simp),
      mergeLoop, if_neg (by rw [h2]; simp)]
    rfl

/-- **A settled list is what cleaning makes of it in reverse order.** -/
theorem clean_reverse {l : SidList} (h : l.Settled) : clean l.reverse = some l := by
  induction l with
  | nil => rfl
  | cons r l ih =>
    have hl : Settled l := ⟨fun r' hr' => h.ranges r' (List.mem_cons_of_mem r hr'), h.apart.tail⟩
    have hfirst : ∀ r' ∈ l.head?, Apart r r' := (List.isChain_cons.mp h.apart).1
    have hc : cleanLoop [] l.reverse = some l := ih hl
    rw [clean, List.reverse_cons, cleanLoop_append, hc, Option.bind_some, cleanLoop,
      if_pos (h.ranges r List.mem_cons_self), cleanLoop, sortIn_of_apart hfirst]

/-! ### The ends of the ranges are valid -/

/-- All ends are valid. -/
def Valid (l : SidList) : Prop := ∀ r ∈ l, r.1.valid = true ∧ r.2.valid = true

theorem valid_of_le {a b : Sid} (h : a.le b = true) : a.valid = true ∧ b.valid = true := by
  simp only [Sid.le, Sid.comparable, Bool.and_eq_true] at h
  obtain ⟨h, -⟩ := h
  by_contra hn
  rw [if_pos (by simpa [or_iff_not_and_not] using hn)] at h
  cases h

theorem mergeLoop_valid {sp : Sid × Sid} {l : SidList} (hsp : sp.1.valid = true ∧ sp.2.valid = true) (hl : Valid l) :
    Valid ((mergeLoop sp l).1 :: (mergeLoop sp l).2) := by
  induction l generalizing sp with
  | nil =>
    intro r hr
    obtain rfl := List.mem_singleton.mp hr
    exact hsp
  | cons dp l ih =>
    have hdp := hl dp List.mem_cons_self
    rw [mergeLoop]
    split
    · refine ih ⟨?_, ?_⟩ fun r hr => hl r (List.mem_cons_of_mem dp hr)
      · dsimp only
        split
        · exact hdp.1
        · exact hsp.1
      · dsimp only
        split
        · exact hdp.2
        · exact hsp.2
    · intro r hr
      rcases List.mem_cons.mp hr with rfl | hr
      · exact hsp
      · exact hl r hr

theorem sortIn_valid {sp : Sid × Sid} {l : SidList} (hsp : sp.1.valid = true ∧ sp.2.valid = true) (hl : Valid l) :
    Valid (sortIn sp l) := by
  intro r hr
  rcases List.mem_append.mp hr with h | h
  · exact hl r ((List.takeWhile_sublist _).subset h)
  · exact mergeLoop_valid hsp (fun r hr => hl r ((List.dropWhile_sublist _).subset hr)) r h

theorem cleanLoop_valid {new l m : SidList} (hn : Valid new) (h : cleanLoop new l = some m) : Valid m := by
  induction l generalizing new with
  | nil => exact Option.some.inj h ▸ hn
  | cons sp l ih =>
    rw [cleanLoop] at h
    split at h
    · rename_i hle
      exact ih (sortIn_valid (valid_of_le hle) hn) h
    · cases h

/-- **A list that is accepted has valid ends.** -/
theorem valid_of_ofText {list : List UInt8} {l : SidList} (h : ofText list = .ok (some l)) : Valid l := by
  rw [ofText] at h
  split at h
  · obtain rfl := Option.some.inj (Except.ok.inj h)
    exact fun r hr => absurd hr List.not_mem_nil
  · dsimp only at h
    split at h
    · cases h
    · exact cleanLoop_valid (fun r hr => absurd hr List.not_mem_nil) (Except.ok.inj h)

/-! ### A list that is printed -/

theorem rangeText_ne_nil {r : Sid × Sid} : rangeText r ≠ [] := by
  rw [rangeText, Sid.text]
  have h : intDecimal r.1.rel.toInt ≠ [] := by
    rw [intDecimal]
    split
    · simp
    · exact decimal_ne_nil _
  simp [h]

theorem rangeText_length (r : Sid × Sid) : (rangeText r).length ≤ 63 := by
  have h1 := r.1.text_length
  have h2 := r.2.text_length
  rw [rangeText]
  split_ifs
  all_goals
    simp only [List.length_append, List.length_cons, List.length_nil]
    omega

theorem rangeText_chars (r : Sid × Sid) : ∀ c ∈ rangeText r, c = 45 ∨ c = 46 ∨ isDigit c = true := by
  intro c hc
  rw [rangeText, List.mem_append] at hc
  rcases hc with h | h
  · exact r.1.text_chars c h
  · split at h
    · rcases List.mem_cons.mp h with rfl | h
      · exact .inl rfl
      · exact r.2.text_chars c h
    · exact absurd h List.not_mem_nil

/-- A list is printed with the characters of SIDs and commas. -/
theorem text_chars (l : SidList) : ∀ c ∈ text l, c = 44 ∨ c = 45 ∨ c = 46 ∨ isDigit c = true := by
  intro c hc
  rcases Library.Fields.mem_intercalate hc with h | ⟨t, ht, hct⟩
  · exact .inl h
  · obtain ⟨r, -, rfl⟩ := List.mem_map.mp ht
    exact .inr (rangeText_chars r c hct)

/-- The range that is printed is the range that is read. -/
theorem itemRange_rangeText {r : Sid × Sid} (h1 : r.1.Plain) (h2 : r.2.Plain) : itemRange (rangeText r) = r := by
  have hdash : (45 : UInt8) ∉ r.1.text := by
    intro hm
    rcases h1.text_chars 45 hm with h | h
    · exact absurd h (by decide)
    · exact absurd h (by decide)
  rw [rangeText]
  split
  · rw [itemRange, if_pos (by simp), Linebuf.takeWhile_ne_append hdash, Linebuf.dropWhile_ne_append hdash,
      List.drop_one, List.tail_cons, h1.ofText_text, h2.ofText_text]
  · rename_i he
    have he : r.2 = r.1 := not_not.mp he
    rw [List.append_nil, itemRange, if_neg hdash, h1.ofText_text]
    exact Prod.ext rfl he.symm

/-- The ranges that are read where a list is printed. -/
def printed (l : SidList) : SidList := l.map fun r => itemRange (rangeText r)

/-- Plain ranges are read as they are. -/
theorem printed_of_plain {l : SidList} (h : ∀ r ∈ l, r.1.Plain ∧ r.2.Plain) : l.printed = l :=
  (List.map_congr_left fun r hr => itemRange_rangeText (h r hr).1 (h r hr).2).trans (List.map_id' l)

/-- **What is printed is cleaned again**, from the last range to the first. -/
theorem ofText_text (l : SidList) : ofText l.text = .ok (clean l.printed.reverse) := by
  by_cases hl : l = []
  · rw [hl]
    rfl
  · have hitems : l.text.splitOn 44 = l.map rangeText := by
      refine List.splitOn_intercalate 44 ?_ (by simpa using hl)
      intro t ht hm
      obtain ⟨r, -, rfl⟩ := List.mem_map.mp ht
      rcases rangeText_chars r 44 hm with h | h | h
      all_goals exact absurd h (by decide)
    have hne : l.text ≠ [] := by
      intro he
      rw [he] at hitems
      obtain ⟨r, rs, rfl⟩ := List.exists_cons_of_ne_nil hl
      have : [] = rangeText r := (List.cons.inj hitems).1
      exact rangeText_ne_nil this.symm
    have hshort : (l.map rangeText).any (63 < ·.length) = false := by
      simp only [List.any_map, List.any_eq_false, Function.comp, decide_eq_true_eq]
      intro r _
      have := rangeText_length r
      omega
    have hfilter : (l.map rangeText).filter (· ≠ []) = l.map rangeText := by
      rw [List.filter_eq_self]
      intro t ht
      obtain ⟨r, -, rfl⟩ := List.mem_map.mp ht
      simpa using rangeText_ne_nil
    rw [ofText, if_neg hne]
    simp only [hitems, hshort, hfilter, List.map_map]
    exact if_neg (by simp)

/-- The ranges that are printed, cleaned from the last to the first, have the members of the list. -/
def Returns (l : SidList) : Prop := ∃ l', clean l.printed.reverse = some l' ∧ ∀ id, member l' id = member l id

/-- **A settled list of plain SIDs returns**, as the list that it was. -/
theorem Settled.returns {l : SidList} (h : l.Settled) (hp : ∀ r ∈ l, r.1.Plain ∧ r.2.Plain) : l.Returns :=
  ⟨l, by rw [printed_of_plain hp, clean_reverse h], fun _ => rfl⟩

end SidList

end CSSC.Table
