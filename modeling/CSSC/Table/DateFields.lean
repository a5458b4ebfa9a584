import CSSC.Table.DateText
import Mathlib.Data.List.Lex

/-!
# Dates on the command line

The cutoff of `get -c` is given by its fields, of which those at the end may be missing. They stand for the latest
time that the others leave. `SccsDate.ofCutoff` is the constructor that reads such a date; fields of two digits may
have any other characters around them (`SpreadOut`, `ofCutoff_separated`).

Dates are compared by their fields, one after the other (`compare_lt_iff`, `compare_eq_iff`). **Printing, both
constructors and the order agree** (`dates_agree`).
-/

namespace CSSC.Table

open CSSC.Lines CSSC.Library.Decimal

/-! ### The model -/

/-- `get_part`: the number, and what follows it. -/
def getPart (dflt : ℤ) : List UInt8 → ℤ × List UInt8
  | [] => (dflt, [])
  | c :: s =>
    if isDigit c then
      if isDigit (s.headD 0) then (getTwoDigits c (s.headD 0), s.drop 1) else (digitValue c, s)
    else getPart dflt s

/-- `count_digits`. -/
def countDigits (s : List UInt8) : ℕ := s.countP isDigit

/-- The year, and what follows it, when its first part is `part`. With more than twelve digits the first part may be
the century. -/
def cutoffYear (digits : ℕ) (part : ℤ) (s : List UInt8) : Except Quit (ℤ × List UInt8) :=
  if 12 < digits then
    if isDigit (s.headD 0) ∧ isDigit (s.getD 1 0) then
      .ok (part * 100 + getTwoDigits (s.headD 0) (s.getD 1 0), s.drop 2)
    else .ok (part, s)
  else (y2kWindow part).map fun y => (y, s)

namespace SccsDate

/-- `sccs_date(const char*)`. -/
def ofCutoff (s : List UInt8) : Except Quit SccsDate :=
  let part := getPart (-1) s
  if part.1 = -1 then .ok none
  else do
    let year ← cutoffYear (countDigits s) part.1 part.2
    let month := getPart 12 year.2
    let day := getPart (daysInMonth month.1 year.1) month.2
    let hour := getPart 23 day.2
    let minute := getPart 59 hour.2
    let second := getPart 59 minute.2
    return ⟨year.1, month.1, day.1, hour.1, minute.1, second.1⟩

/-- The fields. -/
def components (d : SccsDate) : List ℤ := [d.year, d.month, d.monthDay, d.hour, d.minute, d.second]

/-- The fields as numbers of two digits. -/
def printed (d : SccsDate) : List ℤ := [d.year.tmod 100, d.month, d.monthDay, d.hour, d.minute, d.second]

/-- The fields as they are printed. -/
def fieldTexts (d : SccsDate) : List (List UInt8) := d.printed.map twoDigits

/-- `as_string`. -/
def asString (d : SccsDate) : List UInt8 :=
  twoDigits (d.year.tmod 100) ++ 47 :: (twoDigits d.month ++ 47 :: (twoDigits d.monthDay ++ 32 ::
    (twoDigits d.hour ++ 58 :: (twoDigits d.minute ++ 58 :: twoDigits d.second))))

end SccsDate

/-- Texts one after the other, with characters before, between and after them that are no digits. -/
inductive SpreadOut : List (List UInt8) → List UInt8 → Prop where
  /-- No text is left. -/
  | nil {sep : List UInt8} : (∀ c ∈ sep, isDigit c = false) → SpreadOut [] sep
  /-- A text. -/
  | cons {sep f t : List UInt8} {fs : List (List UInt8)} : (∀ c ∈ sep, isDigit c = false) → SpreadOut fs t →
      SpreadOut (f :: fs) (sep ++ (f ++ t))

/-! ### The order -/

theorem daysInMonth_pos {m : ℤ} (h : 1 ≤ m) (h' : m ≤ 12) (y : ℤ) : 0 < daysInMonth m y := by
  unfold daysInMonth
  split_ifs with h1 h2 h3 h4
  · decide
  · decide
  · decide
  · decide
  · simp only [List.mem_cons, List.not_mem_nil, or_false, not_or] at h1 h2
    omega

theorem daysInMonth_le (m y : ℤ) : daysInMonth m y ≤ 31 := by
  unfold daysInMonth
  split_ifs <;> decide

/-- The days of the first `m` months. -/
def daysBefore (y : ℤ) (m : ℕ) : ℤ := ((List.range' 1 m).map fun i : ℕ => daysInMonth i y).sum

theorem daysBefore_succ (y : ℤ) (m : ℕ) : daysBefore y (m + 1) = daysBefore y m + daysInMonth (m + 1) y := by
  rw [daysBefore, List.range'_concat, List.map_append, List.sum_append, daysBefore]
  simp [add_comm]

/-- A month ends before the days of a later one. -/
theorem daysBefore_lt {y : ℤ} {m n : ℕ} (h : m < n) (hn : n ≤ 12) :
    daysBefore y m + daysInMonth (m + 1) y ≤ daysBefore y n := by
  induction n with
  | zero => omega
  | succ n ih =>
    rcases Nat.eq_or_lt_of_le (Nat.le_of_lt_succ h) with rfl | hlt
    · exact (daysBefore_succ y m).ge
    · have hpos : 0 < daysInMonth (n + 1) y := daysInMonth_pos (by omega) (by omega) y
      have := ih hlt (by omega)
      rw [daysBefore_succ]
      omega

namespace SccsDate

/-- What it means to be valid. -/
theorem valid_iff {d : SccsDate} : d.valid = true ↔ 0 ≤ d.year ∧ (1 ≤ d.month ∧ d.month ≤ 12) ∧
    (1 ≤ d.monthDay ∧ d.monthDay ≤ daysInMonth d.month d.year) ∧ (0 ≤ d.hour ∧ d.hour ≤ 23) ∧
    (0 ≤ d.minute ∧ d.minute ≤ 59) ∧ 0 ≤ d.second ∧ d.second ≤ 61 := by
  simp only [valid, Bool.and_eq_true, decide_eq_true_eq]
  omega

theorem yearday_eq {d : SccsDate} (h : d.valid = true) :
    d.yearday = daysBefore d.year (d.month - 1).toNat + d.monthDay := by
  obtain ⟨-, -, ⟨hd, -⟩, -⟩ := valid_iff.mp h
  have hsum : ((List.range' 1 (d.month - 1).toNat).map fun m => daysInMonth m d.year).sum =
      daysBefore d.year (d.month - 1).toNat := by
    simp [daysBefore, List.map_eq_flatMap, List.flatMap_assoc]
  rw [yearday, hsum]
  omega

/-- In one year a later month has the later days. -/
theorem yearday_lt {d e : SccsDate} (hd : d.valid = true) (he : e.valid = true) (hy : d.year = e.year)
    (hm : d.month < e.month) : d.yearday < e.yearday := by
  obtain ⟨-, ⟨hm1, hm2⟩, ⟨hd1, hd2⟩, -⟩ := valid_iff.mp hd
  obtain ⟨-, ⟨hn1, hn2⟩, ⟨he1, -⟩, -⟩ := valid_iff.mp he
  have h := daysBefore_lt (y := d.year) (m := (d.month - 1).toNat) (n := (e.month - 1).toNat) (by omega) (by omega)
  rw [show ((d.month - 1).toNat : ℤ) + 1 = d.month by omega] at h
  rw [yearday_eq hd, yearday_eq he, ← hy]
  omega

/-- **Dates are compared by their fields**, and the first one that differs decides. -/
theorem compare_lt_iff {d e : SccsDate} (hd : d.valid = true) (he : e.valid = true) :
    d.compare e < 0 ↔ d.components < e.components := by
  simp only [components, List.cons_lt_cons_iff, List.not_lt_nil, and_false, or_false]
  unfold compare
  by_cases hy : d.year = e.year
  · rw [if_neg (by omega)]
    rcases lt_trichotomy d.month e.month with hm | hm | hm
    · have := yearday_lt hd he hy hm
      rw [if_pos (by omega)]
      omega
    · have : d.yearday - e.yearday = d.monthDay - e.monthDay := by
        rw [yearday_eq hd, yearday_eq he, hy, hm]
        omega
      rw [this]
      split_ifs <;> omega
    · have := yearday_lt he hd hy.symm hm
      rw [if_pos (by omega)]
      omega
  · rw [if_pos (by omega)]
    omega

/-- The comparison with the dates exchanged. -/
theorem compare_swap (d e : SccsDate) : e.compare d = -d.compare e := by
  unfold compare
  split_ifs <;> omega

/-- Dates are equal in the order when all their fields are. -/
theorem compare_eq_iff {d e : SccsDate} (hd : d.valid = true) (he : e.valid = true) :
    d.compare e = 0 ↔ d.components = e.components := by
  have h1 := compare_lt_iff hd he
  have h2 := compare_lt_iff he hd
  rw [compare_swap] at h2
  constructor
  · intro h
    have h3 : ¬ d.components < e.components := fun hlt => by have := h1.mpr hlt; omega
    have h4 : ¬ e.components < d.components := fun hlt => by have := h2.mpr hlt; omega
    exact le_antisymm (not_lt.mp h4) (not_lt.mp h3)
  · intro h
    have h3 : ¬ d.compare e < 0 := fun hlt => absurd (h1.mp hlt) (by rw [h]; exact lt_irrefl _)
    have h4 : ¬ -d.compare e < 0 := fun hlt => absurd (h2.mp hlt) (by rw [h]; exact lt_irrefl _)
    omega

/-- A date with no field below that of another is not earlier. -/
theorem compare_nonneg {d e : SccsDate} (hd : d.valid = true) (he : e.valid = true) (h1 : e.year ≤ d.year)
    (h2 : e.month ≤ d.month) (h3 : e.monthDay ≤ d.monthDay) (h4 : e.hour ≤ d.hour) (h5 : e.minute ≤ d.minute)
    (h6 : e.second ≤ d.second) : 0 ≤ d.compare e := by
  by_contra hlt
  have := (compare_lt_iff hd he).mp (by omega)
  simp only [components, List.cons_lt_cons_iff, List.not_lt_nil, and_false, or_false] at this
  omega

/-! ### Reading fields -/

/-- The fields of a valid date have two digits. -/
theorem printed_bounds {d : SccsDate} (h : d.valid = true) : ∀ z ∈ d.printed, 0 ≤ z ∧ z < 100 := by
  obtain ⟨hy, hmo, ⟨hd, hd'⟩, hh, hmi, hs⟩ := valid_iff.mp h
  have hm : d.year.tmod 100 = d.year % 100 := Int.tmod_eq_emod_of_nonneg hy
  have := daysInMonth_le d.month d.year
  intro z hz
  simp only [printed, List.mem_cons, List.not_mem_nil, or_false] at hz
  rcases hz with rfl | rfl | rfl | rfl | rfl | rfl <;> omega

end SccsDate

theorem getPart_skip (dflt : ℤ) {sep : List UInt8} (h : ∀ c ∈ sep, isDigit c = false) (t : List UInt8) :
    getPart dflt (sep ++ t) = getPart dflt t := by
  induction sep with
  | nil => rfl
  | cons c sep ih =>
    rw [List.cons_append, getPart, if_neg (by simp [h c]), ih fun d hd => h d (List.mem_cons_of_mem c hd)]

/-- A field of two digits. -/
theorem getPart_twoDigits (dflt : ℤ) {z : ℤ} (h : 0 ≤ z) (h' : z < 100) (t : List UInt8) :
    getPart dflt (twoDigits z ++ t) = (z, t) := by
  obtain ⟨n, rfl⟩ := Int.eq_ofNat_of_zero_le h
  have hn : n < 100 := by omega
  rw [twoDigits_eq hn, List.cons_append, getPart, if_pos (isDigit_digit (by omega))]
  simp only [List.cons_append, List.nil_append, List.headD_cons, List.drop_succ_cons, List.drop_zero]
  rw [if_pos (isDigit_digit (Nat.mod_lt _ (by decide))), SccsDate.getTwoDigits_digits hn]

theorem countDigits_twoDigits {z : ℤ} (h : 0 ≤ z) (h' : z < 100) : countDigits (twoDigits z) = 2 := by
  obtain ⟨n, rfl⟩ := Int.eq_ofNat_of_zero_le h
  have hn : n < 100 := by omega
  rw [twoDigits_eq hn, countDigits, List.countP_cons_of_pos (isDigit_digit (by omega)),
    List.countP_cons_of_pos (isDigit_digit (Nat.mod_lt _ (by decide)))]
  rfl

/-- Each field counts two digits, and nothing else counts. -/
theorem SpreadOut.countDigits {zs : List ℤ} {t : List UInt8} (hz : ∀ z ∈ zs, 0 ≤ z ∧ z < 100)
    (h : SpreadOut (zs.map twoDigits) t) : countDigits t = 2 * zs.length := by
  have hsep : ∀ {sep : List UInt8}, (∀ c ∈ sep, isDigit c = false) → sep.countP isDigit = 0 := fun hs =>
    List.countP_eq_zero.mpr fun c hc => by simp [hs c hc]
  induction zs generalizing t with
  | nil =>
    cases h with
    | nil hs => exact hsep hs
  | cons z zs ih =>
    cases h with
    | cons hs h =>
      have h2 := countDigits_twoDigits (hz z (by simp)).1 (hz z (by simp)).2
      have hrest := ih (fun y hy => hz y (List.mem_cons_of_mem z hy)) h
      rw [CSSC.Table.countDigits] at h2 hrest ⊢
      rw [List.countP_append, List.countP_append, hsep hs, h2, hrest, List.length_cons]
      omega

/-- **A part is the next field, or the default when none is left.** -/
theorem SpreadOut.getPart {zs : List ℤ} {t : List UInt8} (hz : ∀ z ∈ zs, 0 ≤ z ∧ z < 100)
    (h : SpreadOut (zs.map twoDigits) t) (dflt : ℤ) :
    ∃ t', getPart dflt t = (zs.headD dflt, t') ∧ SpreadOut (zs.tail.map twoDigits) t' := by
  cases zs with
  | nil =>
    cases h with
    | nil hs =>
      refine ⟨[], ?_, .nil (by simp)⟩
      rw [← List.append_nil t, getPart_skip dflt hs]
      rfl
  | cons z zs =>
    cases h with
    | @cons sep _ t _ hs h =>
      obtain ⟨h0, h100⟩ := hz z (by simp)
      exact ⟨t, by rw [getPart_skip dflt hs, getPart_twoDigits dflt h0 h100]; rfl, h⟩

namespace SccsDate

/-- **What the command line says**: the fields that are given, and for the others the last month, day, hour, minute
and second. -/
theorem ofCutoff_separated {y year : ℤ} {zs : List ℤ} {t : List UInt8} (hz : ∀ z ∈ y :: zs, 0 ≤ z ∧ z < 100)
    (hlen : zs.length ≤ 5) (hy : y2kWindow y = .ok year) (h : SpreadOut ((y :: zs).map twoDigits) t) :
    ofCutoff t = .ok ⟨year, zs.headD 12, zs.tail.headD (daysInMonth (zs.headD 12) year), zs.tail.tail.headD 23,
      zs.tail.tail.tail.headD 59, zs.tail.tail.tail.tail.headD 59⟩ := by
  have htail : ∀ {l : List ℤ}, (∀ z ∈ l, 0 ≤ z ∧ z < 100) → ∀ z ∈ l.tail, 0 ≤ z ∧ z < 100 :=
    fun hl z hz => hl z (List.mem_of_mem_tail hz)
  have h1 := htail hz
  have h2 := htail h1
  have h3 := htail h2
  have h4 := htail h3
  have h5 := htail h4
  have hdigits : ¬ 12 < countDigits t := by
    rw [h.countDigits hz, List.length_cons]
    omega
  obtain ⟨t₁, e₁, s₁⟩ := h.getPart hz (-1)
  obtain ⟨t₂, e₂, s₂⟩ := s₁.getPart h1 12
  obtain ⟨t₃, e₃, s₃⟩ := s₂.getPart h2 (daysInMonth (zs.headD 12) year)
  obtain ⟨t₄, e₄, s₄⟩ := s₃.getPart h3 23
  obtain ⟨t₅, e₅, s₅⟩ := s₄.getPart h4 59
  obtain ⟨t₆, e₆, -⟩ := s₅.getPart h5 59
  have hne : (y :: zs).headD (-1) ≠ -1 := by
    have := (hz y (by simp)).1
    rw [List.headD_cons]
    omega
  have hyear : cutoffYear (countDigits t) ((y :: zs).headD (-1)) t₁ = .ok (year, t₁) := by
    rw [cutoffYear, if_neg hdigits, List.headD_cons, hy]
    rfl
  rw [List.tail_cons] at e₂ e₃ e₄ e₅ e₆
  simp only [ofCutoff, e₁, if_neg hne, hyear, ok_bind, e₂, e₃, e₄, e₅, e₆]
  rfl

/-- The window of years gives back a year from 1969 to 2068. -/
theorem y2kWindow_tmod {y : ℤ} (h : 1969 ≤ y) (h' : y ≤ 2068) : y2kWindow (y.tmod 100) = .ok y := by
  have := fullYear_tmod h (by omega : y < 2069)
  rwa [fullYear, if_neg (by simp)] at this

/-- The latest date with the first `k` fields of `d`. -/
def latest (d : SccsDate) (k : ℕ) : SccsDate where
  year := d.year
  month := if 1 < k then d.month else 12
  monthDay := if 2 < k then d.monthDay else daysInMonth (if 1 < k then d.month else 12) d.year
  hour := if 3 < k then d.hour else 23
  minute := if 4 < k then d.minute else 59
  second := if 5 < k then d.second else 59

/-- It is what is read of these fields. -/
theorem ofCutoff_take {d : SccsDate} (hv : d.valid = true) (h : 1969 ≤ d.year) (h' : d.year ≤ 2068) {k : ℕ}
    (hk : 1 ≤ k) (hk' : k ≤ 6) {t : List UInt8} (ht : SpreadOut (d.fieldTexts.take k) t) :
    ofCutoff t = .ok (d.latest k) := by
  obtain ⟨k, rfl⟩ : ∃ j, k = j + 1 := ⟨k - 1, by omega⟩
  have hb : ∀ z ∈ d.year.tmod 100 :: (d.printed.drop 1).take k, 0 ≤ z ∧ z < 100 := fun z hz =>
    printed_bounds hv z (List.mem_of_mem_take (show z ∈ d.printed.take (k + 1) from hz))
  rw [ofCutoff_separated hb (by rw [List.length_take]; omega) (y2kWindow_tmod h h')
    (by rw [fieldTexts, ← List.map_take] at ht; exact ht)]
  rcases k with _ | _ | _ | _ | _ | _ | k
  · rfl
  · rfl
  · rfl
  · rfl
  · rfl
  · rfl
  · omega

theorem valid_latest {d : SccsDate} (hv : d.valid = true) (k : ℕ) : (d.latest k).valid = true := by
  obtain ⟨hy, hm, hd, hh, hmi, hs⟩ := valid_iff.mp hv
  have hdec : daysInMonth 12 d.year = 31 := by simp [daysInMonth]
  have hpos := daysInMonth_pos hm.1 hm.2 d.year
  rw [valid_iff]
  refine ⟨hy, ?_, ?_, ?_, ?_, ?_⟩ <;> simp only [latest] <;> split_ifs <;> omega

/-- The first `k` fields are the same when each of them is. -/
theorem take_components {d e : SccsDate} {k : ℕ} (hk : 1 ≤ k) (h : e.components.take k = d.components.take k) :
    e.year = d.year ∧ (1 < k → e.month = d.month) ∧ (2 < k → e.monthDay = d.monthDay) ∧ (3 < k → e.hour = d.hour) ∧
      (4 < k → e.minute = d.minute) ∧ (5 < k → e.second = d.second) := by
  have hi : ∀ i, i < k → e.components[i]? = d.components[i]? := fun i hik => by
    rw [← List.getElem?_take_of_lt hik, h, List.getElem?_take_of_lt hik]
  exact ⟨by simpa [components] using hi 0 (by omega), fun hik => by simpa [components] using hi 1 hik,
    fun hik => by simpa [components] using hi 2 hik, fun hik => by simpa [components] using hi 3 hik,
    fun hik => by simpa [components] using hi 4 hik, fun hik => by simpa [components] using hi 5 hik⟩

theorem latest_take {d : SccsDate} {k : ℕ} (hk' : k ≤ 6) :
    (d.latest k).components.take k = d.components.take k := by
  rcases k with _ | _ | _ | _ | _ | _ | _ | k
  · rfl
  · rfl
  · rfl
  · rfl
  · rfl
  · rfl
  · rfl
  · omega

/-- No valid date with these fields is later, unless its second is a leap second. -/
theorem latest_le {d e : SccsDate} (hd : d.valid = true) (he : e.valid = true) (hs : e.second ≤ 59) {k : ℕ} (hk : 1 ≤ k)
    (h : e.components.take k = d.components.take k) : 0 ≤ (d.latest k).compare e := by
  obtain ⟨-, ⟨-, hm⟩, ⟨-, hday⟩, ⟨-, hh⟩, ⟨-, hmi⟩, -⟩ := valid_iff.mp he
  obtain ⟨ey, em, ed, eh, emi, es⟩ := take_components hk h
  have h31 := daysInMonth_le e.month e.year
  refine compare_nonneg (valid_latest hd k) he ?_ ?_ ?_ ?_ ?_ ?_
  · exact ey.le
  · simp only [latest]
    split_ifs with hk1
    · exact (em hk1).le
    · exact hm
  · simp only [latest]
    split_ifs with hk2 hk1
    · exact (ed hk2).le
    · rwa [← em hk1, ← ey]
    · simpa [daysInMonth] using hday.trans h31
  · simp only [latest]
    split_ifs with hk3
    · exact (eh hk3).le
    · exact hh
  · simp only [latest]
    split_ifs with hk4
    · exact (emi hk4).le
    · exact hmi
  · simp only [latest]
    split_ifs with hk5
    · exact (es hk5).le
    · exact hs

/-- **Printing, both constructors and the order agree.** A date of the years that two digits stand for is read back
from a file; its first fields on the command line stand for the latest date that has them; and dates are compared by
their fields. -/
theorem dates_agree :
    (∀ d : SccsDate, d.valid = true → 1969 ≤ d.year → d.year ≤ 2068 → d.second ≤ 59 →
      d.asString = d.dateText ++ 32 :: d.timeText ∧ ofText d.dateText d.timeText = .ok d ∧
      ∀ k, 1 ≤ k → k ≤ 6 → ∀ t, SpreadOut (d.fieldTexts.take k) t →
        ∃ r, ofCutoff t = .ok r ∧ r.valid = true ∧ r.components.take k = d.components.take k ∧
          ∀ e : SccsDate, e.valid = true → e.second ≤ 59 → e.components.take k = d.components.take k →
            0 ≤ r.compare e) ∧
    ∀ d e : SccsDate, d.valid = true → e.valid = true →
      (d.compare e < 0 ↔ d.components < e.components) ∧ (d.compare e = 0 ↔ d.components = e.components) := by
  refine ⟨fun d hv hy hy' _ => ⟨by simp [asString, dateText, timeText], ofText_text hv hy (by omega), ?_⟩,
    fun d e hd he => ⟨compare_lt_iff hd he, compare_eq_iff hd he⟩⟩
  intro k hk hk' t ht
  exact ⟨d.latest k, ofCutoff_take hv hy hy' hk hk' ht, valid_latest hv k, latest_take hk',
    fun e he hes h => latest_le hv he hes hk h⟩

/-- A month of a leap year. -/
theorem dates_agree_leap : ∃ r, ofCutoff [50, 52, 46, 46, 48, 50] = .ok r ∧ r.valid = true ∧
    r.components.take 2 = [2024, 2] ∧ 0 ≤ r.compare ⟨2024, 2, 29, 23, 59, 59⟩ := by
  obtain ⟨-, -, h⟩ := dates_agree.1 ⟨2024, 2, 29, 23, 59, 59⟩ (by decide) (by decide) (by decide) (by decide)
  have hdots : ∀ c ∈ ([46, 46] : List UInt8), isDigit c = false :=
    List.forall_mem_cons.mpr ⟨by decide, List.forall_mem_singleton.mpr (by decide)⟩
  obtain ⟨r, h1, h2, h3, h4⟩ := h 2 (by decide) (by decide) [50, 52, 46, 46, 48, 50]
    (@SpreadOut.cons [] [50, 52] _ _ (by simp) (@SpreadOut.cons [46, 46] [48, 50] _ _ hdots (.nil (by simp))))
  exact ⟨r, h1, h2, h3, h4 _ (by decide) (by decide) rfl⟩

end SccsDate

end CSSC.Table
