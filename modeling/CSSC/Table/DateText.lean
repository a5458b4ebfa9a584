import CSSC.Library.Decimal
import CSSC.Table.Date

/-!
# Dates as text

A date is stored as `yy/mm/dd hh:mm:ss`. Two digits stand for the years from 1969 to 2068, and **a valid date of these
years is read back** (`ofText_text`). The constructor that reads a date from a file also accepts a year of four
digits, and a first character between `:` and `@` for a digit above 9.
-/

namespace CSSC.Table

open CSSC.Lines CSSC.Library.Decimal

/-- `y2k_window`. -/
def y2kWindow (year : ℤ) : Except Quit ℤ :=
  let y := if year < 69 then year + 2000 else year + 1900
  if 1969 ≤ y ∧ y < 2069 then .ok y else .error .assertion

/-- `get_two_digits`, of two characters that are digits. -/
def getTwoDigits (a b : UInt8) : ℤ := digitValue a * 10 + digitValue b

namespace SccsDate

/-- `date_.printf(f, 'D')`. -/
def dateText (d : SccsDate) : List UInt8 :=
  twoDigits (d.year.tmod 100) ++ 47 :: (twoDigits d.month ++ 47 :: twoDigits d.monthDay)

/-- `date_.printf(f, 'T')`. -/
def timeText (d : SccsDate) : List UInt8 :=
  twoDigits d.hour ++ 58 :: (twoDigits d.minute ++ 58 :: twoDigits d.second)

/-- `printf`. -/
def printf (d : SccsDate) (fmt : UInt8) : Except Quit (List UInt8) :=
  match fmt with
  | 68 => .ok d.dateText -- 'D'
  | 72 => -- 'H'
    .ok (twoDigits d.month ++ 47 :: (twoDigits d.monthDay ++ 47 :: twoDigits (d.year.tmod 100)))
  | 84 => .ok d.timeText -- 'T'
  | 121 => .ok (twoDigits (d.year.tmod 100)) -- 'y'
  | 111 => .ok (twoDigits d.month) -- 'o'
  | 100 => .ok (twoDigits d.monthDay) -- 'd'
  | 104 => .ok (twoDigits d.hour) -- 'h'
  | 109 => .ok (twoDigits d.minute) -- 'm'
  | 115 => .ok (twoDigits d.second) -- 's'
  | _ => .error .assertion

/-- `print`. -/
def text (d : SccsDate) : List UInt8 := d.dateText ++ 32 :: d.timeText

/-- The three fields of two digits in `aa.bb.cc`; `none` if the text has another form. -/
def threeFields (sep : UInt8) : List UInt8 → Option (ℤ × ℤ × ℤ)
  | [a, b, s, c, d, t, e, f] =>
    if isDigit a ∧ isDigit b ∧ s = sep ∧ isDigit c ∧ isDigit d ∧ t = sep ∧ isDigit e ∧ isDigit f then
      some (getTwoDigits a b, getTwoDigits c d, getTwoDigits e f)
    else Option.none
  | _ => Option.none

/-- The century, if the year has four digits, and the rest of the date; the century is 0 if two digits are to be
decided by windowing. -/
def splitCentury : List UInt8 → ℤ × List UInt8
  | a :: b :: c :: d :: 47 :: rest =>
    if isDigit a ∧ isDigit b ∧ isDigit c ∧ isDigit d then (getTwoDigits a b, c :: d :: 47 :: rest)
    else (0, a :: b :: c :: d :: 47 :: rest)
  | date => (0, date)

/-- The colon that an implementation wrote for the year 2000. -/
def fixColon : List UInt8 → List UInt8
  | c :: rest => if 58 ≤ c ∧ c ≤ 64 then (c - 10) :: rest else c :: rest
  | [] => []

/-- The year of a date in a file. -/
def fullYear (century year : ℤ) : Except Quit ℤ :=
  if century ≠ 0 then
    if 1969 ≤ century * 100 + year ∧ century * 100 + year < 2069 then .ok (century * 100 + year) else .error .assertion
  else y2kWindow year

/-- `sccs_date(const char*, const char*)`. A text of another form gives a date that is not valid. -/
def ofText (date time : List UInt8) : Except Quit SccsDate :=
  let c := splitCentury date
  match threeFields 47 (fixColon c.2), threeFields 58 time with
  | some (y, mo, da), some (h, mi, s) => (fullYear c.1 y).map fun y => ⟨y, mo, da, h, mi, s⟩
  | _, _ => .ok none

/-! ### A valid date is read back -/

theorem getTwoDigits_digits {n : ℕ} (h : n < 100) :
    getTwoDigits (UInt8.ofNat (48 + n / 10)) (UInt8.ofNat (48 + n % 10)) = n := by
  rw [getTwoDigits, digitValue_digit (by omega), digitValue_digit (by omega)]
  omega

/-- Three fields that are printed are read back. -/
theorem threeFields_twoDigits {sep : UInt8} {a b c : ℕ} (ha : a < 100) (hb : b < 100) (hc : c < 100) :
    threeFields sep (twoDigits a ++ sep :: (twoDigits b ++ sep :: twoDigits c)) = some (↑a, ↑b, ↑c) := by
  have hd : ∀ n : ℕ, n < 100 → isDigit (UInt8.ofNat (48 + n / 10)) = true ∧
      isDigit (UInt8.ofNat (48 + n % 10)) = true :=
    fun n hn => ⟨isDigit_digit (by omega), isDigit_digit (by omega)⟩
  rw [twoDigits_eq ha, twoDigits_eq hb, twoDigits_eq hc]
  simp only [List.cons_append, List.nil_append, threeFields]
  rw [if_pos ⟨(hd a ha).1, (hd a ha).2, trivial, (hd b hb).1, (hd b hb).2, trivial, (hd c hc).1, (hd c hc).2⟩,
    getTwoDigits_digits ha, getTwoDigits_digits hb, getTwoDigits_digits hc]

/-- The year of two digits is the year. -/
theorem fullYear_tmod {y : ℤ} (h : 1969 ≤ y) (h' : y < 2069) : fullYear 0 (y.tmod 100) = .ok y := by
  have hm : y.tmod 100 = y % 100 := Int.tmod_eq_emod_of_nonneg (by omega)
  have hw : (if y % 100 < 69 then y % 100 + 2000 else y % 100 + 1900) = y := by
    split_ifs <;> omega
  simp only [fullYear, y2kWindow, hm, hw]
  rw [if_neg (by simp), if_pos ⟨h, h'⟩]

/-- The fields of a valid date have two digits. -/
theorem valid_bounds {d : SccsDate} (h : d.valid = true) :
    (0 ≤ d.month ∧ d.month < 100) ∧ (0 ≤ d.monthDay ∧ d.monthDay < 100) ∧ (0 ≤ d.hour ∧ d.hour < 100) ∧
      (0 ≤ d.minute ∧ d.minute < 100) ∧ 0 ≤ d.second ∧ d.second < 100 := by
  simp only [valid, Bool.and_eq_true, decide_eq_true_eq] at h
  have hd : daysInMonth d.month d.year ≤ 31 := by
    unfold daysInMonth
    split_ifs <;> omega
  omega

/-- **A valid date of a year from 1969 to 2068 is read back.** -/
theorem ofText_text {d : SccsDate} (hv : d.valid = true) (hy : 1969 ≤ d.year) (hy' : d.year < 2069) :
    ofText d.dateText d.timeText = .ok d := by
  obtain ⟨⟨hmo, hmo'⟩, ⟨hda, hda'⟩, ⟨hh, hh'⟩, ⟨hmi, hmi'⟩, hs, hs'⟩ := valid_bounds hv
  have hm : d.year.tmod 100 = d.year % 100 := Int.tmod_eq_emod_of_nonneg (by omega)
  obtain ⟨y, hyn⟩ := Int.eq_ofNat_of_zero_le (show 0 ≤ d.year.tmod 100 by omega)
  obtain ⟨mo, hmon⟩ := Int.eq_ofNat_of_zero_le hmo
  obtain ⟨da, hdan⟩ := Int.eq_ofNat_of_zero_le hda
  obtain ⟨h, hhn⟩ := Int.eq_ofNat_of_zero_le hh
  obtain ⟨mi, hmin⟩ := Int.eq_ofNat_of_zero_le hmi
  obtain ⟨s, hsn⟩ := Int.eq_ofNat_of_zero_le hs
  have hdate : threeFields 47 d.dateText = some (↑y, ↑mo, ↑da) := by
    rw [dateText, hyn, hmon, hdan]
    exact threeFields_twoDigits (by omega) (by omega) (by omega)
  have htime : threeFields 58 d.timeText = some (↑h, ↑mi, ↑s) := by
    rw [timeText, hhn, hmin, hsn]
    exact threeFields_twoDigits (by omega) (by omega) (by omega)
  -- the date starts with two digits and a slash
  have hform : splitCentury d.dateText = (0, d.dateText) ∧ fixColon d.dateText = d.dateText := by
    rw [dateText, hyn, hmon, hdan, twoDigits_eq (show y < 100 by omega), twoDigits_eq (show mo < 100 by omega),
      twoDigits_eq (show da < 100 by omega)]
    have hb := isDigit_bounds (isDigit_digit (show y / 10 < 10 by omega))
    constructor
    · simp only [List.cons_append, List.nil_append]
      rw [splitCentury]
      -- the character after the month's first digit is no slash
      intro a b c e rest he
      simp only [List.cons.injEq] at he
      have hm2 := isDigit_bounds (isDigit_digit (show mo % 10 < 10 by omega))
      rw [he.2.2.2.2.1] at hm2
      exact absurd hm2.1 (by decide)
    · simp only [List.cons_append, List.nil_append, fixColon]
      rw [if_neg]
      rintro ⟨h58, -⟩
      have h58 : 58 ≤ (UInt8.ofNat (48 + y / 10)).toNat := UInt8.le_iff_toNat_le.mp h58
      omega
  rw [ofText, hform.1]
  simp only [hform.2, hdate, htime]
  rw [← hyn, fullYear_tmod hy hy', ← hmon, ← hdan, ← hhn, ← hmin, ← hsn]
  rfl

/-- A date is printed without blanks but one, and without the bytes that end a line or a string. -/
theorem text_chars (d : SccsDate) : ∀ c ∈ d.dateText ++ d.timeText, 45 ≤ c.toNat ∧ c.toNat ≤ 58 := by
  have htwo : ∀ (n : ℤ), ∀ c ∈ twoDigits n, 45 ≤ c.toNat ∧ c.toNat ≤ 58 := by
    intro n c hc
    rcases twoDigits_chars n c hc with rfl | h
    · decide
    · have := isDigit_bounds h
      omega
  intro c hc
  simp only [dateText, timeText, List.mem_append, List.mem_cons] at hc
  rcases hc with (h | rfl | h | rfl | h) | h | rfl | h | rfl | h
  all_goals first | exact htwo _ c h | decide

end SccsDate

end CSSC.Table
