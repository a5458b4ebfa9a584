import Mathlib.Data.UInt
import Mathlib.Data.List.Basic

/-!
# Decimal numbers as ASCII text

A natural number is printed in decimal and read back: what is printed is a nonempty string of digits whose value is
the number (`valueFrom_decimal`, `decimal_isDigit`, `decimal_ne_nil`), and a number below 100 has two digits in `%02d`
(`twoDigits_eq`). Reading more digits never makes the value smaller, so a reader that checks a bound at every digit
checks it for the whole number (`le_valueFrom`).
-/

namespace CSSC.Library.Decimal

/-- `isdigit` in the C locale. -/
def isDigit (c : UInt8) : Bool := 48 ≤ c && c ≤ 57

/-- The value of a digit. -/
def digitValue (c : UInt8) : ℕ := c.toNat - 48

/-- The value of a string of digits that continues a number read so far. -/
def valueFrom (v : ℕ) (s : List UInt8) : ℕ := s.foldl (fun v c => v * 10 + digitValue c) v

/-- The digits of `n`, at most `fuel` of them. -/
def digits : ℕ → ℕ → List UInt8
  | 0, _ => []
  | fuel + 1, n =>
    if n < 10 then [UInt8.ofNat (48 + n)] else digits fuel (n / 10) ++ [UInt8.ofNat (48 + n % 10)]

/-- `n` in decimal; `n + 1` digits are always enough. -/
def decimal (n : ℕ) : List UInt8 := digits (n + 1) n

/-- An integer in decimal, with a `-` if it is negative. -/
def intDecimal (n : ℤ) : List UInt8 := if n < 0 then 45 :: decimal n.natAbs else decimal n.natAbs

/-- An integer in decimal, with a leading zero if it has one character (`%02d`). -/
def twoDigits (n : ℤ) : List UInt8 := if 0 ≤ n ∧ n < 10 then 48 :: intDecimal n else intDecimal n

@[simp] theorem valueFrom_nil (v : ℕ) : valueFrom v [] = v := rfl
@[simp] theorem valueFrom_cons (v : ℕ) (c : UInt8) (s : List UInt8) :
    valueFrom v (c :: s) = valueFrom (v * 10 + digitValue c) s := by
  simp only [valueFrom, List.foldl_cons]

theorem valueFrom_append (v : ℕ) (s t : List UInt8) :
    valueFrom v (s ++ t) = valueFrom (valueFrom v s) t := List.foldl_append ..

/-- Reading on never makes the value smaller. -/
theorem le_valueFrom (v : ℕ) (s : List UInt8) : v ≤ valueFrom v s := by
  induction s generalizing v with
  | nil => exact le_rfl
  | cons c s ih => exact le_trans (by omega) (ih (v * 10 + digitValue c))

theorem toNat_digit {d : ℕ} (h : d < 10) : (UInt8.ofNat (48 + d)).toNat = 48 + d := by
  rw [UInt8.toNat_ofNat']
  exact Nat.mod_eq_of_lt (by omega)

theorem isDigit_digit {d : ℕ} (h : d < 10) : isDigit (UInt8.ofNat (48 + d)) = true := by
  have := toNat_digit h
  simp only [isDigit, Bool.and_eq_true, decide_eq_true_eq, UInt8.le_iff_toNat_le, this]
  constructor
  · show 48 ≤ 48 + d
    omega
  · show 48 + d ≤ 57
    omega

theorem digitValue_digit {d : ℕ} (h : d < 10) : digitValue (UInt8.ofNat (48 + d)) = d := by
  rw [digitValue, toNat_digit h]
  omega

theorem digits_isDigit (fuel n : ℕ) : ∀ c ∈ digits fuel n, isDigit c = true := by
  induction fuel generalizing n with
  | zero => simp [digits]
  | succ fuel ih =>
    intro c hc
    rw [digits] at hc
    split at hc
    · rw [List.mem_singleton.mp hc]
      exact isDigit_digit (by omega)
    · rcases List.mem_append.mp hc with h | h
      · exact ih _ c h
      · rw [List.mem_singleton.mp h]
        exact isDigit_digit (Nat.mod_lt _ (by omega))

theorem valueFrom_digits {fuel n : ℕ} (h : n < fuel) : valueFrom 0 (digits fuel n) = n := by
  induction fuel generalizing n with
  | zero => omega
  | succ fuel ih =>
    rw [digits]
    split
    · rw [valueFrom_cons, valueFrom_nil, digitValue_digit (by omega)]
      omega
    · rw [valueFrom_append, ih (by omega), valueFrom_cons, valueFrom_nil,
        digitValue_digit (Nat.mod_lt _ (by omega))]
      omega

/-- **Every character printed is a digit.** -/
theorem decimal_isDigit (n : ℕ) : ∀ c ∈ decimal n, isDigit c = true := digits_isDigit _ n

/-- **The value printed is the number.** -/
theorem valueFrom_decimal (n : ℕ) : valueFrom 0 (decimal n) = n := valueFrom_digits (by omega)

theorem decimal_ne_nil (n : ℕ) : decimal n ≠ [] := by
  rw [decimal, digits]
  split <;> simp

/-- A digit is none of the bytes that end a string or a line, and no control character. -/
theorem isDigit_bounds {c : UInt8} (h : isDigit c = true) : 48 ≤ c.toNat ∧ c.toNat ≤ 57 := by
  simpa [isDigit, UInt8.le_iff_toNat_le] using h

theorem digits_length_le {k n : ℕ} (h : n < 10 ^ (k + 1)) (fuel : ℕ) : (digits fuel n).length ≤ k + 1 := by
  induction k generalizing fuel n with
  | zero =>
    cases fuel with
    | zero => simp [digits]
    | succ fuel =>
      rw [digits, if_pos (by omega)]
      simp
  | succ k ih =>
    cases fuel with
    | zero => simp [digits]
    | succ fuel =>
      rw [digits]
      split
      · simp
      · have := ih (n := n / 10) (by rw [Nat.pow_succ] at h; omega) fuel
        simp only [List.length_append, List.length_cons, List.length_nil]
        omega

/-- A number below `10 ^ (k + 1)` has at most `k + 1` digits. -/
theorem decimal_length_le {k n : ℕ} (h : n < 10 ^ (k + 1)) : (decimal n).length ≤ k + 1 := digits_length_le h _

theorem intDecimal_of_nonneg {n : ℤ} (h : 0 ≤ n) : intDecimal n = decimal n.natAbs := by
  rw [intDecimal, if_neg (by omega)]

theorem intDecimal_of_neg {n : ℤ} (h : n < 0) : intDecimal n = 45 :: decimal n.natAbs := by
  rw [intDecimal, if_pos h]

theorem intDecimal_ne_nil (n : ℤ) : intDecimal n ≠ [] := by
  rw [intDecimal]
  split_ifs
  · simp
  · exact decimal_ne_nil _

/-- A number of one digit. -/
theorem decimal_of_lt {n : ℕ} (h : n < 10) : decimal n = [UInt8.ofNat (48 + n)] := by
  rw [decimal, digits, if_pos h]

/-- A number below 100 has two digits, with the leading zero. -/
theorem twoDigits_eq {n : ℕ} (h : n < 100) :
    twoDigits n = [UInt8.ofNat (48 + n / 10), UInt8.ofNat (48 + n % 10)] := by
  rw [twoDigits, intDecimal_of_nonneg (by omega), Int.natAbs_natCast]
  by_cases h10 : n < 10
  · rw [if_pos (by omega), decimal_of_lt h10, Nat.div_eq_of_lt h10, Nat.mod_eq_of_lt h10]
    rfl
  · rw [if_neg (by omega), decimal, digits, if_neg h10]
    obtain ⟨k, rfl⟩ : ∃ k, n = k + 1 := ⟨n - 1, by omega⟩
    rw [digits, if_pos (by omega)]
    rfl

/-- An integer is printed with digits and the sign. -/
theorem intDecimal_chars (n : ℤ) : ∀ c ∈ intDecimal n, c = 45 ∨ isDigit c = true := by
  intro c hc
  rw [intDecimal] at hc
  split at hc
  · rcases List.mem_cons.mp hc with h | h
    · exact .inl h
    · exact .inr (decimal_isDigit _ c h)
  · exact .inr (decimal_isDigit _ c hc)

theorem twoDigits_chars (n : ℤ) : ∀ c ∈ twoDigits n, c = 45 ∨ isDigit c = true := by
  intro c hc
  rw [twoDigits] at hc
  split at hc
  · rcases List.mem_cons.mp hc with h | h
    · exact .inr (by rw [h]; rfl)
    · exact intDecimal_chars n c h
  · exact intDecimal_chars n c hc

example : decimal 0 = [48] ∧ decimal 1907 = [49, 57, 48, 55] := by decide

end CSSC.Library.Decimal
