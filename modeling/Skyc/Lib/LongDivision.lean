import Skyc.Lib.Positional

/-!
# Division in a positional system

A division by several digits guesses each digit of the quotient from the highest
digits; the guess is never too small, and after a correction with one more digit
it is too large by one at most.
-/

namespace Skyc.Lib

open Nat

/-! ## Division by one digit -/

section ShortDivision

variable {divisor : ℕ} (head scale lower : ℕ)

theorem div_mul_add_mod_mul :
    head * scale + lower = head % divisor * scale + lower + divisor * (head / divisor * scale) := by
  conv_lhs => rw [← mod_add_div head divisor]
  ring

theorem shortDivision_mod :
    (head * scale + lower) % divisor = (head % divisor * scale + lower) % divisor := by
  rw [div_mul_add_mod_mul, add_mul_mod_self_left]

end ShortDivision

/-! ## The digit of a long division -/

/-- A dividend and a divisor with these highest digits, above digits that stand for less
than `scale`, whose quotient is one digit. -/
structure Trial (base scale : ℕ) (u0 u1 u2 v1 v2 : ℕ) (dividend divisor : ℕ) : Prop where
  digit1 : u1 < base
  digit2 : u2 < base
  second : v2 < base
  first : 0 < v1
  dividend_ge : ((u0 * base + u1) * base + u2) * scale ≤ dividend
  dividend_lt : dividend < ((u0 * base + u1) * base + u2 + 1) * scale
  divisor_ge : (v1 * base + v2) * scale ≤ divisor
  divisor_lt : divisor < (v1 * base + v2 + 1) * scale
  quotient_lt : dividend < base * divisor

namespace Trial

variable {base scale u0 u1 u2 v1 v2 dividend divisor q r : ℕ}

section

variable (trial : Trial base scale u0 u1 u2 v1 v2 dividend divisor)
include trial

theorem scale_pos : 0 < scale := by
  by_contra isZero
  have less := trial.divisor_lt
  rw [Nat.eq_zero_of_not_pos isZero, mul_zero] at less
  omega

theorem divisor_pos : 0 < divisor := by
  have base_pos := Nat.zero_lt_of_lt trial.second
  have headPositive : 0 < (v1 * base + v2) * scale :=
    Nat.mul_pos (Nat.add_pos_left (Nat.mul_pos trial.first base_pos) v2) trial.scale_pos
  exact headPositive.trans_le trial.divisor_ge

theorem heads_lt : (u0 * base + u1) * base + u2 < base * (v1 * base + v2 + 1) := by
  have scaled : ((u0 * base + u1) * base + u2) * scale < base * (v1 * base + v2 + 1) * scale := by
    calc
      ((u0 * base + u1) * base + u2) * scale ≤ dividend := trial.dividend_ge
      _ < base * divisor := trial.quotient_lt
      _ ≤ base * ((v1 * base + v2 + 1) * scale) := mul_le_mul_left base trial.divisor_lt.le
      _ = base * (v1 * base + v2 + 1) * scale := (mul_assoc _ _ _).symm
  exact lt_of_mul_lt_mul_right scaled (zero_le scale)

/-- The two digits that are divided are not above `v1` by more than a digit. -/
theorem head_lt : u0 * base + u1 < (v1 + 1) * base := by
  have less := trial.heads_lt
  have second := trial.second
  have bound : base * (v1 * base + v2 + 1) ≤ (v1 + 1) * base * base := by
    calc
      base * (v1 * base + v2 + 1) ≤ base * (v1 * base + base) := mul_le_mul_left base (by omega)
      _ = (v1 + 1) * base * base := by
        ring
  have scaled : (u0 * base + u1) * base < (v1 + 1) * base * base := by omega
  exact lt_of_mul_lt_mul_right scaled (zero_le base)

theorem quotient_lt_base :
    dividend / divisor < base := (div_lt_iff_lt_mul trial.divisor_pos).mpr trial.quotient_lt

theorem le_first : dividend / divisor ≤ (u0 * base + u1) / v1 := by
  rw [Nat.le_div_iff_mul_le trial.first]
  have digit2 := trial.digit2
  have scaled : dividend / divisor * v1 * (base * scale) <
      (u0 * base + u1 + 1) * (base * scale) := by
    calc
      dividend / divisor * v1 * (base * scale) = dividend / divisor * (v1 * base * scale) := by
        ring
      _ ≤ dividend / divisor * divisor := by
        apply Nat.mul_le_mul_left
        exact le_trans (Nat.mul_le_mul_right scale (by omega)) trial.divisor_ge
      _ ≤ dividend := Nat.div_mul_le_self dividend divisor
      _ < ((u0 * base + u1) * base + u2 + 1) * scale := trial.dividend_lt
      _ ≤ ((u0 * base + u1) * base + base) * scale := Nat.mul_le_mul_right scale (by omega)
      _ = (u0 * base + u1 + 1) * (base * scale) := by
        ring
  have less := lt_of_mul_lt_mul_right scaled (Nat.zero_le _)
  omega

end

theorem guess_eq (v2 : ℕ) (rest : q * v1 + r = u0 * base + u1) :
    q * (v1 * base + v2) + r * base = (u0 * base + u1) * base + q * v2 := by
  rw [← rest]
  ring

theorem lt_of_rejected (trial : Trial base scale u0 u1 u2 v1 v2 dividend divisor)
    (rest : q * v1 + r = u0 * base + u1) (rejected : q * v2 > r * base + u2) :
    dividend / divisor < q := by
  rw [div_lt_iff_lt_mul trial.divisor_pos]
  have guess := guess_eq v2 rest
  calc
    dividend < ((u0 * base + u1) * base + u2 + 1) * scale := trial.dividend_lt
    _ ≤ q * (v1 * base + v2) * scale := mul_le_mul_right scale (by omega)
    _ = q * ((v1 * base + v2) * scale) := mul_assoc _ _ _
    _ ≤ q * divisor := mul_le_mul_left q trial.divisor_ge

variable (rest : q * v1 + r = u0 * base + u1)

include rest in
/-- A guess that the correction accepts takes no more than the three digits. -/
theorem accepted_le (accepted : q * v2 ≤ r * base + u2) :
    q * (v1 * base + v2) ≤ (u0 * base + u1) * base + u2 := by
  have guess := guess_eq v2 rest
  omega

section

variable (trial : Trial base scale u0 u1 u2 v1 v2 dividend divisor)
include trial

include rest in
theorem le_succ_of_accepted (accepted : q * v2 ≤ r * base + u2) (isDigit : q < base) :
    q ≤ dividend / divisor + 1 := by
  have guess := accepted_le rest accepted
  have lowerPart : q * scale ≤ divisor := by
    calc
      q * scale ≤ (v1 * base + v2) * scale := by
        apply Nat.mul_le_mul_right
        have atLeast : 1 * base ≤ v1 * base := Nat.mul_le_mul_right base trial.first
        omega
      _ ≤ divisor := trial.divisor_ge
  have product : q * divisor ≤ dividend + divisor := by
    calc
      q * divisor ≤ q * ((v1 * base + v2 + 1) * scale) := Nat.mul_le_mul_left q trial.divisor_lt.le
      _ = q * (v1 * base + v2) * scale + q * scale := by
        ring
      _ ≤ ((u0 * base + u1) * base + u2) * scale + q * scale :=
        Nat.add_le_add_right (Nat.mul_le_mul_right scale guess) _
      _ ≤ dividend + divisor := Nat.add_le_add trial.dividend_ge lowerPart
  rw [← Nat.add_div_right dividend trial.divisor_pos, Nat.le_div_iff_mul_le trial.divisor_pos]
  exact product

include rest in
/-- A guess that the correction accepts is not above the base, and so a digit
unless it is the base. -/
theorem le_base_of_accepted (accepted : q * v2 ≤ r * base + u2) : q ≤ base := by
  have guess := accepted_le rest accepted
  have heads := trial.heads_lt
  have first : 1 * base ≤ v1 * base := Nat.mul_le_mul_right base trial.first
  have product : q * (v1 * base + v2) < (base + 1) * (v1 * base + v2) := by
    rw [Nat.mul_add_one base (v1 * base + v2)] at heads
    rw [add_mul]
    omega
  exact Nat.lt_succ_iff.mp (lt_of_mul_lt_mul_right product (Nat.zero_le _))

include rest in
theorem lt_base_of_rest (large : base ≤ r) : q < base := by
  have head := trial.head_lt
  have product : q * v1 < base * v1 := by
    rw [add_mul, mul_comm v1 base] at head
    omega
  exact lt_of_mul_lt_mul_right product (zero_le v1)

/-- The first guess is above the base by one at most when the highest digit of
the divisor is at least half the base. -/
theorem first_le (normalized : base ≤ 2 * v1) : (u0 * base + u1) / v1 ≤ base + 1 := by
  have head := trial.head_lt
  rw [← Nat.lt_succ_iff, Nat.div_lt_iff_lt_mul trial.first, Nat.succ_eq_add_one]
  calc
    u0 * base + u1 < (v1 + 1) * base := head
    _ = base * v1 + base := by
      ring
    _ ≤ base * v1 + 2 * v1 := Nat.add_le_add_left normalized _
    _ = (base + 1 + 1) * v1 := by
      ring

end

end Trial

/-- The factor that makes the highest digit of a divisor at least half an even
base. -/
theorem normalized_digit (half : ℕ) {v : ℕ} (positive : 0 < v) (isDigit : v < 2 * half) :
    2 * half ≤ 2 * (2 * half / (v + 1) * v) := by
  generalize isFactor : 2 * half / (v + 1) = factor
  have lower : 2 * half < (factor + 1) * (v + 1) := by
    rw [← isFactor, ← Nat.div_lt_iff_lt_mul (Nat.succ_pos v)]
    exact lt_add_one _
  have factorPositive : 1 ≤ factor := by
    rw [← isFactor, Nat.one_le_div_iff (Nat.succ_pos v)]
    omega
  apply Nat.mul_le_mul_left
  by_cases large : half ≤ v
  · calc
      half ≤ 1 * v := by omega
      _ ≤ factor * v := Nat.mul_le_mul_right v factorPositive
  · by_contra small
    nlinarith

end Skyc.Lib
