import Mathlib

/-!
# Numbers in a positional system

The digits of a number are the values of a function on indices, as in an array
of words.  A segment is the number that `n` digits from an index on denote, the
lowest digit first.
-/

namespace Skyc.Lib

open Nat

/-- The number denoted by the digits `start, …, start + n - 1`. -/
def segment (base : ℕ) (digit : ℕ → ℕ) (start : ℕ) : ℕ → ℕ
  | 0 => 0
  | n + 1 => segment base digit start n + digit (start + n) * base ^ n

variable {base : ℕ} {digit other : ℕ → ℕ} {start n : ℕ}

@[simp]
theorem segment_zero : segment base digit start 0 = 0 := rfl

theorem segment_succ :
    segment base digit start (n + 1) = segment base digit start n + digit (start + n) * base ^ n :=
  rfl

theorem segment_congr (same : ∀ i, start ≤ i → i < start + n → digit i = other i) :
    segment base digit start n = segment base other start n := by
  induction n with
  | zero => rfl
  | succ n ih =>
    have lower := ih fun i from_ below =>
      same i from_ (by omega)
    rw [segment_succ, segment_succ, lower, same (start + n) (by omega) (by omega)]

theorem segment_update {i : ℕ} (value : ℕ) (outside : i < start ∨ start + n ≤ i) :
    segment base (Function.update digit i value) start n = segment base digit start n := by
  apply segment_congr
  intro j from_ below
  rw [Function.update_of_ne (by omega)]

theorem segment_add (m : ℕ) :
    segment base digit start (m + n) = segment base digit start m +
      base ^ m * segment base digit (start + m) n := by
  induction n with
  | zero => simp
  | succ n ih =>
    rw [← add_assoc, segment_succ, segment_succ, ih, add_assoc start m n, pow_add]
    ring

theorem segment_succ_front :
    segment base digit start (n + 1) = digit start + base * segment base digit (start + 1) n := by
  rw [add_comm n 1, segment_add, segment_succ]
  simp

theorem segment_eq_zero (zeros : ∀ i, start ≤ i → i < start + n → digit i = 0) :
    segment base digit start n = 0 := by
  induction n with
  | zero => rfl
  | succ n ih =>
    rw [segment_succ, ih fun i from_ below =>
      zeros i from_ (by omega), zeros (start + n) (by omega) (by omega)]
    simp

theorem segment_add_of_zeros (more : ℕ)
    (zeros : ∀ i, start + n ≤ i → i < start + n + more → digit i = 0) :
    segment base digit start (n + more) = segment base digit start n := by
  rw [segment_add, segment_eq_zero zeros, mul_zero, add_zero]

theorem segment_of_le {m : ℕ} (le : n ≤ m)
    (zeros : ∀ i, start + n ≤ i → i < start + m → digit i = 0) :
    segment base digit start m = segment base digit start n := by
  obtain ⟨more, rfl⟩ := Nat.exists_eq_add_of_le le
  exact segment_add_of_zeros more fun i from_ below => zeros i from_ (by omega)

theorem segment_lt (digits : ∀ i, start ≤ i → i < start + n → digit i < base) :
    segment base digit start n < base ^ n := by
  induction n with
  | zero => simp
  | succ n ih =>
    have lower := ih fun i from_ below =>
      digits i from_ (by omega)
    have highest := digits (start + n) (by omega) (by omega)
    have bound : (digit (start + n) + 1) * base ^ n ≤ base * base ^ n :=
      mul_le_mul_right (base ^ n) highest
    rw [segment_succ, pow_succ]
    linarith

theorem le_segment (positive : digit (start + n) ≠ 0) :
    base ^ n ≤ segment base digit start (n + 1) := by
  rw [segment_succ]
  have one : 1 * base ^ n ≤ digit (start + n) * base ^ n :=
    mul_le_mul_right _ (pos_of_ne_zero positive)
  omega

section

variable (digits : ∀ i, start ≤ i → i < start + n → digit i < base)
include digits

theorem segment_lt_segment (less : digit (start + n) < other (start + n)) :
    segment base digit start (n + 1) < segment base other start (n + 1) := by
  have lower := segment_lt digits
  have bound : (digit (start + n) + 1) * base ^ n ≤ other (start + n) * base ^ n :=
    mul_le_mul_right _ less
  rw [segment_succ, segment_succ]
  linarith [zero_le (segment base other start n)]

theorem ne_zero_of_le_segment (large : base ^ n ≤ segment base digit start (n + 1)) :
    digit (start + n) ≠ 0 := by
  intro isZero
  have lower := segment_lt digits
  rw [segment_succ, isZero, zero_mul, add_zero] at large
  omega

theorem segment_digit {k : ℕ} (below : k < n) :
    segment base digit start n / base ^ k % base = digit (start + k) := by
  obtain ⟨above, rfl⟩ := Nat.exists_eq_add_of_lt below
  have highest := digits (start + k) (by omega) (by omega)
  have lower : segment base digit start k < base ^ k :=
    segment_lt fun i from_ inside => digits i from_ (by omega)
  rw [add_assoc, segment_add, segment_succ_front, Nat.add_mul_div_left _ _ (Nat.pow_pos (by omega)),
    Nat.div_eq_of_lt lower, zero_add, Nat.add_mul_mod_self_left, Nat.mod_eq_of_lt highest]

end

/-! ## Carries -/

/-- A loop with a carry goes from the lowest digit to the other ones. -/
theorem carry_step {v x carry next high total last : ℕ} (first : v + base * next = x + carry)
    (others : high + base ^ n * last = total + next) :
    v + base * high + base ^ (n + 1) * last = x + base * total + carry := by
  have scaled : base * (high + base ^ n * last) = base * (total + next) :=
    congrArg (base * ·) others
  rw [pow_succ]
  linarith

end Skyc.Lib
