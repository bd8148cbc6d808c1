import Skyc.Lib.LongDivision
import Skyc.Melon.Bignum.Product

/-!
# Quotients and remainders

`mln_bignum_div` divides by one word, or by the long division with a trial
digit, which is the digit of the quotient or one more, as the borrow of the
subtraction tells.
-/

namespace Skyc.Melon.Bignum

open Skyc.Lib Function Nat

variable {a b : Bignum}

/-! ## Division by one word -/

variable {divisor rem : ℕ}

theorem div_lt_umax {digit : ℕ} (isRem : rem < divisor) (isDigit : digit < umax) :
    (rem * umax + digit) / divisor < umax := by
  rw [div_lt_iff_lt_mul (by omega)]
  have bound : (rem + 1) * umax ≤ divisor * umax := mul_le_mul_right umax isRem
  rw [add_mul, one_mul] at bound
  rw [mul_comm umax divisor]
  omega

theorem rem_mul_add_lt {digit : ℕ} (isDivisor : divisor ≤ umax)
    (isRem : rem < divisor) (isDigit : digit < umax) : rem * umax + digit < 2 ^ 64 := by
  have bound : (rem + 1) * umax ≤ umax * umax := mul_le_mul_right umax (by omega)
  rw [add_mul, one_mul, umax_mul_umax] at bound
  omega

theorem rem_mul_lt (isDivisor : divisor ≤ umax) (isRem : rem < divisor) : rem * umax < 2 ^ 64 := by
  have small : rem * umax + 0 < 2 ^ 64 := rem_mul_add_lt isDivisor isRem (Nat.two_pow_pos 32)
  rwa [add_zero] at small

structure Divided (a : Words) (divisor n rem : ℕ) (old result : Words) : Prop where
  digits : ∀ i, result i < umax
  outside : ∀ i, n ≤ i → result i = old i
  value : segment umax result 0 n = (rem * umax ^ n + segment umax a 0 n) / divisor

theorem rem_append (a : Words) (n rem : ℕ) :
    rem * umax ^ (n + 1) + segment umax a 0 (n + 1) =
      (rem * umax + a n) * umax ^ n + segment umax a 0 n := by
  rw [segment_succ, zero_add, pow_succ]
  ring

variable {n : ℕ}

/-- One word of a division by a word: what the lower words make of the
remainder and what the loop below adds. -/
theorem Divided.step {a old result : Words} (positive : 0 < divisor)
    (divided : Divided a divisor n ((rem * umax + a n) % divisor)
      (update old n ((rem * umax + a n) / divisor)) result) :
    Divided a divisor (n + 1) rem old result where
  __ := divided
  outside := by
    intro i above
    rw [divided.outside i (by omega), update_of_ne (by omega)]
  value := by
    have here : result n = (rem * umax + a n) / divisor := by
      rw [divided.outside n (le_refl n), update_self]
    rw [rem_append, div_mul_add_mod_mul, add_mul_div_left _ _ positive, segment_succ, zero_add,
      here, divided.value]

theorem divWordLoop_spec (quotient : Words)
    (isDivisor : divisor ≤ umax) {dest : Words} (isRem : rem < divisor)
    (destDigits : ∀ i, dest i < umax) (digits : ∀ i, quotient i < umax) :
    ∃ result, divWordLoop divisor n (rem * umax) dest quotient =
        (fun i => if i < n then 0 else dest i, result,
          (rem * umax ^ n + segment umax dest 0 n) % divisor * umax) ∧
      Divided dest divisor n rem quotient result := by
  induction n generalizing rem dest quotient with
  | zero =>
    refine ⟨quotient, ?_, digits, fun _ _ => rfl, ?_⟩
    · simp [divWordLoop, mod_eq_of_lt isRem]
    · simp [div_eq_of_lt isRem]
  | succ n ih =>
    have positive : 0 < divisor := by omega
    have isNext : (rem * umax + dest n) % divisor < divisor := mod_lt _ positive
    have same : segment umax (update dest n 0) 0 n =
      segment umax dest 0 n := segment_update 0 (by omega)
    obtain ⟨result, equation, divided⟩ := @ih ((rem * umax + dest n) % divisor)
      (update quotient n ((rem * umax + dest n) / divisor)) (update dest n 0) isNext
      (update_digit (by decide) destDigits) (update_digit (div_lt_umax isRem (destDigits n)) digits)
    refine ⟨result, ?_, Divided.step positive ⟨divided.digits,
      divided.outside, by rw [divided.value, same]⟩⟩
    have nextSmall : (rem * umax + dest n) % divisor * umax < 2 ^ 64 := rem_mul_lt isDivisor isNext
    rw [divWordLoop, u64_eq (rem_mul_add_lt isDivisor isRem (destDigits n))]
    rw [u64_eq nextSmall, equation, same, rem_append, ← shortDivision_mod]
    congr 1
    funext i
    by_cases last : i = n
    · simp [last]
    · rw [update_of_ne last]
      exact if_congr (by omega) rfl rfl

theorem ndivLoop_spec {a : Words} (isDivisor : divisor ≤ umax)
    (aDigits : ∀ i, a i < umax) {len : ℕ} {r : Words}
    (isRem : rem < divisor) (digits : ∀ i, r i < umax) :
    Divided a divisor n rem r (ndivLoop a divisor n (rem * umax) len r).1 ∧
      (ndivLoop a divisor n (rem * umax) len r).2 =
        if len = 0 then trim (ndivLoop a divisor n (rem * umax) len r).1 n
        else len := by
  induction n generalizing rem len r with
  | zero =>
    refine ⟨⟨digits, fun _ _ => rfl, ?_⟩, ?_⟩
    · simp [div_eq_of_lt isRem]
    · rw [ndivLoop, trim]
      split
      · assumption
      · rfl
  | succ n ih =>
    have positive : 0 < divisor := by omega
    have isNext : (rem * umax + a n) % divisor < divisor := mod_lt _ positive
    have nextSmall : (rem * umax + a n) % divisor * umax < 2 ^ 64 := rem_mul_lt isDivisor isNext
    rw [ndivLoop, u64_eq (rem_mul_add_lt isDivisor isRem (aDigits n))]
    rw [u64_eq nextSmall, update_self]
    generalize isLen : (if len = 0 ∧ (rem * umax + a n) / divisor ≠ 0 then
      n + 1 else len) = len'
    have rest := @ih ((rem * umax + a n) % divisor) len'
      (update r n ((rem * umax + a n) / divisor)) isNext
      (update_digit (div_lt_umax isRem (aDigits n)) digits)
    generalize ndivLoop a divisor n ((rem * umax + a n) % divisor * umax)
      len' (update r n ((rem * umax + a n) / divisor)) = result at rest ⊢
    obtain ⟨divided, length⟩ := rest
    have here : result.1 n = (rem * umax + a n) / divisor := by
      rw [divided.outside n (le_refl n), update_self]
    refine ⟨divided.step positive, ?_⟩
    rw [length, trim, here, ← isLen]
    by_cases noLength : len = 0
    · by_cases isZero : (rem * umax + a n) / divisor = 0
      · simp [noLength, isZero]
      · simp [noLength, isZero]
    · simp [noLength]

variable {data : Words}

theorem trim_congr {other : Words} (same : ∀ i, i < n → data i = other i) :
    trim data n = trim other n := by
  induction n with
  | zero => rfl
  | succ n ih => rw [trim, trim, same n (lt_succ_self n), ih fun i below => same i (by omega)]

theorem copyWords_spec {a : Words} (digits : ∀ i, a i < umax) :
    (∀ i, copyWords a (fun _ => 0) n i < umax) ∧ (∀ i, n ≤ i → copyWords a (fun _ => 0) n i = 0) ∧
      (∀ i, i < n → copyWords a (fun _ => 0) n i = a i) := by
  refine ⟨fun i => ?_, fun i above => if_neg (by omega), fun i below => if_pos below⟩
  rw [copyWords]
  split
  · exact digits i
  · exact Nat.two_pow_pos 32

theorem ndiv_spec {a : Words} (isDigit : divisor < umax)
    (positive : 0 < divisor) (aDigits : ∀ i, a i < umax) :
    Divided a divisor n 0 (fun _ => 0) (ndiv a divisor (fun _ => 0) n).1 ∧
      (ndiv a divisor (fun _ => 0) n).2 = trim (ndiv a divisor (fun _ => 0) n).1 n := by
  rw [ndiv, Nat.mod_eq_of_lt isDigit]
  rw [if_neg (by omega)]
  by_cases isOne : divisor = 1
  · obtain ⟨digits, above, below⟩ := copyWords_spec (n := n) aDigits
    rw [if_pos isOne]
    refine ⟨⟨digits, above, ?_⟩, trim_congr fun i inside =>
      (below i inside).symm⟩
    rw [isOne, Nat.div_one, zero_mul, zero_add]
    exact segment_congr fun i _ inside => below i (by omega)
  · rw [if_neg isOne]
    have divided := @ndivLoop_spec divisor 0 n a isDigit.le aDigits 0
      (fun _ => 0) positive fun _ => Nat.two_pow_pos 32
    rw [zero_mul] at divided
    exact divided

/-! ## Products by a digit into an array of zeros -/

theorem nmulCarry_spec {r : Words} {i carry : ℕ} (fits : carry < umax ^ n)
    (digits : ∀ j, r j < umax) :
    (∀ j, nmulCarry n i carry r j < umax) ∧
      (∀ j, j < i ∨ i + n ≤ j → nmulCarry n i carry r j = r j) ∧
      segment umax (nmulCarry n i carry r) i n = carry := by
  induction n generalizing i carry r with
  | zero =>
    refine ⟨digits, fun _ _ => rfl, ?_⟩
    rw [pow_zero] at fits
    rw [segment_zero]
    omega
  | succ n ih =>
    have lower : carry / umax < umax ^ n := by
      rw [div_lt_iff_lt_mul (by decide), ← pow_succ]
      exact fits
    have isDigit : carry % umax < umax := mod_lt _ (by decide)
    obtain ⟨restDigits, outside, value⟩ := @ih
      (update r i (carry % umax)) (i + 1) (carry / umax) lower (update_digit isDigit digits)
    rw [nmulCarry]
    refine ⟨restDigits, ?_, ?_⟩
    · intro j out
      rw [outside j (by omega), update_of_ne (by omega)]
    · rw [segment_succ_front, value, outside i (by omega), update_self]
      exact mod_add_div carry umax

/-- What `__mln_bignum_nmul` leaves in an array of zeros. -/
structure Scaled (value n : ℕ) (result : Words) : Prop where
  digits : ∀ i, result i < umax
  above : ∀ i, n ≤ i → result i = 0
  value : segment umax result 0 n = value

theorem nmul_spec {a : Words} {factor m : ℕ} (isFactor : factor < umax)
    (le : m ≤ n) (digits : ∀ i, a i < umax) (zeros : ∀ i, m ≤ i → i < n → a i = 0)
    (fits : segment umax a 0 m * factor < umax ^ n) :
    Scaled (segment umax a 0 m * factor) n (nmul a factor (fun _ => 0) n m) := by
  rw [nmul, Nat.mod_eq_of_lt isFactor]
  simp only
  by_cases isZero : factor = 0
  · rw [if_pos isZero, isZero, mul_zero]
    have allZero : copyWords (fun _ => 0) (fun _ => 0) n = fun _ => 0 := by
      funext i
      rw [copyWords, ite_self]
    rw [allZero]
    exact ⟨fun _ => Nat.two_pow_pos 32, fun _ _ => rfl, segment_eq_zero fun _ _ _ => rfl⟩
  · rw [if_neg isZero]
    by_cases isOne : factor = 1
    · obtain ⟨copyDigits, above, below⟩ := copyWords_spec (n := n) digits
      rw [if_pos isOne, isOne, mul_one]
      refine ⟨copyDigits, above, ?_⟩
      rw [← segment_of_le le fun i from_ inside =>
        zeros i (by omega) (by omega)]
      exact segment_congr fun i _ inside => below i (by omega)
    · rw [if_neg isOne]
      have multiplied := nmulLoop_spec (r := fun _ => 0) (n := m) (i := 0)
        isFactor (Nat.two_pow_pos 32) digits
      generalize nmulLoop a factor m 0 0 (fun _ => 0) = result at multiplied ⊢
      obtain ⟨words, carry⟩ := result
      obtain ⟨more, rfl⟩ := Nat.exists_eq_add_of_le le
      obtain ⟨isCarry, digitsBelow, outside, value⟩ := multiplied
      simp only at isCarry digitsBelow outside value ⊢
      rw [add_zero] at value
      have carryFits : carry < umax ^ more := by
        have scaled : umax ^ m * carry < umax ^ m * umax ^ more := by
          rw [← pow_add]
          omega
        exact lt_of_mul_lt_mul_left scaled (Nat.zero_le _)
      have wordDigits : ∀ j, words j < umax := by
        intro j
        by_cases below : j < m
        · exact digitsBelow j (Nat.zero_le j) (by omega)
        · rw [outside j (by omega)]
          exact Nat.two_pow_pos 32
      rw [Nat.add_sub_cancel_left]
      obtain ⟨restDigits, restOutside, restValue⟩ := nmulCarry_spec (i := m) carryFits wordDigits
      refine ⟨restDigits, ?_, ?_⟩
      · intro i above
        rw [restOutside i (by omega), outside i (by omega)]
      · rw [segment_add, zero_add, restValue, ← value]
        congr 1
        exact segment_congr fun i _ below => restOutside i (by omega)

/-! ## Sums and differences of a window of words -/

/-- A loop over the `n` words from word `k` on that passes a carry or a borrow
on. -/
structure Window (n k : ℕ) (old : Words) (result : Words × ℕ) : Prop where
  isCarry : result.2 ≤ 1
  digits : ∀ j, result.1 j < umax
  outside : ∀ j, j < k ∨ k + n ≤ j → result.1 j = old j

theorem Window.step {k value : ℕ} {old : Words} {result : Words × ℕ}
    (window : Window n (k + 1) (update old k value) result) :
    Window (n + 1) k old result ∧ result.1 k = value := by
  refine ⟨⟨window.isCarry, window.digits, ?_⟩, ?_⟩
  · intro j outside
    rw [window.outside j (by omega), update_of_ne (by omega)]
  · rw [window.outside k (by omega), update_self]

section

variable {b a : Words} {c : ℕ} (isCarry : c ≤ 1) (aDigits : ∀ j, a j < umax)
  (bDigits : ∀ j, b j < umax)

include isCarry aDigits bDigits

theorem nsbb_step (n k i : ℕ) :
    ∃ value next, next ≤ 1 ∧ value < umax ∧ a k + umax * next = value + b i + c ∧
      nsbb b (n + 1) k i c a = nsbb b n (k + 1) (i + 1) next (update a k value) := by
  have base : umax = 2 ^ 32 := rfl
  have aDigit := aDigits k
  have bDigit := bDigits i
  rw [nsbb, u64_eq (by omega)]
  by_cases underflow : a k < b i + c
  · refine ⟨a k + umax - b i - c, 1, le_refl 1, by omega, by omega, ?_⟩
    rw [if_pos underflow, u64_eq (by omega), sub64_eq (x := a k + umax) (by omega) (by omega),
      sub64_eq (by omega) (by omega)]
  · refine ⟨a k - b i - c, 0, by omega, by omega, by omega, ?_⟩
    rw [if_neg underflow, sub64_eq (x := a k) (by omega) (by omega), sub64_eq (by omega) (by omega)]

theorem nsbb_spec {k i : ℕ} :
    Window n k a (nsbb b n k i c a) ∧ segment umax a k n + umax ^ n * (nsbb b n k i c a).2 =
      segment umax (nsbb b n k i c a).1 k n + segment umax b i n + c := by
  induction n generalizing k i c a with
  | zero => exact ⟨⟨isCarry, aDigits, fun _ _ => rfl⟩, by simp [nsbb]⟩
  | succ n ih =>
    obtain ⟨value, next, isNext, isDigit, difference, step⟩ :=
      nsbb_step isCarry aDigits bDigits n k i
    obtain ⟨window, others⟩ := @ih
      (update a k value) next isNext (update_digit isDigit aDigits) (k + 1) (i + 1)
    rw [step]
    generalize nsbb b n (k + 1) (i + 1) next (update a k value) = result at window others ⊢
    obtain ⟨whole, here⟩ := window.step
    refine ⟨whole, ?_⟩
    rw [segment_update value (by omega)] at others
    have total := carry_step difference others
    rw [segment_succ_front, segment_succ_front, segment_succ_front, here]
    linarith

theorem nadc_step (n k i : ℕ) :
    ∃ value next, next ≤ 1 ∧ value < umax ∧ value + umax * next = a k + b i + c ∧
      nadc b (n + 1) k i c a = nadc b n (k + 1) (i + 1) next (update a k value) := by
  have base : umax = 2 ^ 32 := rfl
  have aDigit := aDigits k
  have bDigit := bDigits i
  rw [nadc, u64_eq (by omega)]
  by_cases overflow : umax ≤ a k + b i + c
  · refine ⟨a k + b i + c - umax, 1, le_refl 1, by omega, by omega, ?_⟩
    rw [if_pos overflow, sub64_eq overflow (by omega)]
  · exact ⟨a k + b i + c, 0, by omega, by omega, by omega, if_neg overflow⟩

theorem nadc_spec {k i : ℕ} :
    Window n k a (nadc b n k i c a) ∧
      segment umax (nadc b n k i c a).1 k n + umax ^ n * (nadc b n k i c a).2 =
        segment umax a k n + segment umax b i n + c := by
  induction n generalizing k i c a with
  | zero => exact ⟨⟨isCarry, aDigits, fun _ _ => rfl⟩, by simp [nadc]⟩
  | succ n ih =>
    obtain ⟨value, next, isNext, isDigit, sum, step⟩ := nadc_step isCarry aDigits bDigits n k i
    obtain ⟨window, others⟩ := @ih
      (update a k value) next isNext (update_digit isDigit aDigits) (k + 1) (i + 1)
    rw [step]
    generalize nadc b n (k + 1) (i + 1) next (update a k value) = result at window others ⊢
    obtain ⟨whole, here⟩ := window.step
    refine ⟨whole, ?_⟩
    rw [segment_update value (by omega)] at others
    have total := carry_step sum others
    rw [segment_succ_front, segment_succ_front, segment_succ_front, here]
    linarith

end

/-! ## The trial digit -/

/-- The loop that corrects the trial digit ends with the digit of the quotient
or with one more. -/
theorem trialDigit_spec {scale u0 u1 u2 v1 v2 dividend q r : ℕ}
    (trial : Trial umax scale u0 u1 u2 v1 v2 dividend divisor)
    (high : v1 < umax) (rest : q * v1 + r = u0 * umax + u1)
    (isRest : r < umax) (notSmall : dividend / divisor ≤ q) (notLarge : q ≤ umax + 1) :
    dividend / divisor ≤ trialDigit v1 v2 u2 q r ∧
      trialDigit v1 v2 u2 q r ≤ dividend / divisor + 1 ∧ trialDigit v1 v2 u2 q r < umax := by
  have base : umax = 2 ^ 32 := rfl
  induction q generalizing r with
  | zero => exact ⟨notSmall, Nat.zero_le _, Nat.two_pow_pos 32⟩
  | succ q ih =>
    have second := trial.second
    have third := trial.digit2
    have product : (q + 1) * v2 < 2 ^ 64 := by
      calc
        (q + 1) * v2 ≤ (umax + 1) * (umax - 1) := Nat.mul_le_mul notLarge (by omega)
        _ < 2 ^ 64 := by
          decide
    have shifted : r * umax + u2 < 2 ^ 64 := rem_mul_add_lt (le_refl umax) isRest third
    rw [trialDigit, u64_eq product, u64_eq (x := r * umax) (by omega), u64_eq shifted]
    simp only
    by_cases rejected : q + 1 = umax ∨ (q + 1) * v2 > r * umax + u2
    · have tooLarge : dividend / divisor ≤ q := by
        rcases rejected with isBase | above
        · have less := trial.quotient_lt_base
          omega
        · have less := trial.lt_of_rejected rest above
          omega
      have nextRest : q * v1 + (r + v1) = u0 * umax + u1 := by
        rw [← rest]
        ring
      rw [if_pos rejected, u64_eq (by omega)]
      by_cases stops : umax ≤ r + v1
      · rw [if_pos stops]
        have isDigit := trial.lt_base_of_rest nextRest stops
        -- the rest alone exceeds any product of two digits
        have accepted : q * v2 ≤ (r + v1) * umax + u2 := by
          calc
            q * v2 ≤ umax * umax := Nat.mul_le_mul isDigit.le second.le
            _ ≤ (r + v1) * umax := Nat.mul_le_mul_right umax stops
            _ ≤ (r + v1) * umax + u2 := Nat.le_add_right _ _
        exact ⟨tooLarge, trial.le_succ_of_accepted nextRest accepted isDigit, isDigit⟩
      · rw [if_neg stops]
        exact ih nextRest (by omega) tooLarge (by omega)
    · rw [if_neg rejected]
      have notBase : q + 1 ≠ umax := fun isBase => rejected (.inl isBase)
      have accepted : (q + 1) * v2 ≤ r * umax + u2 := by
        by_contra above
        exact rejected (.inr (by omega))
      have atMost := trial.le_base_of_accepted rest accepted
      have isDigit : q + 1 < umax := by omega
      exact ⟨notSmall, trial.le_succ_of_accepted rest accepted isDigit, isDigit⟩

/-! ## Long division -/

/-- A scaled divisor: `slen` words, at least two, of which the highest is at
least half the base. -/
structure Divisor (ps : Words) (slen : ℕ) : Prop where
  digits : ∀ i, ps i < umax
  above : ∀ i, slen ≤ i → ps i = 0
  two : 2 ≤ slen
  normalized : umax ≤ 2 * ps (slen - 1)

namespace Divisor

variable {ps pd : Words} {slen j : ℕ}

theorem segment_lt_pow (divisor : Divisor ps slen) :
    segment umax ps 0 slen < umax ^ slen := segment_lt fun i _ _ => divisor.digits i

theorem segment_succ_eq (divisor : Divisor ps slen) :
    segment umax ps 0 (slen + 1) = segment umax ps 0 slen :=
  segment_add_of_zeros 1 fun i from_ _ => divisor.above i (by omega)

theorem trial (divisor : Divisor ps slen) (digits : ∀ i, pd i < umax)
    (less : segment umax pd j (slen + 1) < umax * segment umax ps 0 slen) :
    Trial umax (umax ^ (slen - 2)) (pd (j + slen)) (pd (j + slen - 1))
      (pd (j + slen - 2)) (ps (slen - 1)) (ps (slen - 2))
      (segment umax pd j (slen + 1)) (segment umax ps 0 slen) := by
  have base : umax = 2 ^ 32 := rfl
  have normalized := divisor.normalized
  obtain ⟨lower, rfl⟩ := Nat.exists_eq_add_of_le' divisor.two
  have dividendLower : segment umax pd j lower < umax ^ lower := segment_lt fun i _ _ => digits i
  have divisorLower : segment umax ps 0 lower < umax ^ lower :=
    segment_lt fun i _ _ => divisor.digits i
  have dividendValue : segment umax pd j (lower + 2 + 1) =
      ((pd (j + (lower + 2)) * umax + pd (j + (lower + 1))) * umax +
        pd (j + lower)) * umax ^ lower + segment umax pd j lower := by
    rw [segment_succ, segment_succ, segment_succ]
    ring
  have divisorValue : segment umax ps 0 (lower + 2) =
      (ps (lower + 1) * umax + ps lower) * umax ^ lower + segment umax ps 0 lower := by
    rw [segment_succ, segment_succ, zero_add, zero_add]
    ring
  change umax ≤ 2 * ps (lower + 1) at normalized
  change Trial umax (umax ^ lower) (pd (j + (lower + 2)))
    (pd (j + (lower + 1))) (pd (j + lower)) (ps (lower + 1)) (ps lower) _ _
  refine ⟨digits _, digits _, divisor.digits _, by omega, ?_, ?_, ?_, ?_, less⟩
  · rw [dividendValue]
    exact Nat.le_add_right _ _
  · rw [dividendValue, add_mul _ 1, one_mul]
    exact Nat.add_lt_add_left dividendLower _
  · rw [divisorValue]
    exact Nat.le_add_right _ _
  · rw [divisorValue, add_mul _ 1, one_mul]
    exact Nat.add_lt_add_left divisorLower _

/-- A trial digit that is right leaves the remainder without a borrow, one that
is too large by one leaves a borrow. -/
theorem borrow_cases {bound dividend divisor q rest borrow : ℕ} (positive : 0 < divisor)
    (value : dividend + bound * borrow = rest + divisor * q)
    (isRest : rest < bound) (isBorrow : borrow ≤ 1)
    (notSmall : dividend / divisor ≤ q) (notLarge : q ≤ dividend / divisor + 1) :
    borrow = 0 ∧ q = dividend / divisor ∧ rest = dividend % divisor ∨
      borrow = 1 ∧ q = dividend / divisor + 1 ∧ rest + divisor = bound + dividend % divisor := by
  have division := div_add_mod dividend divisor
  have remainder := mod_lt dividend positive
  have borrows : borrow = 0 ∨ borrow = 1 := by omega
  rcases eq_or_lt_of_le notSmall with right | above
  · rw [← right] at value
    rcases borrows with rfl | rfl
    · exact .inl ⟨rfl, right.symm, by omega⟩
    · omega
  · obtain rfl : q = dividend / divisor + 1 := by omega
    rw [mul_add, mul_one] at value
    rcases borrows with rfl | rfl
    · omega
    · exact .inr ⟨rfl, rfl, by omega⟩

theorem trialQuotient_spec (divisor : Divisor ps slen) (digits : ∀ i, pd i < umax)
    (less : segment umax pd j (slen + 1) < umax * segment umax ps 0 slen) :
    segment umax pd j (slen + 1) / segment umax ps 0 slen ≤ trialQuotient ps slen j pd ∧
      trialQuotient ps slen j pd ≤ segment umax pd j (slen + 1) / segment umax ps 0 slen + 1 ∧
      trialQuotient ps slen j pd < umax := by
  have trial := divisor.trial digits less
  have high := divisor.digits (slen - 1)
  have head : pd (j + slen) * umax + pd (j + slen - 1) < 2 ^ 64 :=
    rem_mul_add_lt (le_refl umax) (digits _) (digits _)
  rw [trialQuotient, u64_eq (rem_mul_lt (le_refl umax) (digits _)), u64_eq head]
  exact trialDigit_spec trial high (div_add_mod' _ _)
    (lt_trans (mod_lt _ trial.first) high) trial.le_first (trial.first_le divisor.normalized)

/-- Steps D4 to D7 correct the digit and leave the remainder of the window. -/
theorem subtractProduct_spec (divisor : Divisor ps slen) {q : ℕ}
    (digits : ∀ i, pd i < umax) (positive : 0 < segment umax ps 0 slen)
    (notSmall : segment umax pd j (slen + 1) / segment umax ps 0 slen ≤ q)
    (notLarge : q ≤ segment umax pd j (slen + 1) / segment umax ps 0 slen + 1)
    (isDigit : q < umax) :
    (subtractProduct ps slen j q pd).2 = segment umax pd j (slen + 1) / segment umax ps 0 slen ∧
      segment umax (subtractProduct ps slen j q pd).1 j (slen + 1) =
        segment umax pd j (slen + 1) % segment umax ps 0 slen ∧
      (∀ i, (subtractProduct ps slen j q pd).1 i < umax) ∧ ∀ i, i < j ∨ j + (slen + 1) ≤ i →
        (subtractProduct ps slen j q pd).1 i = pd i := by
  rw [subtractProduct]
  have divisorLess := divisor.segment_lt_pow
  have productLess : segment umax ps 0 (slen + 1) * q < umax ^ (slen + 1) := by
    rw [divisor.segment_succ_eq, pow_succ]
    exact Nat.mul_lt_mul_of_lt_of_le divisorLess isDigit.le (by omega)
  have scaled := nmul_spec isDigit (le_refl (slen + 1)) divisor.digits
    (fun i from_ below => absurd below (by omega)) productLess
  generalize nmul ps q (fun _ => 0) (slen + 1) (slen + 1) = tmp at scaled ⊢
  obtain ⟨subtracted, difference⟩ :=
    nsbb_spec (n := slen + 1) (k := j) (i := 0) (Nat.zero_le 1) digits scaled.digits
  generalize nsbb tmp (slen + 1) j 0 0 pd = result at subtracted difference ⊢
  obtain ⟨rest, borrow⟩ := result
  obtain ⟨isBorrow, restDigits, outside⟩ := subtracted
  simp only at isBorrow restDigits outside difference ⊢
  rw [scaled.value, divisor.segment_succ_eq, add_zero] at difference
  have restLess : segment umax rest j (slen + 1) < umax ^ (slen + 1) :=
    segment_lt fun i _ _ => restDigits i
  rcases borrow_cases positive difference restLess isBorrow notSmall
    notLarge with ⟨isZero, isQuotient, isRemainder⟩ | ⟨isOne, oneMore, short⟩
  · rw [if_neg (not_not_intro isZero)]
    exact ⟨isQuotient, isRemainder, restDigits, outside⟩
  · -- the digit was too large by one: the divisor is added back
    rw [if_pos (by omega)]
    obtain ⟨added, sum⟩ := nadc_spec (n := slen + 1) (k := j) (i := 0)
      (Nat.zero_le 1) restDigits divisor.digits
    generalize nadc ps (slen + 1) j 0 0 rest = result at added sum ⊢
    obtain ⟨back, carry⟩ := result
    obtain ⟨isCarry, backDigits, backOutside⟩ := added
    simp only at isCarry backDigits backOutside sum ⊢
    rw [divisor.segment_succ_eq, add_zero, short] at sum
    have backLess : segment umax back j (slen + 1) < umax ^ (slen + 1) :=
      segment_lt fun i _ _ => backDigits i
    obtain rfl : carry = 1 := by
      by_contra notOne
      obtain rfl : carry = 0 := by omega
      omega
    refine ⟨?_, by omega, backDigits, ?_⟩
    · have small : q < 2 ^ 64 := isDigit.trans (by decide)
      have positiveDigit : 1 ≤ q := by
        rw [oneMore]
        exact Nat.le_add_left 1 _
      rw [sub64_eq positiveDigit small, oneMore, Nat.add_sub_cancel]
    · intro i out
      rw [backOutside i out, outside i out]

/-- What the loop of the long division leaves of the words below
`n + slen`. -/
structure LongDivided (ps : Words) (slen n : ℕ) (pd quotient : Words)
    (result : Words × Words) : Prop where
  digits : ∀ i, result.1 i < umax
  quotientDigits : ∀ i, result.2 i < umax
  quotientAbove : ∀ i, n ≤ i → result.2 i = quotient i
  remainder_lt : segment umax result.1 0 slen < segment umax ps 0 slen
  value : segment umax pd 0 (n + slen) = segment umax result.2 0 n * segment umax ps 0 slen +
    segment umax result.1 0 slen

theorem remainder_words {rem : ℕ} (value : segment umax pd j (slen + 1) = rem)
    (small : rem < umax ^ slen) : pd (j + slen) = 0 ∧ segment umax pd j slen = rem := by
  have isZero : pd (j + slen) = 0 := by
    by_contra nonzero
    have large : umax ^ slen ≤ segment umax pd j (slen + 1) := le_segment nonzero
    omega
  rw [segment_succ, isZero, zero_mul, add_zero] at value
  exact ⟨isZero, value⟩

theorem divLoop_spec (divisor : Divisor ps slen) (quotient : Words) {n : ℕ}
    (digits : ∀ i, pd i < umax) (quotientDigits : ∀ i, quotient i < umax)
    (less : segment umax pd n slen < segment umax ps 0 slen) :
    LongDivided ps slen n pd quotient (divLoop ps slen n pd quotient) := by
  induction n generalizing pd quotient with
  | zero =>
    refine ⟨digits, quotientDigits, fun _ _ => rfl, less, ?_⟩
    rw [segment_zero, zero_mul, zero_add, zero_add]
    rfl
  | succ j ih =>
    have windowLess : segment umax pd j (slen + 1) < umax * segment umax ps 0 slen := by
      have lowest := digits j
      have scaled : umax * (segment umax pd (j + 1) slen + 1) ≤ umax * segment umax ps 0 slen :=
        mul_le_mul_left umax less
      rw [segment_succ_front]
      rw [mul_add, mul_one] at scaled
      omega
    have positive := (divisor.trial digits windowLess).divisor_pos
    obtain ⟨notSmall, notLarge, isTrial⟩ := divisor.trialQuotient_spec digits windowLess
    have step := divisor.subtractProduct_spec digits positive notSmall notLarge isTrial
    have isQuotientDigit := (divisor.trial digits windowLess).quotient_lt_base
    rw [divLoop]
    generalize subtractProduct ps slen j (trialQuotient ps slen j pd) pd = result at step ⊢
    obtain ⟨after, q⟩ := result
    obtain ⟨isDigit, isRemainder, stepDigits, outside⟩ := step
    simp only at isDigit isRemainder stepDigits outside ⊢
    rw [← isDigit] at isQuotientDigit
    have division := div_add_mod' (segment umax pd j (slen + 1)) (segment umax ps 0 slen)
    have remainderLess := mod_lt (segment umax pd j (slen + 1)) positive
    obtain ⟨topZero, window⟩ := remainder_words isRemainder
      (remainderLess.trans divisor.segment_lt_pow)
    have nextLess : segment umax after j slen < segment umax ps 0 slen := by
      rw [window]
      exact remainderLess
    have rest := @ih after (update quotient j q)
      stepDigits (update_digit isQuotientDigit quotientDigits) nextLess
    generalize divLoop ps slen j after (update quotient j q) = result at rest ⊢
    have here : result.2 j = q := by rw [rest.quotientAbove j (le_refl j), update_self]
    refine ⟨rest.digits, rest.quotientDigits, ?_, rest.remainder_lt, ?_⟩
    · intro i above
      rw [rest.quotientAbove i (by omega), update_of_ne (by omega)]
    · have lower : segment umax after 0 j = segment umax pd 0 j :=
        segment_congr fun i _ below => outside i (by omega)
      have afterValue := rest.value
      rw [segment_add, zero_add, window, lower] at afterValue
      rw [← isDigit] at division
      have quotientValue : segment umax result.2 0 (j + 1) =
          segment umax result.2 0 j + q * umax ^ j := by
        rw [segment_succ, zero_add, here]
      rw [add_assoc j 1 slen, add_comm 1 slen, segment_add, zero_add, quotientValue, ← division]
      linarith

end Divisor

/-! ## The paths of `mln_bignum_div` -/

structure IsDivision (a b remainder quotient : Bignum) : Prop where
  isRemainder : WellFormed remainder
  isQuotient : WellFormed quotient
  value : a.magnitude = quotient.magnitude * b.magnitude + remainder.magnitude
  remainder_lt : remainder.magnitude < b.magnitude

theorem IsDivision.withTag {remainder quotient : Bignum} (tag : Tag)
    (division : IsDivision a b remainder quotient) :
    IsDivision a b (remainder.withTag tag) (quotient.withTag tag) :=
  ⟨division.isRemainder.withTag tag, division.isQuotient.withTag tag,
    division.value, division.remainder_lt⟩

theorem IsDivision.of_magnitudes {remainder quotient : Bignum}
    (isRemainder : WellFormed remainder) (isQuotient : WellFormed quotient)
    (positive : 0 < b.magnitude) (remainderValue : remainder.magnitude = a.magnitude % b.magnitude)
    (quotientValue : quotient.magnitude = a.magnitude / b.magnitude) :
    IsDivision a b remainder quotient := by
  refine ⟨isRemainder, isQuotient, ?_, ?_⟩
  · rw [quotientValue, remainderValue]
    exact (div_add_mod' _ _).symm
  · rw [remainderValue]
    exact mod_lt _ positive

section

variable (formed : WellFormed a) (positive : 0 < divisor) (isLength : a.length = top + 1)
  (isCount : n = if a.data top < divisor then top else top + 1)

include formed positive isLength isCount

/-- The length of the dividend, or one less when its highest word is smaller than the divisor. -/
theorem wordQuotient_length (isDigit : divisor < umax) :
    ∀ m, n = m + 1 → umax ^ m ≤ a.magnitude / divisor := by
  intro m isSucc
  rw [le_div_iff_mul_le positive]
  have value : a.magnitude = segment umax a.data 0 top + a.data top * umax ^ top := by
    rw [magnitude, isLength, segment_succ, zero_add]
  by_cases shorter : a.data top < divisor
  · rw [if_pos shorter] at isCount
    obtain rfl : top = m + 1 := by omega
    calc
      umax ^ m * divisor ≤ umax ^ m * umax := mul_le_mul_left _ isDigit.le
      _ = umax ^ (m + 1) := (pow_succ umax m).symm
      _ ≤ a.magnitude := formed.le_magnitude isLength
  · rw [if_neg shorter] at isCount
    obtain rfl : top = m := by omega
    calc
      umax ^ top * divisor ≤ umax ^ top * a.data top := mul_le_mul_left _ (not_lt.mp shorter)
      _ ≤ a.magnitude := by
        rw [value, mul_comm]
        exact le_add_left _ _

/-- What the words of a dividend are before the loop of
`__mln_bignum_div_word`. -/
theorem wordDividend (isRem : rem = if a.data top < divisor then a.data top else 0)
    (isData : data = if a.data top < divisor then update a.data top 0 else a.data) :
    rem < divisor ∧ (∀ i, data i < umax) ∧ (∀ i, n ≤ i → data i = 0) ∧
      n ≤ a.length ∧ rem * umax ^ n + segment umax data 0 n = a.magnitude := by
  by_cases shorter : a.data top < divisor
  · rw [if_pos shorter] at isCount isRem isData
    subst isCount isRem isData
    refine ⟨shorter, update_digit (Nat.two_pow_pos 32) formed.digits, ?_, by omega, ?_⟩
    · intro i above
      by_cases here : i = n
      · rw [here, update_self]
      · rw [update_of_ne here]
        exact formed.above i (by omega)
    · rw [segment_update 0 (by omega), magnitude, isLength, segment_succ, zero_add, add_comm]
  · rw [if_neg shorter] at isCount isRem isData
    subst isCount isRem isData
    refine ⟨positive, formed.digits, fun i above =>
      formed.above i (by omega), by omega, ?_⟩
    rw [zero_mul, zero_add, magnitude, isLength]

end

theorem remainderWord (tag : Tag) (isDigit : rem < umax) (zeros : ∀ i, data i = 0) :
    WellFormed ⟨tag, if rem * umax ≠ 0 then 1 else 0, update data 0 (rem * umax / umax)⟩ ∧
      magnitude ⟨tag, if rem * umax ≠ 0 then 1 else 0,
        update data 0 (rem * umax / umax)⟩ = rem := by
  have base : 0 < umax := Nat.two_pow_pos 32
  have digits : ∀ i, update data 0 rem i < umax :=
    update_digit isDigit fun i => by rw [zeros i]; exact base
  rw [Nat.mul_div_cancel rem base]
  by_cases isZero : rem = 0
  · rw [if_neg (not_not_intro (by rw [isZero, zero_mul]))]
    refine ⟨wellFormed_of_le (Nat.zero_le _) digits ?_ ?_, isZero.symm⟩
    · intro i _
      by_cases first : i = 0
      · rw [first, update_self, isZero]
      · rw [update_of_ne first, zeros i]
    · intro m impossible
      omega
  · have nonzero : rem * umax ≠ 0 := Nat.mul_ne_zero isZero base.ne'
    have value : segment umax (update data 0 rem) 0 1 = rem := by
      rw [segment_succ, segment_zero, zero_add, zero_add, update_self, pow_zero, mul_one]
    rw [if_pos nonzero]
    refine ⟨wellFormed_of_le (by decide) digits ?_ ?_, value⟩
    · intro i above
      rw [update_of_ne (by omega), zeros i]
    · intro m isSucc
      obtain rfl : m = 0 := by omega
      rw [value, pow_zero]
      exact Nat.pos_of_ne_zero isZero

theorem divWord_spec {word : ℕ} (formed : WellFormed a)
    (isDigit : word < umax) (positive : 0 < word) (value : b.magnitude = word) :
    ∃ remainder quotient, divWord a word = some (remainder, quotient) ∧
      IsDivision a b remainder quotient := by
  have isWord : ((word : ℤ) % (umax : ℤ)).toNat = word := by
    rw [Int.emod_eq_of_lt (by omega) (by exact_mod_cast isDigit), Int.toNat_natCast]
  rw [divWord, if_neg (by omega), isWord]
  by_cases isOne : word = 1
  · rw [if_pos isOne]
    refine ⟨_, _, rfl, wellFormed_zero, formed.withTag _, ?_, ?_⟩
    · rw [value, isOne]
      exact (mul_one _).symm
    · rw [value]
      exact positive
  · rw [if_neg isOne]
    by_cases isEmpty : a.length = 0
    · have isZero : a.magnitude = 0 := by rw [magnitude, isEmpty, segment_zero]
      rw [if_pos isEmpty]
      refine ⟨_, _, rfl, formed, wellFormed_zero, ?_, ?_⟩
      · rw [isZero]
        exact (zero_mul _).symm
      · rw [isZero, value]
        exact positive
    · obtain ⟨top, isLength⟩ := Nat.exists_eq_succ_of_ne_zero isEmpty
      have isTop : a.length - 1 = top := by omega
      have small : u64 (a.data top * umax) = a.data top * umax :=
        u64_eq (rem_mul_lt (le_refl umax) (formed.digits top))
      rw [if_neg isEmpty, isTop]
      simp only
      rw [small]
      have scaled : (if a.data top < word then a.data top * umax else 0) =
          (if a.data top < word then a.data top else 0) * umax := by
        rw [ite_mul, zero_mul]
      rw [scaled]
      generalize isCount : (if a.data top < word then top else top + 1) = n
      generalize isRem : (if a.data top < word then a.data top else 0) = rem
      generalize isData : (if a.data top < word then
        update a.data top 0 else a.data) = data
      obtain ⟨remLess, dataDigits, above, notLonger, dividend⟩ :=
        wordDividend formed positive isLength isCount.symm isRem.symm isData.symm
      obtain ⟨result, equation, divided⟩ := divWordLoop_spec zero.data
        (n := n) isDigit.le remLess dataDigits fun _ => Nat.two_pow_pos 32
      rw [dividend] at equation
      have quotientValue := divided.value
      rw [dividend] at quotientValue
      have zeros : ∀ i, (fun i => if i < n then 0 else data i) i = 0 := by
        intro i
        by_cases below : i < n
        · exact if_pos below
        · exact (if_neg below).trans (above i (by omega))
      obtain ⟨isRemainder, remainderValue⟩ := remainderWord
        (a.tag.xor (if (word : ℤ) < 0 then .negative else .positive))
        (lt_trans (Nat.mod_lt a.magnitude positive) isDigit) zeros
      have isQuotient : WellFormed ⟨a.tag.xor
          (if (word : ℤ) < 0 then .negative else .positive), n, result⟩ := by
        apply wellFormed_of_le (notLonger.trans formed.fits) divided.digits divided.outside
        rw [quotientValue]
        exact wordQuotient_length formed positive isLength isCount.symm isDigit
      rw [equation]
      refine ⟨_, _, rfl, IsDivision.of_magnitudes isRemainder isQuotient (by omega) ?_ ?_⟩
      · rw [remainderValue, value]
      · rw [value]
        exact quotientValue

/-- The factor of step D1 is a digit with which the divisor keeps its length,
and its highest word becomes large. -/
theorem scaled_divisor {top : ℕ} (formed : WellFormed b)
    (isLength : b.length = top + 1) (isLong : 0 < top) :
    0 < umax / (b.data top + 1) ∧ umax / (b.data top + 1) < umax ∧
      Scaled (b.magnitude * (umax / (b.data top + 1))) b.length
        (nmul b.data (umax / (b.data top + 1)) (fun _ => 0) b.length b.length) ∧
      Divisor (nmul b.data (umax / (b.data top + 1)) (fun _ => 0) b.length b.length) b.length := by
  have base : umax = 2 ^ 32 := rfl
  have isDigit := formed.digits top
  have topPositive : 0 < b.data top := by
    have nonzero := formed.top (by omega)
    rw [isLength, Nat.add_sub_cancel] at nonzero
    exact Nat.pos_of_ne_zero nonzero
  have positive : 0 < umax / (b.data top + 1) := Nat.div_pos (by omega) (Nat.succ_pos _)
  have small : umax / (b.data top + 1) < umax := Nat.div_lt_self (by omega) (by omega)
  have normalized : umax ≤ 2 * (umax / (b.data top + 1) * b.data top) :=
    normalized_digit (2 ^ 31) topPositive isDigit
  have atMost : umax / (b.data top + 1) * (b.data top + 1) ≤ umax := Nat.div_mul_le_self _ _
  generalize umax / (b.data top + 1) = d at positive small normalized atMost ⊢
  have lower : segment umax b.data 0 top < umax ^ top := segment_lt fun i _ _ => formed.digits i
  have value : b.magnitude = segment umax b.data 0 top + b.data top * umax ^ top := by
    rw [magnitude, isLength, segment_succ, zero_add]
  have fits : segment umax b.data 0 b.length * d < umax ^ b.length := by
    change b.magnitude * d < umax ^ b.length
    calc
      b.magnitude * d < (b.data top + 1) * umax ^ top * d := by
        apply Nat.mul_lt_mul_of_pos_right _ positive
        rw [value, add_mul, one_mul]
        omega
      _ = d * (b.data top + 1) * umax ^ top := by
        ring
      _ ≤ umax * umax ^ top := Nat.mul_le_mul_right _ atMost
      _ = umax ^ b.length := by
        rw [isLength, pow_succ, mul_comm]
  have scaled := nmul_spec small (le_refl b.length) formed.digits
    (fun i from_ below => absurd below (by omega)) fits
  refine ⟨positive, small, scaled, scaled.digits, scaled.above, by omega, ?_⟩
  have scaledValue := scaled.value
  have scaledLower : segment umax
      (nmul b.data d (fun _ => 0) b.length b.length) 0 top < umax ^ top :=
    segment_lt fun i _ _ => scaled.digits i
  generalize nmul b.data d (fun _ => 0) b.length b.length = ps at *
  change segment umax ps 0 b.length = b.magnitude * d at scaledValue
  have isTop : b.length - 1 = top := by omega
  rw [isLength, segment_succ, zero_add, value] at scaledValue
  rw [isTop]
  have atLeast : d * b.data top ≤ ps top := by
    have bound : d * b.data top * umax ^ top < (ps top + 1) * umax ^ top := by
      calc
        d * b.data top * umax ^ top ≤
            (segment umax b.data 0 top + b.data top * umax ^ top) * d := by
          linarith [Nat.zero_le (segment umax b.data 0 top * d)]
        _ = segment umax ps 0 top + ps top * umax ^ top := scaledValue.symm
        _ < (ps top + 1) * umax ^ top := by
          rw [add_mul, one_mul]
          omega
    exact Nat.lt_succ_iff.mp (lt_of_mul_lt_mul_right bound (Nat.zero_le _))
  omega

section

variable (formedA : WellFormed a) (formedB : WellFormed b)
include formedA formedB

theorem scaled_dividend_lt {d : ℕ} {pd : Words} (positive : 0 < d) (notEmpty : 0 < b.length)
    (notLonger : b.length ≤ a.length) (value : segment umax pd 0 (a.length + 1) = a.magnitude * d) :
    segment umax pd (a.length - b.length + 1) b.length < b.magnitude * d := by
  obtain ⟨top, isLength⟩ := Nat.exists_eq_succ_of_ne_zero notEmpty.ne'
  obtain ⟨j, lengths⟩ := Nat.exists_eq_add_of_le notLonger
  have count : a.length - b.length + 1 = j + 1 := by omega
  rw [count]
  have split : segment umax pd 0 (j + 1) + umax ^ (j + 1) * segment umax pd (j + 1) b.length =
      a.magnitude * d := by
    rw [← value, show a.length + 1 = j + 1 + b.length by omega, segment_add (j + 1), zero_add]
  have less : umax ^ (j + 1) * segment umax pd (j + 1) b.length <
      umax ^ (j + 1) * (b.magnitude * d) := by
    calc
      umax ^ (j + 1) * segment umax pd (j + 1) b.length ≤ a.magnitude * d := by
        omega
      _ < umax ^ a.length * d := Nat.mul_lt_mul_of_pos_right formedA.magnitude_lt positive
      _ = umax ^ (j + 1) * (umax ^ top * d) := by
        rw [lengths, isLength, Nat.succ_eq_add_one,
          show top + 1 + j = j + 1 + top by omega, pow_add, mul_assoc]
      _ ≤ umax ^ (j + 1) * (b.magnitude * d) := Nat.mul_le_mul_left _ (Nat.mul_le_mul_right d
        (formedB.le_magnitude isLength))
  exact lt_of_mul_lt_mul_left less (Nat.zero_le _)

/-- The quotient of step D8: its highest word is at the difference of the
lengths, or one below. -/
theorem longQuotient_wellFormed (tag : Tag) {j : ℕ} (notEmpty : 0 < b.length)
    (lengths : a.length = b.length + j) (digits : ∀ i, data i < umax)
    (above : ∀ i, j + 1 ≤ i → data i = 0)
    (value : segment umax data 0 (j + 1) = a.magnitude / b.magnitude) (positive : 0 < b.magnitude) :
    WellFormed ⟨tag, if data j ≠ 0 then j + 1 else j, data⟩ ∧
      magnitude ⟨tag, if data j ≠ 0 then j + 1 else j, data⟩ = a.magnitude / b.magnitude := by
  have fits := formedA.fits
  by_cases isZero : data j = 0
  · rw [if_neg (not_not_intro isZero)]
    have shorter : segment umax data 0 j = a.magnitude / b.magnitude := by
      rw [← value, segment_succ, zero_add, isZero, zero_mul, add_zero]
    refine ⟨wellFormed_of_le (by omega) digits ?_ ?_, shorter⟩
    · intro i from_
      by_cases here : i = j
      · rw [here, isZero]
      · exact above i (by omega)
    · intro m isSucc
      rw [shorter, le_div_iff_mul_le positive]
      calc
        umax ^ m * b.magnitude ≤ umax ^ m * umax ^ b.length :=
          mul_le_mul_left _ formedB.magnitude_lt.le
        _ = umax ^ (m + b.length) := (pow_add umax m b.length).symm
        _ ≤ a.magnitude := formedA.le_magnitude (by omega)
  · rw [if_pos isZero]
    refine ⟨wellFormed_of_le (by omega) digits above ?_, value⟩
    intro m isSucc
    obtain rfl : j = m := by omega
    apply le_segment
    rw [zero_add]
    exact isZero

theorem div_long (isLong : 2 ≤ b.length) (greater : b.magnitude < a.magnitude) :
    ∃ remainder quotient, div a b = some (remainder, quotient) ∧
      IsDivision a b remainder quotient := by
  obtain ⟨top, isLength⟩ := Nat.exists_eq_succ_of_ne_zero (show b.length ≠ 0 by omega)
  have isTop : b.length - 1 = top := by omega
  have notLonger : b.length ≤ a.length := by
    by_contra longer
    have less := formedA.magnitude_lt_of_length_lt formedB (by omega)
    omega
  obtain ⟨j, lengths⟩ := Nat.exists_eq_add_of_le notLonger
  have count : a.length - b.length = j := by omega
  obtain ⟨positive, isFactor, scaledB, divisor⟩ := scaled_divisor formedB isLength (by omega)
  rw [div, if_neg (by omega), if_neg (by omega),
    absCompare_eq formedA formedB, Nat.compare_eq_gt.mpr greater]
  simp only
  rw [isTop, count]
  generalize umax / (b.data top + 1) = d at positive isFactor scaledB divisor ⊢
  have scaledFits : segment umax a.data 0 a.length * d < umax ^ (a.length + 1) := by
    rw [pow_succ]
    exact Nat.mul_lt_mul_of_lt_of_le formedA.magnitude_lt isFactor.le (Nat.two_pow_pos 32)
  have scaledA := nmul_spec isFactor (Nat.le_succ a.length)
    formedA.digits (fun i from_ _ => formedA.above i from_) scaledFits
  have headLess := scaled_dividend_lt formedA formedB positive (by omega) notLonger scaledA.value
  generalize nmul a.data d (fun _ => 0) (a.length + 1) a.length = pd at scaledA headLess ⊢
  generalize nmul b.data d (fun _ => 0) b.length b.length = ps at scaledB divisor ⊢
  rw [count, ← scaledB.value] at headLess
  have divided := divisor.divLoop_spec zero.data scaledA.digits
    (fun _ => Nat.two_pow_pos 32) headLess
  generalize Bignum.divLoop ps b.length (j + 1) pd zero.data = result at divided ⊢
  have value := divided.value
  have remainderLess := divided.remainder_lt
  have pdValue : segment umax pd 0 (j + 1 + b.length) = a.magnitude * d := by
    rw [show j + 1 + b.length = a.length + 1 by omega]
    exact scaledA.value
  rw [scaledB.value] at value remainderLess
  rw [pdValue] at value
  have magnitudePositive : 0 < b.magnitude := by
    by_contra isZero
    rw [Nat.eq_zero_of_not_pos isZero, zero_mul] at remainderLess
    omega
  obtain ⟨remainder, isRemainder⟩ : ∃ remainder,
      segment umax result.1 0 b.length = remainder * d := by
    have divides : d ∣ segment umax result.1 0 b.length := by
      rw [← Nat.dvd_add_right (Dvd.intro_left (segment umax result.2 0 (j + 1) * b.magnitude) rfl)]
      rw [mul_assoc, ← value]
      exact Dvd.intro_left _ rfl
    obtain ⟨remainder, product⟩ := divides
    exact ⟨remainder, by rw [product, mul_comm]⟩
  rw [isRemainder] at value remainderLess
  have dividend : a.magnitude = b.magnitude * segment umax result.2 0 (j + 1) + remainder := by
    apply Nat.eq_of_mul_eq_mul_right positive
    rw [value]
    ring
  have less : remainder < b.magnitude := lt_of_mul_lt_mul_right remainderLess (Nat.zero_le d)
  have quotientValue : segment umax result.2 0 (j + 1) = a.magnitude / b.magnitude := by
    rw [dividend, Nat.mul_add_div magnitudePositive, Nat.div_eq_of_lt less]
    rfl
  have remainderValue : remainder = a.magnitude % b.magnitude := by
    rw [dividend, Nat.mul_add_mod, Nat.mod_eq_of_lt less]
  obtain ⟨shortDivided, isTrimmed⟩ := ndiv_spec (n := b.length) isFactor positive divided.digits
  have shortValue := shortDivided.value
  rw [zero_mul, zero_add, isRemainder, Nat.mul_div_cancel _ positive] at shortValue
  change ∃ _ _, some ((⟨_, (ndiv result.1 d (fun _ => 0) b.length).2,
    (ndiv result.1 d (fun _ => 0) b.length).1⟩, _) : Bignum × Bignum) = _ ∧ _
  rw [isTrimmed]
  obtain ⟨wellFormedR, valueR⟩ := wellFormed_trim (a.tag.xor b.tag)
    formedB.fits shortDivided.digits shortDivided.outside
  obtain ⟨wellFormedQ, valueQ⟩ := longQuotient_wellFormed formedA
    formedB (a.tag.xor b.tag) (by omega) lengths
    divided.quotientDigits divided.quotientAbove quotientValue magnitudePositive
  refine ⟨_, _, rfl, IsDivision.of_magnitudes wellFormedR wellFormedQ magnitudePositive ?_ valueQ⟩
  rw [valueR, shortValue, remainderValue]

theorem div_isDivision (nonzero : b.magnitude ≠ 0) :
    ∃ remainder quotient, div a b = some (remainder, quotient) ∧
      IsDivision a b remainder quotient := by
  have notEmpty : b.length ≠ 0 := by
    intro isEmpty
    apply nonzero
    rw [magnitude, isEmpty, segment_zero]
  by_cases isWord : b.length = 1
  · obtain ⟨value, positive⟩ := formedB.magnitude_of_length_one isWord
    obtain ⟨remainder, quotient, equation, division⟩ :=
      divWord_spec (b := b) formedA (formedB.digits 0) positive value
    rw [div, if_neg notEmpty, if_pos isWord, equation]
    exact ⟨_, _, rfl, division.withTag _⟩
  · rcases Nat.lt_trichotomy a.magnitude b.magnitude with less | same | greater
    · rw [div, if_neg notEmpty, if_neg isWord,
        absCompare_eq formedA formedB, Nat.compare_eq_lt.mpr less]
      refine ⟨_, _, rfl, formedA.withTag _, wellFormed_zero, ?_, less⟩
      change a.magnitude = 0 * b.magnitude + a.magnitude
      rw [zero_mul, zero_add]
    · rw [div, if_neg notEmpty, if_neg isWord,
        absCompare_eq formedA formedB, Nat.compare_eq_eq.mpr same]
      refine ⟨_, _, rfl, wellFormed_zero, wellFormed_word _ (by decide) (by decide), ?_,
        Nat.pos_of_ne_zero nonzero⟩
      change a.magnitude = 1 * b.magnitude + 0
      rw [same, one_mul, add_zero]
    · exact div_long formedA formedB (by omega) greater

end

/-- `mln_bignum_div` returns `0`, leaves the quotient and the remainder of the
magnitudes and does not change the divisor.  A dividend of 257 words is left
out: the copy of step D1 would read one word past its array. -/
theorem mlnBignumDiv_divides (arguments : DivArguments)
    (dest : WellFormed arguments.dest) (src : WellFormed arguments.src)
    (_fits : arguments.dest.length ≤ 256) (nonzero : arguments.src.magnitude ≠ 0) :
    ∃ remainder quotient : Bignum, mlnBignumDiv arguments = (0, ⟨remainder, arguments.src,
        arguments.quotient.map fun _ => quotient⟩) ∧
      WellFormed remainder ∧ WellFormed quotient ∧
      arguments.dest.magnitude =
        quotient.magnitude * arguments.src.magnitude + remainder.magnitude ∧
      remainder.magnitude < arguments.src.magnitude := by
  obtain ⟨remainder, quotient, equation, division⟩ := div_isDivision dest src nonzero
  refine ⟨remainder, quotient, ?_, division.isRemainder, division.isQuotient,
    division.value, division.remainder_lt⟩
  rw [mlnBignumDiv, equation]

/-- Seven divided by two, with a quotient. -/
theorem mlnBignumDiv_divides_sevenByTwo :
    ∃ remainder quotient : Bignum, mlnBignumDiv ⟨word 7, word 2, some zero⟩ =
        (0, ⟨remainder, word 2, some quotient⟩) ∧
      WellFormed remainder ∧ WellFormed quotient ∧
      7 = quotient.magnitude * 2 + remainder.magnitude ∧
      remainder.magnitude < 2 := mlnBignumDiv_divides ⟨word 7, word 2, some zero⟩
    (wellFormed_word .positive (by decide) (by decide))
    (wellFormed_word .positive (by decide) (by decide)) (by decide) (by decide)

end Skyc.Melon.Bignum
