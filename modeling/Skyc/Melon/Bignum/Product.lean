import Skyc.Melon.Bignum.Arith

/-!
# Products

The loops that multiply by a digit and the schoolbook product, whose rows add
to the words of the result.  No sum of a product of digits, a word of the
result and a carry leaves the range of a 64-bit word.
-/

namespace Skyc.Melon.Bignum

open Skyc.Lib Function Nat

variable {a b : Bignum}

/-! ## Products by a digit -/

theorem umax_mul_umax : umax * umax = 2 ^ 64 := by
  decide

theorem mul_add_lt {x y z : ℕ} (isX : x < umax) (isY : y < umax) (isZ : z ≤ 2 * (umax - 1)) :
    x * y + z < 2 ^ 64 := by
  have product : x * y ≤ (umax - 1) * (umax - 1) := Nat.mul_le_mul (by omega) (by omega)
  have square : (umax - 1) * (umax - 1) + 2 * (umax - 1) + 1 = 2 ^ 64 := by decide
  omega

structure Multiplied (a : Words) (factor n i carry : ℕ) (old : Words)
    (result : Words × ℕ) : Prop where
  isCarry : result.2 < umax
  digits : ∀ j, i ≤ j → j < i + n → result.1 j < umax
  outside : ∀ j, j < i ∨ i + n ≤ j → result.1 j = old j
  value : segment umax result.1 i n + umax ^ n * result.2 = segment umax a i n * factor + carry

theorem nmulLoop_spec {a r : Words} {factor n i carry : ℕ}
    (isFactor : factor < umax) (isCarry : carry < umax) (digits : ∀ j, a j < umax) :
    Multiplied a factor n i carry r (nmulLoop a factor n i carry r) := by
  induction n generalizing i carry r with
  | zero =>
    refine ⟨isCarry, ?_, fun _ _ => rfl, by simp [nmulLoop]⟩
    intro j from_ below
    omega
  | succ n ih =>
    have small := mul_add_lt (digits i) isFactor (z := carry) (by omega)
    have isNext := small
    rw [← umax_mul_umax, ← div_lt_iff_lt_mul (by decide)] at isNext
    have isDigit := mod_lt (a i * factor + carry) (y := umax) (by decide)
    have product := mod_add_div (a i * factor + carry) umax
    rw [nmulLoop, u64_eq small]
    generalize (a i * factor + carry) / umax = next at *
    generalize (a i * factor + carry) % umax = value at *
    have rest := @ih (update r i value) (i + 1) next isNext
    generalize nmulLoop a factor n (i + 1) next (update r i value) = result at rest ⊢
    have here : result.1 i = value := by rw [rest.outside i (by omega), update_self]
    refine ⟨rest.isCarry, ?_, ?_, ?_⟩
    · intro j from_ below
      by_cases first : j = i
      · rw [first, here]
        exact isDigit
      · exact rest.digits j (by omega) (by omega)
    · intro j outside
      rw [rest.outside j (by omega), update_of_ne (by omega)]
    · have total := carry_step product rest.value
      rw [segment_succ_front, segment_succ_front, here, add_mul]
      linarith

variable {data : Words}

/-- A loop that writes over its operand reads each word before it writes it. -/
theorem mulWordLoop_eq (src : ℕ) {other : Words} {n i carry : ℕ}
    (same : ∀ j, i ≤ j → other j = data j) :
    mulWordLoop src n i carry data = nmulLoop other src n i carry data := by
  induction n generalizing i carry data with
  | zero => rfl
  | succ n ih =>
    rw [mulWordLoop, nmulLoop, same i (le_refl i)]
    apply ih
    intro j from_
    rw [update_of_ne (by omega)]
    exact same j (by omega)

theorem carryLoop_eq {i carry : ℕ} (length : ℕ)
    (isCarry : carry < umax) (isZero : data i = 0) (room : carry ≠ 0 → i < size) :
    carryLoop i (carry + 1) carry length data = if carry = 0 then (length, data)
      else (length + 1, update data i carry) := by
  have base : umax = 2 ^ 32 := rfl
  rw [carryLoop]
  split
  · rfl
  · rename_i carries
    rw [if_neg (by have inside := room carries; omega), isZero, zero_add, u64_eq (by omega)]
    simp only [mod_eq_of_lt isCarry, div_eq_of_lt isCarry]
    obtain ⟨turns, rfl⟩ := exists_eq_succ_of_ne_zero carries
    rw [carryLoop, if_pos rfl]

theorem natAbs_mod_umax {word : ℕ} (isDigit : word < umax) :
    (word : ℤ).natAbs % umax = word := mod_eq_of_lt isDigit

theorem mulWord_spec {word : ℕ} (formed : WellFormed a)
    (isDigit : word < umax) (positive : 0 < word) (fits : a.magnitude * word < umax ^ size) :
    WellFormed (mulWord a word) ∧ (mulWord a word).magnitude = a.magnitude * word := by
  have multiplied := nmulLoop_spec (a := a.data) (r := a.data) (n := a.length)
    (i := 0) isDigit (Nat.two_pow_pos 32) formed.digits
  rw [mulWord, natAbs_mod_umax isDigit, mulWordLoop_eq word fun j _ => rfl]
  generalize nmulLoop a.data word a.length 0 0 a.data = result at multiplied ⊢
  obtain ⟨data, carry⟩ := result
  obtain ⟨isCarry, digitsBelow, outside, value⟩ := multiplied
  simp only at isCarry digitsBelow outside value
  rw [formed.segment_eq (le_refl _), add_zero] at value
  have zeros : ∀ j, a.length ≤ j → data j = 0 := by
    intro j above
    rw [outside j (by omega)]
    exact formed.above j above
  have digits : ∀ j, data j < umax := by
    intro j
    by_cases below : j < a.length
    · exact digitsBelow j (by omega) (by omega)
    · rw [zeros j (by omega)]
      exact Nat.two_pow_pos 32
  have room : carry ≠ 0 → a.length < size := by
    intro carries
    by_contra full
    have atEnd : a.length = size := by
      have lengthFits := formed.fits
      omega
    have overflow : umax ^ size * 1 ≤ umax ^ size * carry :=
      Nat.mul_le_mul_left _ (Nat.pos_of_ne_zero carries)
    rw [atEnd] at value
    omega
  simp only
  rw [carryLoop_eq a.length isCarry (zeros a.length (le_refl _)) room]
  by_cases noCarry : carry = 0
  · rw [if_pos noCarry]
    rw [noCarry, mul_zero, add_zero] at value
    refine ⟨wellFormed_of_le formed.fits digits zeros ?_, value⟩
    intro m isLength
    rw [value]
    have large := formed.le_magnitude isLength
    have grows : a.magnitude * 1 ≤ a.magnitude * word := Nat.mul_le_mul_left _ positive
    omega
  · have carries : carry ≠ 0 := noCarry
    rw [if_neg noCarry]
    have newValue : segment umax (update data a.length carry) 0
        (a.length + 1) = a.magnitude * word := by
      rw [segment_succ, segment_update carry (by omega), zero_add, update_self]
      linarith
    refine ⟨wellFormed_of_le (room carries) (update_digit isCarry digits) ?_ ?_, newValue⟩
    · intro j above
      change a.length + 1 ≤ j at above
      change update data a.length carry j = 0
      rw [update_of_ne (by omega)]
      exact zeros j (by omega)
    · intro m isLength
      change a.length + 1 = m + 1 at isLength
      obtain rfl : a.length = m := by omega
      rw [newValue, ← value]
      have grows : umax ^ a.length * 1 ≤ umax ^ a.length * carry :=
        Nat.mul_le_mul_left _ (Nat.pos_of_ne_zero carries)
      omega

/-! ## Rows of the schoolbook product -/

/-- A word of the result and the carry that is added to the next one, if the
array has a next word. -/
def rowWrite (res : Words) (k value carry : ℕ) : Words :=
  if k + 1 < size then
    update (update res k value) (k + 1) (res (k + 1) + carry)
  else
    update res k value

variable {res src : Words} {factor n i j k : ℕ}

theorem rowWrite_self (value carry : ℕ) : rowWrite res k value carry k = value := by
  rw [rowWrite]
  split
  · rw [update_of_ne (by omega), update_self]
  · rw [update_self]

theorem rowWrite_next (value carry : ℕ) :
    rowWrite res k value carry (k + 1) =
      if k + 1 < size then res (k + 1) + carry else res (k + 1) := by
  rw [rowWrite]
  split
  · rw [update_self]
  · rw [update_of_ne (by omega)]

theorem rowWrite_of_ne {m : ℕ} (value carry : ℕ) (notHere : m ≠ k) (notNext : m ≠ k + 1) :
    rowWrite res k value carry m = res m := by
  rw [rowWrite]
  split
  · rw [update_of_ne notNext, update_of_ne notHere]
  · rw [update_of_ne notHere]

theorem mulInner_step (n j : ℕ) (isFactor : factor < umax)
    (srcDigits : ∀ m, src m < umax) (inside : k < size)
    (here : res k ≤ 2 * (umax - 1)) (next : res (k + 1) < umax) :
    ∃ value carry, value < umax ∧ carry < umax ∧ value + umax * carry = factor * src j + res k ∧
      mulInner factor src (n + 1) j k res =
        mulInner factor src n (j + 1) (k + 1) (rowWrite res k value carry) := by
  have base : umax = 2 ^ 32 := rfl
  have small := mul_add_lt isFactor (srcDigits j) here
  have isCarry : (factor * src j + res k) / umax < umax := by
    rw [div_lt_iff_lt_mul (by decide), umax_mul_umax]
    exact small
  refine ⟨(factor * src j + res k) % umax, (factor * src j + res k) / umax,
    mod_lt _ (by decide), isCarry, mod_add_div _ _, ?_⟩
  rw [mulInner, if_pos inside, u64_eq small]
  simp only
  rw [update_of_ne (by omega), u64_eq (by omega)]
  rfl

structure RowAdded (factor : ℕ) (src : Words) (n j k : ℕ) (res : Words)
    (result : Words × ℕ) : Prop where
  pointer : result.2 = k + n
  digits : ∀ m, k ≤ m → m < k + n → result.1 m < umax
  outside : ∀ m, m < k ∨ k + n < m → result.1 m = res m
  value : ∃ carry, carry < umax ∧ segment umax result.1 k n + umax ^ n * carry =
      segment umax res k n + factor * segment umax src j n ∧
    result.1 (k + n) = if k + n < size then res (k + n) + carry else res (k + n)

theorem mulInner_spec (isFactor : factor < umax)
    (srcDigits : ∀ m, src m < umax) (inside : k + n ≤ size)
    (here : res k ≤ 2 * (umax - 1)) (above : ∀ m, k < m → res m < umax) :
    RowAdded factor src n j k res (mulInner factor src n j k res) := by
  induction n generalizing j k res with
  | zero =>
    refine ⟨rfl, ?_, fun _ _ => rfl, 0, by decide, by simp, ?_⟩
    · intro m from_ below
      omega
    · rw [mulInner]
      split
      · rfl
      · rfl
  | succ n ih =>
    obtain ⟨value, carry, isDigit, isCarry, product, step⟩ :=
      mulInner_step n j isFactor srcDigits (by omega) here (above (k + 1) (by omega))
    have nextDigit := above (k + 1) (by omega)
    have nextSmall : rowWrite res k value carry (k + 1) ≤ 2 * (umax - 1) := by
      rw [rowWrite_next]
      split
      · omega
      · omega
    have aboveNext : ∀ m, k + 1 < m → rowWrite res k value carry m < umax := by
      intro m from_
      rw [rowWrite_of_ne value carry (by omega) (by omega)]
      exact above m (by omega)
    have rest := @ih (rowWrite res k value carry) (j + 1) (k + 1) (by omega) nextSmall aboveNext
    rw [step]
    generalize mulInner factor src n (j + 1) (k + 1) (rowWrite res k value carry) = result at rest ⊢
    obtain ⟨last, isLast, restValue, lastWord⟩ := rest.value
    have hereValue : result.1 k = value := by rw [rest.outside k (by omega), rowWrite_self]
    refine ⟨by rw [rest.pointer]; omega, ?_, ?_, ?_⟩
    · intro m from_ below
      by_cases first : m = k
      · rw [first, hereValue]
        exact isDigit
      · exact rest.digits m (by omega) (by omega)
    · intro m outside
      rw [rest.outside m (by omega), rowWrite_of_ne value carry (by omega) (by omega)]
    · cases n with
      | zero =>
        -- The carry of the last product is the one of the row.
        refine ⟨carry, isCarry, ?_, ?_⟩
        · simp only [segment_succ, segment_zero, add_zero,
            zero_add, pow_zero, pow_one, mul_one, hereValue]
          omega
        · simp only [add_zero] at lastWord
          have noCarry : last = 0 := by
            simp only [segment_zero, pow_zero, zero_add, one_mul, mul_zero, add_zero] at restValue
            exact restValue
          simp only [noCarry, add_zero, ite_self, rowWrite_next] at lastWord
          exact lastWord
      | succ n =>
        have room : k + 1 < size := by omega
        refine ⟨last, isLast, ?_, ?_⟩
        · have raised : segment umax (rowWrite res k value carry) (k + 1) (n + 1) =
              segment umax res (k + 1) (n + 1) + carry := by
            rw [segment_succ_front, segment_succ_front, rowWrite_next, if_pos room]
            have same : segment umax (rowWrite res k value carry)
              (k + 1 + 1) n = segment umax res (k + 1 + 1) n := segment_congr fun m from_ _ =>
              rowWrite_of_ne value carry (by omega) (by omega)
            rw [same]
            omega
          have others : segment umax result.1 (k + 1) (n + 1) + umax ^ (n + 1) * last =
              (segment umax res (k + 1) (n + 1) +
                factor * segment umax src (j + 1) (n + 1)) + carry := by
            omega
          have total := carry_step product others
          rw [segment_succ_front, segment_succ_front (n := n + 1),
            segment_succ_front (n := n + 1), hereValue]
          linarith
        · rw [show k + (n + 1 + 1) = k + 1 + (n + 1) by omega, lastWord,
            rowWrite_of_ne value carry (by omega) (by omega)]

/-- The words of a result while `i` rows have been added. -/
structure Partial (dest src : Words) (slen i : ℕ) (res : Words) : Prop where
  digits : ∀ m, res m < umax
  above : ∀ m, i + slen ≤ m → res m = 0
  beyond : ∀ m, size ≤ m → res m = 0
  value : segment umax res 0 size = segment umax dest 0 i * segment umax src 0 slen

variable {dest : Words} {slen : ℕ}

theorem Partial.row (before : Partial dest src slen i res) (isFactor : dest i < umax)
    (srcDigits : ∀ m, src m < umax) (inside : i + slen ≤ size)
    (fits : segment umax dest 0 (i + 1) * segment umax src 0 slen < umax ^ size) :
    Partial dest src slen (i + 1) (mulInner (dest i) src slen 0 i res).1 ∧
      (mulInner (dest i) src slen 0 i res).2 = i + slen := by
  have base : umax = 2 ^ 32 := rfl
  have row := mulInner_spec (j := 0) isFactor srcDigits inside
    (by have digit := before.digits i; omega) fun m _ => before.digits m
  generalize mulInner (dest i) src slen 0 i res = result at row
  obtain ⟨carry, isCarry, value, last⟩ := row.value
  have carryWord : result.1 (i + slen) = if i + slen < size then carry else 0 := by
    rw [last, before.above (i + slen) (le_refl _), zero_add]
  have zeros : ∀ m, i + slen < m → result.1 m = 0 := by
    intro m from_
    rw [row.outside m (Or.inr from_)]
    exact before.above m (by omega)
  -- The words below the row and above it, and the carry.
  obtain ⟨rest, isSize⟩ := Nat.exists_eq_add_of_le inside
  have whole : ∀ data : Words, segment umax data 0 size =
      segment umax data 0 i + umax ^ i * (segment umax data i slen +
        umax ^ slen * segment umax data (i + slen) rest) := by
    intro data
    rw [isSize, add_assoc, segment_add, segment_add, zero_add]
  have belowSame : segment umax result.1 0 i = segment umax res 0 i :=
    segment_congr fun m _ below => row.outside m (Or.inl (by omega))
  have oldAbove : segment umax res (i + slen) rest = 0 :=
    segment_eq_zero fun m from_ _ => before.above m from_
  have target : segment umax dest 0 (i + 1) * segment umax src 0 slen =
      segment umax res 0 i + umax ^ i * (segment umax result.1 i slen + umax ^ slen * carry) := by
    have old := before.value
    rw [whole res, oldAbove, mul_zero, add_zero] at old
    rw [segment_succ, zero_add, add_mul, ← old, value]
    ring
  have kept : segment umax result.1 (i + slen) rest = carry := by
    cases rest with
    | zero =>
      -- A carry out of the array would make the product too large.
      by_contra carries
      have isOne : 1 ≤ carry := Nat.pos_of_ne_zero (Ne.symm carries)
      have overflow : umax ^ size * 1 ≤ umax ^ size * carry := Nat.mul_le_mul_left _ isOne
      rw [target, isSize, add_zero, pow_add] at fits
      rw [isSize, add_zero, pow_add] at overflow
      linarith [Nat.zero_le (segment umax res 0 i),
        Nat.zero_le (umax ^ i * segment umax result.1 i slen)]
    | succ rest =>
      rw [segment_succ_front, carryWord, if_pos (by omega),
        segment_eq_zero fun m from_ _ => zeros m (by omega), mul_zero, add_zero]
  refine ⟨⟨?_, ?_, ?_, ?_⟩, row.pointer⟩
  · intro m
    rcases Nat.lt_trichotomy m (i + slen) with below | rfl | above
    · by_cases inRow : i ≤ m
      · exact row.digits m inRow below
      · rw [row.outside m (by omega)]
        exact before.digits m
    · rw [carryWord]
      split
      · exact isCarry
      · decide
    · rw [zeros m above]
      decide
  · intro m above
    exact zeros m (by omega)
  · intro m outside
    by_cases last : m = i + slen
    · rw [last, carryWord, if_neg (by omega)]
    · exact zeros m (by omega)
  · rw [whole result.1, belowSame, kept, target]

theorem mulOuter_spec (positive : 0 < slen)
    (before : Partial dest src slen i res) (destDigits : ∀ m, dest m < umax)
    (srcDigits : ∀ m, src m < umax) (inside : i + n + slen ≤ size + 1)
    (fits : ∀ rows, rows ≤ i + n →
      segment umax dest 0 rows * segment umax src 0 slen < umax ^ size) :
    Partial dest src slen (i + n) (mulOuter dest src slen n i k res).1 ∧
      (mulOuter dest src slen n i k res).2 = if n = 0 then k else i + n - 1 + slen := by
  induction n generalizing i k res with
  | zero => exact ⟨before, rfl⟩
  | succ n ih =>
    obtain ⟨after, pointer⟩ := before.row (destDigits i) srcDigits
      (by omega) (fits (i + 1) (by omega))
    rw [mulOuter, if_neg (by omega)]
    generalize mulInner (dest i) src slen 0 i res = result at after pointer
    obtain ⟨next, pointer'⟩ := result
    simp only at after pointer ⊢
    have rest := @ih next (i + 1) pointer' after (by omega) fun rows le => fits rows (by omega)
    refine ⟨?_, ?_⟩
    · rw [show i + (n + 1) = i + 1 + n by omega]
      exact rest.1
    · rw [rest.2, pointer, if_neg (succ_ne_zero n)]
      split
      · omega
      · omega

theorem segment_le_magnitude {rows : ℕ} (le : rows ≤ a.length) :
    segment umax a.data 0 rows ≤ a.magnitude := by
  obtain ⟨more, isLength⟩ := Nat.exists_eq_add_of_le le
  rw [magnitude, isLength, segment_add]
  exact Nat.le_add_right _ _

theorem mulOuter_product (tag : Tag) (formedA : WellFormed a)
    (formedB : WellFormed b) (positiveA : 0 < a.length)
    (positiveB : 0 < b.length) (fits : a.magnitude * b.magnitude < umax ^ size)
    (isProduct : mulOuter a.data b.data b.length a.length 0 0 zero.data = (data, k)) :
    WellFormed ⟨tag, if k < size ∧ data k ≠ 0 then k + 1 else k, data⟩ ∧
      magnitude ⟨tag, if k < size ∧ data k ≠ 0 then k + 1 else k, data⟩ =
        a.magnitude * b.magnitude := by
  obtain ⟨p, isA⟩ := Nat.exists_eq_succ_of_ne_zero positiveA.ne'
  obtain ⟨q, isB⟩ := Nat.exists_eq_succ_of_ne_zero positiveB.ne'
  have large : umax ^ (p + q) ≤ a.magnitude * b.magnitude := by
    rw [pow_add]
    exact Nat.mul_le_mul (formedA.le_magnitude isA) (formedB.le_magnitude isB)
  have inside : p + q < size := by
    by_contra outside
    have bound := umax_pow_le (not_lt.mp outside)
    omega
  have start : Partial a.data b.data b.length 0 zero.data := by
    refine ⟨fun _ => Nat.two_pow_pos 32, fun _ _ => rfl, fun _ _ => rfl, ?_⟩
    rw [segment_zero, zero_mul]
    exact segment_eq_zero fun _ _ _ => rfl
  have rowsFit : ∀ rows, rows ≤ 0 + a.length →
      segment umax a.data 0 rows * segment umax b.data 0 b.length < umax ^ size := by
    intro rows le
    have bound : segment umax a.data 0 rows * b.magnitude ≤ a.magnitude * b.magnitude :=
      Nat.mul_le_mul_right _ (segment_le_magnitude (by omega))
    exact bound.trans_lt fits
  obtain ⟨product, pointer⟩ := mulOuter_spec (k := 0) positiveB start
    formedA.digits formedB.digits (by omega) rowsFit
  rw [isProduct, zero_add] at product
  rw [isProduct, if_neg (by omega)] at pointer
  obtain ⟨digits, above, beyond, value⟩ := product
  change segment umax data 0 size = a.magnitude * b.magnitude at value
  change k = 0 + a.length - 1 + b.length at pointer
  by_cases more : k < size ∧ data k ≠ 0
  · rw [if_pos more]
    refine ⟨⟨more.1, digits, fun m from_ => above m ?_, fun _ => more.2⟩, ?_⟩
    · change k + 1 ≤ m at from_
      omega
    · rw [← value]
      exact (segment_of_le more.1 fun m from_ _ => above m (by omega)).symm
  · have zeros : ∀ m, k ≤ m → data m = 0 := by
      intro m from_
      by_cases atEnd : m = k
      · rw [atEnd]
        by_contra nonzero
        exact nonzero (beyond k (by
          by_contra room
          exact more ⟨by omega, nonzero⟩))
      · exact above m (by omega)
    have newValue : segment umax data 0 k = a.magnitude * b.magnitude := by
      rw [← value]
      exact (segment_of_le (by omega) fun m from_ _ => zeros m (by omega)).symm
    rw [if_neg more]
    refine ⟨wellFormed_of_le (by omega) digits zeros ?_, newValue⟩
    intro m isLength
    rw [newValue, show m = p + q by omega]
    exact large

/-! ## Products of integers -/

def Tag.sign : Tag → ℤ
  | .positive => 1
  | .negative => -1

theorem sign_xor (first second : Tag) : (first.xor second).sign = first.sign * second.sign := by
  cases first <;> cases second <;> rfl

theorem toInt_eq_sign (number : Bignum) : number.toInt = number.tag.sign * number.magnitude := by
  rw [toInt]
  cases number.tag <;> simp [Tag.sign]

theorem toInt_mul {result : Bignum} (isTag : result.tag = a.tag.xor b.tag)
    (value : result.magnitude = a.magnitude * b.magnitude) : result.toInt = a.toInt * b.toInt := by
  rw [toInt_eq_sign, toInt_eq_sign a, toInt_eq_sign b, isTag, sign_xor, value, cast_mul]
  ring

theorem natAbs_toInt (number : Bignum) : number.toInt.natAbs = number.magnitude := by
  cases isTag : number.tag with
  | positive => rw [toInt_of_positive isTag, Int.natAbs_natCast]
  | negative => rw [toInt_of_negative isTag, Int.natAbs_neg, Int.natAbs_natCast]

theorem WellFormed.magnitude_of_length_one (formed : WellFormed a) (isOne : a.length = 1) :
    a.magnitude = a.data 0 ∧ 0 < a.data 0 := by
  have top := formed.top (by omega)
  rw [isOne] at top
  refine ⟨?_, pos_of_ne_zero top⟩
  rw [magnitude, isOne]
  simp [Skyc.Lib.segment]

theorem WellFormed.absCompare_zero (formed : WellFormed a) :
    absCompare a zero = .eq ↔ a.length = 0 := by
  rw [absCompare_eq formed wellFormed_zero, Nat.compare_eq_eq]
  constructor
  · intro isZero
    by_contra nonzero
    obtain ⟨n, isLength⟩ := Nat.exists_eq_succ_of_ne_zero nonzero
    have large := formed.le_magnitude isLength
    have positive : 0 < umax ^ n := Nat.pow_pos (by decide)
    rw [isZero] at large
    change umax ^ n ≤ 0 at large
    omega
  · intro isZero
    rw [magnitude, isZero]
    rfl

theorem mul_yields {operands : Operands}
    (dest : WellFormed operands.dest) (src : WellFormed operands.src)
    (fits : (operands.dest.toInt * operands.src.toInt).natAbs < umax ^ size) :
    Yields operands (operands.dest.toInt * operands.src.toInt) (some (mul operands)) := by
  rw [Int.natAbs_mul, natAbs_toInt, natAbs_toInt] at fits
  simp only [mul]
  by_cases srcWord : operands.src.length = 1
  · obtain ⟨isWord, positive⟩ := src.magnitude_of_length_one srcWord
    rw [isWord] at fits
    obtain ⟨formed, value⟩ := mulWord_spec dest (src.digits 0) positive fits
    rw [if_pos srcWord]
    refine ⟨_, rfl, formed.withTag _, toInt_mul rfl ?_, rfl⟩
    rw [isWord]
    exact value
  · rw [if_neg srcWord]
    by_cases destWord : operands.dest.length = 1
    · obtain ⟨isWord, positive⟩ := dest.magnitude_of_length_one destWord
      rw [isWord, mul_comm] at fits
      obtain ⟨formed, value⟩ := mulWord_spec src (dest.digits 0) positive fits
      rw [if_pos destWord]
      refine ⟨_, rfl, formed.withTag _, toInt_mul rfl ?_, rfl⟩
      rw [isWord, mul_comm]
      exact value
    · have zeroTest := or_congr dest.absCompare_zero src.absCompare_zero
      rw [if_neg destWord]
      by_cases isZero : operands.dest.length = 0 ∨ operands.src.length = 0
      · rw [if_pos (zeroTest.mpr isZero)]
        refine ⟨_, rfl, wellFormed_zero, ?_, rfl⟩
        have noMagnitude : operands.dest.toInt * operands.src.toInt = 0 := by
          rw [← Int.natAbs_eq_zero, Int.natAbs_mul, natAbs_toInt, natAbs_toInt]
          rcases isZero with isZero | isZero
          · rw [magnitude, isZero, segment_zero, zero_mul]
          · rw [magnitude, magnitude, isZero, segment_zero, mul_zero]
        rw [noMagnitude]
        rfl
      · rw [if_neg (zeroTest.not.mpr isZero)]
        rw [not_or] at isZero
        cases isProduct : mulOuter operands.dest.data operands.src.data
          operands.src.length operands.dest.length 0 0 zero.data with
        | mk data k =>
          obtain ⟨formed, value⟩ := mulOuter_product
            (operands.dest.tag.xor operands.src.tag) dest src
            (pos_of_ne_zero isZero.1) (pos_of_ne_zero isZero.2) fits isProduct
          exact ⟨_, rfl, formed, toInt_mul rfl value, rfl⟩

/-! ## The three operations -/

inductive Operation
  | add
  | sub
  | mul
deriving DecidableEq, Repr

/-- The integer that an operation has to leave in `dest`. -/
def Operation.exact : Operation → ℤ → ℤ → ℤ
  | .add, x, y => x + y
  | .sub, x, y => x - y
  | .mul, x, y => x * y

/-- `mln_bignum_add`, `mln_bignum_sub` or `mln_bignum_mul`. -/
def Operation.perform : Operation → Operands → Option Operands
  | .add, operands => Bignum.add operands
  | .sub, operands => Bignum.sub operands
  | .mul, operands => some (Bignum.mul operands)

/-- An operation on well-formed numbers whose result has a place in an array
leaves the sum, the difference or the product, and leaves another operand as it
was: always but for the difference of two negative numbers of one length. -/
theorem perform_exact_iff (operation : Operation) (operands : Operands)
    (dest : WellFormed operands.dest) (src : WellFormed operands.src)
    (fits : (operation.exact operands.dest.toInt operands.src.toInt).natAbs < umax ^ size) :
    (∃ after, operation.perform operands = some after ∧ WellFormed after.dest ∧
      after.dest.toInt = operation.exact operands.dest.toInt operands.src.toInt ∧
      after.other = operands.other) ↔ ¬ (operation = .sub ∧ Clash operands) := by
  cases operation with
  | add =>
    exact iff_of_true (add_yields dest src fits) fun clash => by
      cases clash.1
  | sub =>
    rw [and_iff_right rfl]
    exact sub_yields_iff dest src fits
  | mul =>
    exact iff_of_true (mul_yields dest src fits) fun clash => by
      cases clash.1

theorem wellFormed_word {value : ℕ} (tag : Tag) (isDigit : value < umax) (nonzero : value ≠ 0) :
    WellFormed ((word value).withTag tag) := by
  refine ⟨(by decide : 1 ≤ size), ?_, ?_, fun _ => nonzero⟩
  · intro i
    exact update_digit isDigit (fun _ => Nat.two_pow_pos 32) i
  · intro i above
    change 1 ≤ i at above
    change update (fun _ => 0) 0 value i = 0
    rw [update_of_ne (by omega)]

/-- `-5` and `7` are multiplied. -/
theorem perform_exact_iff_minusFiveTimesSeven :
    ∃ after, Operation.mul.perform ⟨(word 5).withTag .negative, some (word 7)⟩ = some after ∧
      WellFormed after.dest ∧ after.dest.toInt = -35 ∧
      after.other = some (word 7) :=
  (perform_exact_iff .mul ⟨(word 5).withTag .negative, some (word 7)⟩
    (wellFormed_word .negative (by decide) (by decide))
    (wellFormed_word .positive (by decide) (by decide)) (lt_of_lt_of_le (by decide : 35 < umax ^ 1)
      (umax_pow_le (by decide)))).mpr fun clash => by cases clash.1

/-- `-5` minus `-3`: the assertion of `__mln_bignum_sub_core` fails. -/
theorem minusFive_sub_minusThree_fails :
    WellFormed ((word 5).withTag .negative) ∧ ((word 5).withTag .negative).toInt = -5 ∧
      WellFormed ((word 3).withTag .negative) ∧
      ((word 3).withTag .negative).toInt = -3 ∧
      Operation.sub.perform ⟨(word 5).withTag .negative,
        some ((word 3).withTag .negative)⟩ = none :=
  ⟨wellFormed_word .negative (by decide) (by decide), rfl,
    wellFormed_word .negative (by decide) (by decide), rfl, rfl⟩

end Skyc.Melon.Bignum
