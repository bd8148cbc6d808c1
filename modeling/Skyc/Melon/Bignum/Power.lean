import Skyc.Melon.Bignum.Division

/-!
# Powers

`mln_bignum_pwr` goes through the bits of the exponent from the highest one
down, squares, and multiplies where a bit is set.  A product that has as many
words as the modulus is reduced, so that every product is less than the
modulus.
-/

namespace Skyc.Melon.Bignum

open Skyc.Lib Nat Option

variable {a b : Bignum}

structure Denotes (number : Bignum) (value : ℕ) : Prop where
  formed : WellFormed number
  tag : number.tag = .positive
  magnitude : number.magnitude = value

variable {value : ℕ}

theorem denotes_word (isDigit : value < umax) (nonzero : value ≠ 0) :
    Denotes (word value) value where
  formed := wellFormed_word .positive isDigit nonzero
  tag := rfl
  magnitude := by
    change 0 + Function.update (fun _ => 0) 0 value (0 + 0) * umax ^ 0 = value
    rw [add_zero, Function.update_self, pow_zero]
    omega

theorem denotes_zero : Denotes zero 0 := ⟨wellFormed_zero, rfl, rfl⟩

theorem WellFormed.digit_eq (formed : WellFormed a) (i : ℕ) :
    a.magnitude / umax ^ i % umax = a.data i := by
  have below : i < a.length + i + 1 := by omega
  have digit : segment umax a.data 0 (a.length + i + 1) / umax ^ i % umax = a.data (0 + i) :=
    segment_digit (fun j _ _ => formed.digits j) below
  rwa [formed.segment_eq (by omega), zero_add] at digit

theorem Denotes.unique (denotesA : Denotes a value) (denotesB : Denotes b value) : a = b := by
  have same : a.magnitude = b.magnitude := denotesA.magnitude.trans denotesB.magnitude.symm
  have sameTag : a.tag = b.tag := denotesA.tag.trans denotesB.tag.symm
  have formedA := denotesA.formed
  have formedB := denotesB.formed
  have sameLength : a.length = b.length := by
    rcases lt_trichotomy a.length b.length with less | equal | greater
    · have differ := formedA.magnitude_lt_of_length_lt formedB less
      omega
    · exact equal
    · have differ := formedB.magnitude_lt_of_length_lt formedA greater
      omega
  have sameData : a.data = b.data := by
    funext i
    rw [← formedA.digit_eq, ← formedB.digit_eq, same]
  cases a
  cases b
  simp only at sameTag sameLength sameData
  rw [sameTag, sameLength, sameData]

/-! ## Tags and values of the operations -/

variable {operands : Operands}

theorem mul_tag (destTag : operands.dest.tag = .positive) (srcTag : operands.src.tag = .positive) :
    (mul operands).dest.tag = .positive := by
  have positive : operands.dest.tag.xor operands.src.tag = .positive := by
    rw [destTag, srcTag]
    rfl
  rw [mul]
  split
  · exact positive
  · split
    · exact positive
    · split
      · rfl
      · exact positive

theorem Denotes.mul {x y : ℕ}
    (dest : Denotes operands.dest x) (src : Denotes operands.src y) (fits : x * y < umax ^ size) :
    Denotes (mul operands).dest (x * y) := by
  have value : operands.dest.toInt * operands.src.toInt = (x * y : ℕ) := by
    rw [toInt_of_positive dest.tag, toInt_of_positive src.tag, dest.magnitude,
      src.magnitude, cast_mul]
  have small : (operands.dest.toInt * operands.src.toInt).natAbs < umax ^ size := by
    rw [value, Int.natAbs_natCast]
    exact fits
  obtain ⟨result, isResult, formed, isValue, _⟩ := mul_yields dest.formed src.formed small
  have same : Bignum.mul operands = result := some.inj isResult
  have isTag := mul_tag dest.tag src.tag
  rw [same] at isTag ⊢
  refine ⟨formed, isTag, ?_⟩
  rw [toInt_of_positive isTag, value] at isValue
  exact_mod_cast isValue

/-- The tag of a quotient and of a remainder is the one of the operands together, or the
number is a new zero. -/
theorem div_tags {remainder quotient : Bignum} (isResult : div a b = some (remainder, quotient)) :
    (remainder.tag = a.tag.xor b.tag ∨ remainder = zero) ∧
      (quotient.tag = a.tag.xor b.tag ∨ quotient = zero) := by
  rw [div] at isResult
  split at isResult
  · cases isResult
  · split at isResult
    · cases isWord : divWord a (b.data 0) with
      | none =>
        rw [isWord] at isResult
        cases isResult
      | some division =>
        rw [isWord] at isResult
        cases isResult
        exact ⟨.inl rfl, .inl rfl⟩
    · split at isResult
      · cases isResult
        exact ⟨.inr rfl, .inl rfl⟩
      · cases isResult
        exact ⟨.inl rfl, .inr rfl⟩
      · simp only [some.injEq, Prod.mk.injEq] at isResult
        rw [← isResult.1, ← isResult.2]
        exact ⟨.inl rfl, .inl rfl⟩

theorem Denotes.div {x y : ℕ} (dest : Denotes a x) (src : Denotes b y) (positive : 0 < y) :
    ∃ remainder quotient, div a b = some (remainder, quotient) ∧
      Denotes remainder (x % y) ∧ Denotes quotient (x / y) := by
  have nonzero : b.magnitude ≠ 0 := by
    rw [src.magnitude]
    exact positive.ne'
  obtain ⟨remainder, quotient, isResult, division⟩ := div_isDivision dest.formed src.formed nonzero
  have isTag {number : Bignum} (tags : number.tag = a.tag.xor b.tag ∨ number = zero) :
      number.tag = .positive := by
    rcases tags with same | rfl
    · rw [same, dest.tag, src.tag]
      rfl
    · rfl
  have tags := div_tags isResult
  have value := division.value
  have less := division.remainder_lt
  rw [dest.magnitude, src.magnitude, mul_comm] at value
  rw [src.magnitude] at less
  refine ⟨remainder, quotient, isResult, ⟨division.isRemainder, isTag tags.1, ?_⟩,
    division.isQuotient, isTag tags.2, ?_⟩
  · rw [value, mul_add_mod, mod_eq_of_lt less]
  · rw [value, mul_add_div positive, div_eq_of_lt less, add_zero]

theorem Denotes.add {x y : ℕ} (dest : Denotes a x) (src : Denotes b y)
    (fits : x + y < umax ^ size) :
    ∃ result, add ⟨a, some b⟩ = some result ∧ Denotes result.dest (x + y) := by
  have sameTag : a.tag = b.tag := dest.tag.trans src.tag.symm
  have small : a.magnitude + b.magnitude < umax ^ size := by
    rw [dest.magnitude, src.magnitude]
    exact fits
  obtain ⟨formed, value, isTag, _⟩ := @addSameTag_spec ⟨a, some b⟩ dest.formed src.formed small
  refine ⟨_, if_neg (not_not_intro sameTag), formed, isTag.trans dest.tag, ?_⟩
  rw [value, ← dest.magnitude, ← src.magnitude]
  rfl

theorem Denotes.sub {x y : ℕ} (dest : Denotes a x) (src : Denotes b y) :
    ∃ result, sub ⟨a, some b⟩ = some result ∧ (result.dest.tag = .positive →
      y ≤ x ∧ Denotes result.dest (x - y)) := by
  have sameTag : a.tag = b.tag := dest.tag.trans src.tag.symm
  obtain ⟨result, isResult, formed, value, _⟩ :=
    @subSameTag_positive ⟨a, some b⟩ dest.formed src.formed dest.tag src.tag
  refine ⟨result, (if_neg (not_not_intro sameTag)).trans isResult, ?_⟩
  intro isTag
  change result.dest.toInt = (a.magnitude : ℤ) - (b.magnitude : ℤ) at value
  rw [toInt_of_positive isTag, dest.magnitude, src.magnitude] at value
  exact ⟨by omega, formed, isTag, by omega⟩

/-! ## Bits -/

theorem WellFormed.bitTest_eq (formed : WellFormed a) (index : ℕ) :
    bitTest a index = a.magnitude.testBit index := by
  have position : 32 * (index / 32) + index % 32 = index := div_add_mod index 32
  have inWord : index % 32 < 32 := mod_lt _ (by decide)
  rw [bitTest, ← formed.digit_eq, umax, ← pow_mul, testBit_mod_two_pow,
    testBit_div_two_pow, add_comm, position]
  simp [inWord]

theorem magnitude_lt_two_pow (formed : WellFormed a) : a.magnitude < 2 ^ (a.length * 32) := by
  have less := formed.magnitude_lt
  rwa [umax, ← pow_mul, mul_comm] at less

variable {n : ℕ}

theorem topBit_spec (formed : WellFormed a) (less : a.magnitude < 2 ^ n) :
    match topBit a n with
    | none => a.magnitude = 0
    | some i => a.magnitude / 2 ^ i = 1 := by
  induction n with
  | zero =>
    rw [pow_zero] at less
    change a.magnitude = 0
    omega
  | succ n ih =>
    rw [topBit, formed.bitTest_eq]
    have bit : a.magnitude / 2 ^ n < 2 := by
      rw [Nat.div_lt_iff_lt_mul (Nat.two_pow_pos n), mul_comm, ← pow_succ]
      exact less
    have isBit : a.magnitude.testBit n = true ↔ a.magnitude / 2 ^ n = 1 := by
      rw [Nat.testBit_eq_decide_div_mod_eq, decide_eq_true_eq, Nat.mod_eq_of_lt bit]
    by_cases isSet : a.magnitude / 2 ^ n = 1
    · rw [if_pos (isBit.mpr isSet)]
      exact isSet
    · rw [if_neg fun set => isSet (isBit.mp set)]
      apply ih
      rw [← Nat.div_eq_zero_iff_lt (Nat.two_pow_pos n)]
      exact Nat.eq_zero_of_le_zero
        (Nat.le_of_lt_succ (lt_of_le_of_ne (Nat.le_of_lt_succ bit) isSet))

/-! ## Products and powers modulo a number -/

theorem Denotes.length_le (denotes : Denotes a value) (less : value < umax ^ n) : a.length ≤ n := by
  by_contra longer
  have large := denotes.formed.le_magnitude (show a.length = a.length - 1 + 1 by omega)
  have enough : umax ^ n ≤ umax ^ (a.length - 1) := umax_pow_le (by omega)
  rw [denotes.magnitude] at large
  omega

theorem mul_lt_umax_pow_256 {x y : ℕ} (lessX : x < umax ^ 128) (lessY : y < umax ^ 128) :
    x * y < umax ^ 256 := by
  have bound : x * y < umax ^ 128 * umax ^ 128 := mul_lt_mul'' lessX lessY
  rwa [← pow_add] at bound

/-- The number of words from which on two factors may not be multiplied. -/
theorem mul_lt_umax_pow {x y : ℕ} (lessX : x < umax ^ 128) (lessY : y < umax ^ 128) :
    x * y < umax ^ size :=
  lt_of_lt_of_le (mul_lt_umax_pow_256 lessX lessY) (umax_pow_le (by decide))

theorem mulMod_spec (operands : Operands) {mod : Bignum} {x y m : ℕ}
    (dest : Denotes operands.dest x) (src : Denotes operands.src y) (isMod : Denotes mod m)
    (positive : 0 < m) (smallX : x < umax ^ 128) (smallY : y < umax ^ 128) :
    (∃ result, mulMod operands mod = some result ∧ Denotes result (x * y % m)) ∧
      (mul operands).dest.length ≤ 256 := by
  have product := dest.mul src (mul_lt_umax_pow smallX smallY)
  refine ⟨?_, product.length_le (mul_lt_umax_pow_256 smallX smallY)⟩
  rw [mulMod]
  by_cases long : mod.length ≤ (mul operands).dest.length
  · obtain ⟨remainder, quotient, isResult, isRemainder, -⟩ := product.div isMod positive
    refine ⟨remainder, ?_, isRemainder⟩
    rw [if_pos long, isResult]
    rfl
  · refine ⟨_, if_neg long, ?_⟩
    have less := product.formed.magnitude_lt_of_length_lt isMod.formed (by omega)
    rw [product.magnitude, isMod.magnitude] at less
    rw [mod_eq_of_lt less]
    exact product

/-- The products that the loop of `__mln_bignum_pwr` makes, before they are reduced. -/
def pwrProducts (x exponent mod : Bignum) : ℕ → Bignum → List Bignum
  | 0, _ => []
  | i + 1, dest =>
    (mul ⟨dest, none⟩).dest :: (mulMod ⟨dest, none⟩ mod).elim [] fun square =>
      if bitTest exponent i then
        (mul ⟨square, some x⟩).dest ::
          (mulMod ⟨square, some x⟩ mod).elim [] (pwrProducts x exponent mod i)
      else
        pwrProducts x exponent mod i square

variable {dest number : Bignum}

section Powers

variable {x exponent mod : Bignum} {base e m : ℕ}

theorem pow_bit (base e n : ℕ) :
    base ^ (e / 2 ^ n) = base ^ (e / 2 ^ (n + 1)) * base ^ (e / 2 ^ (n + 1)) *
      if e.testBit n then base else 1 := by
  have half : e / 2 ^ (n + 1) = e / 2 ^ n / 2 := by rw [pow_succ, Nat.div_div_eq_div_mul]
  rw [← pow_add, half, Nat.testBit_eq_decide_div_mod_eq]
  simp only [decide_eq_true_eq]
  by_cases isSet : e / 2 ^ n % 2 = 1
  · rw [if_pos isSet, ← pow_succ]
    congr 1
    omega
  · rw [if_neg isSet, mul_one]
    congr 1
    omega

/-- Every product of the loop has a place in 256 words. -/
def Short (x exponent mod : Bignum) (n : ℕ) (dest : Bignum) : Prop :=
  ∀ product ∈ pwrProducts x exponent mod n dest, product.length ≤ 256

section Loop

variable (isX : Denotes x base) (isExponent : Denotes exponent e) (isMod : Denotes mod m)
  (positive : 0 < m) (smallX : base < umax ^ 128) (smallMod : m < umax ^ 128)

include isX isExponent isMod positive smallX smallMod

theorem pwrModLoop_step {y : ℕ} (isDest : Denotes dest y) (smallDest : y < umax ^ 128) :
    ∃ next, pwrModLoop x exponent mod (n + 1) dest = pwrModLoop x exponent mod n next ∧
      Denotes next (y * y * (if e.testBit n then base else 1) % m) ∧
      (Short x exponent mod n next → Short x exponent mod (n + 1) dest) := by
  obtain ⟨⟨square, isSquare, denotesSquare⟩, short⟩ :=
    mulMod_spec ⟨dest, none⟩ isDest isDest isMod positive smallDest smallDest
  have reduced : y * y % m < umax ^ 128 := lt_trans (mod_lt _ positive) smallMod
  have isBit : bitTest exponent n = e.testBit n := by
    rw [isExponent.formed.bitTest_eq, isExponent.magnitude]
  rw [pwrModLoop, isSquare, isBit]
  by_cases isSet : e.testBit n = true
  · obtain ⟨⟨product, isProduct, denotesProduct⟩, shortProduct⟩ :=
      mulMod_spec ⟨square, some x⟩ denotesSquare isX isMod positive reduced smallX
    refine ⟨product, ?_, ?_, ?_⟩
    · simp only [isSet, if_true, isProduct, some_bind]
    · have same : y * y % m * base % m = y * y * base % m := (mod_modEq (y * y) m).mul_right base
      rw [if_pos isSet, ← same]
      exact denotesProduct
    · intro later
      simpa [Short, pwrProducts, isSquare, isBit, isSet, isProduct, short, shortProduct] using later
  · refine ⟨square, ?_, ?_, ?_⟩
    · simp only [isSet, some_bind]
      rfl
    · rw [if_neg isSet, mul_one]
      exact denotesSquare
    · intro later
      simpa [Short, pwrProducts, isSquare, isBit, isSet, short] using later

/-- The loop raises to the exponent; after one bit at least the result is less
than the modulus. -/
theorem pwrModLoop_spec {y : ℕ} (isDest : Denotes dest y)
    (smallDest : y < umax ^ 128) (isPower : y ≡ base ^ (e / 2 ^ n) [MOD m]) :
    ∃ result value, pwrModLoop x exponent mod n dest = some result ∧
      Denotes result value ∧ value ≡ base ^ e [MOD m] ∧
      (value < m ∨ n = 0 ∧ value = y) ∧ Short x exponent mod n dest := by
  induction n generalizing y dest with
  | zero =>
    rw [pow_zero, Nat.div_one] at isPower
    exact ⟨dest, y, rfl, isDest, isPower, .inr ⟨rfl, rfl⟩, by simp [Short, pwrProducts]⟩
  | succ n ih =>
    obtain ⟨next, isNext, denotesNext, shortNext⟩ := pwrModLoop_step isX isExponent
      isMod positive smallX smallMod isDest smallDest (n := n)
    have less := Nat.mod_lt (y * y * (if e.testBit n then base else 1)) positive
    have nextPower : y * y * (if e.testBit n then base else 1) % m ≡
        base ^ (e / 2 ^ n) [MOD m] := by
      rw [pow_bit base e n]
      exact (Nat.mod_modEq _ _).trans ((isPower.mul isPower).mul_right _)
    obtain ⟨result, value, isResult, denotes, power, bound, short⟩ :=
      ih denotesNext (less.trans smallMod) nextPower
    refine ⟨result, value, isNext.trans isResult, denotes, power, .inl ?_, shortNext short⟩
    rcases bound with small | ⟨_, same⟩
    · exact small
    · rw [same]
      exact less

end Loop

/-- The products that `mln_bignum_pwr` makes with a modulus. -/
def products (dest exponent mod : Bignum) : List Bignum :=
  (topBit exponent (exponent.length * 32)).elim [] fun i => pwrProducts dest exponent mod i dest

/-- The power up to a multiple of the modulus; the exponent one leaves a large base as it is. -/
theorem pwr_spec (isX : Denotes x base) (isExponent : Denotes exponent e)
    (isMod : Denotes mod m) (large : 1 < m) (smallX : base < umax ^ 128)
    (smallMod : m < umax ^ 128) :
    ∃ result value, pwr x exponent (some mod) = some result ∧
      Denotes result value ∧ value ≡ base ^ e [MOD m] ∧ (value < m ∨ e = 1 ∧ value = base) ∧
      ∀ product ∈ products x exponent mod, product.length ≤ 256 := by
  have notNegative : exponent.tag ≠ .negative := by
    rw [isExponent.tag]
    decide
  have search := topBit_spec isExponent.formed (magnitude_lt_two_pow isExponent.formed)
  rw [pwr, if_neg notNegative, products]
  rw [isExponent.magnitude] at search
  cases isTop : topBit exponent (exponent.length * 32) with
  | none =>
    rw [isTop] at search
    have isZero : e = 0 := search
    refine ⟨word 1, 1, rfl, denotes_word (by decide) (by decide), ?_, .inl large, by simp⟩
    rw [isZero, pow_zero]
  | some i =>
    rw [isTop] at search
    have isOne : e / 2 ^ i = 1 := search
    have start : base ≡ base ^ (e / 2 ^ i) [MOD m] := by rw [isOne, pow_one]
    obtain ⟨result, value, isResult, denotes, power, bound, short⟩ :=
      pwrModLoop_spec isX isExponent isMod (by omega) smallX smallMod isX smallX start
    refine ⟨result, value, isResult, denotes, power, ?_, short⟩
    rcases bound with less | ⟨last, same⟩
    · exact .inl less
    · rw [last, pow_zero, Nat.div_one] at isOne
      exact .inr ⟨isOne, same⟩

/-! A zero with a negative tag is a base as well. -/

theorem mulMod_empty (dest : operands.dest.length = 0)
    (src : operands.src.length = 0) (isMod : mod.length ≠ 0) :
    (mul operands).dest = zero ∧ mulMod operands mod = some zero := by
  have product : (mul operands).dest = zero := by
    simp [mul, dest, src, absCompare, zero, Operands.setDest]
  rw [mulMod, product]
  exact ⟨rfl, if_neg fun le => isMod (le_zero.mp le)⟩

theorem pwrModLoop_empty (isX : x.length = 0) (isMod : mod.length ≠ 0) (isDest : dest.length = 0) :
    ∃ result, pwrModLoop x exponent mod n dest = some result ∧
      (result = dest ∨ result = zero) ∧ Short x exponent mod n dest := by
  induction n generalizing dest with
  | zero => exact ⟨dest, rfl, .inl rfl, by simp [Short, pwrProducts]⟩
  | succ n ih =>
    have square := @mulMod_empty ⟨dest, none⟩ mod isDest isDest isMod
    have product := @mulMod_empty ⟨zero, some x⟩ mod rfl isX isMod
    obtain ⟨result, isResult, isZero, short⟩ := @ih zero rfl
    refine ⟨result, ?_, .inr (or_self_iff.mp isZero), ?_⟩
    · rw [pwrModLoop, square.2, ← isResult]
      cases bitTest exponent n with
      | true => simp only [some_bind, if_true, product.2]
      | false => rfl
    · have few : zero.length ≤ 256 := zero_le 256
      cases isBit : bitTest exponent n with
      | true => simpa [Short, pwrProducts, square, product, isBit, few] using short
      | false => simpa [Short, pwrProducts, square, isBit, few] using short

theorem denotes_of_tag (formed : WellFormed number)
    (isTag : number.tag = .positive) : Denotes number number.magnitude := ⟨formed, isTag, rfl⟩

theorem tag_of_toInt_pos (positive : 0 < number.toInt) : number.tag = .positive := by
  cases isTag : number.tag with
  | positive => rfl
  | negative =>
    rw [toInt_of_negative isTag] at positive
    omega

theorem tag_or_empty (formed : WellFormed number)
    (notNegative : 0 ≤ number.toInt) : number.tag = .positive ∨ number.length = 0 := by
  cases isTag : number.tag with
  | positive => exact .inl rfl
  | negative =>
    rw [toInt_of_negative isTag] at notNegative
    right
    rw [← formed.absCompare_zero, absCompare_eq formed wellFormed_zero, Nat.compare_eq_eq]
    change number.magnitude = 0
    omega

/-- `mln_bignum_pwr` returns `0` and leaves the power up to a multiple of the modulus: always
but for an exponent that is zero with a negative tag, for which it returns `-1`. -/
theorem pwr_raises_iff (dest exponent mod : Bignum) (isDest : WellFormed dest)
    (isExponent : WellFormed exponent) (isMod : WellFormed mod) (notNegative : 0 ≤ dest.toInt)
    (_exponentNotNegative : 0 ≤ exponent.toInt) (large : 2 ≤ mod.toInt)
    (short : dest.length ≤ 128) (shortMod : mod.length ≤ 128) :
    ((∃ result, pwr dest exponent (some mod) = some result ∧ WellFormed result ∧
      0 ≤ result.toInt ∧ result.toInt ≡ dest.toInt ^ exponent.magnitude [ZMOD mod.toInt] ∧
      (exponent.toInt = 0 ∨ 2 ≤ exponent.toInt ∨ dest.toInt < mod.toInt →
        result.toInt < mod.toInt)) ∧
      ∀ product ∈ products dest exponent mod, product.length ≤ 256) ↔ exponent.tag = .positive := by
  constructor
  · rintro ⟨⟨result, isResult, -⟩, -⟩
    cases isTag : exponent.tag with
    | positive => rfl
    | negative =>
      rw [pwr, if_pos isTag] at isResult
      cases isResult
  · intro exponentTag
    have modTag := tag_of_toInt_pos (two_pos.trans_le large)
    rw [toInt_of_positive modTag] at large
    rw [toInt_of_positive modTag, toInt_of_positive exponentTag]
    have denotesExponent := denotes_of_tag isExponent exponentTag
    rcases tag_or_empty isDest notNegative with isTag | isEmpty
    · obtain ⟨result, value, isResult, denotes, power, bound, few⟩ :=
        pwr_spec (denotes_of_tag isDest isTag) denotesExponent (denotes_of_tag isMod modTag)
          (by omega) (isDest.magnitude_lt.trans_le (umax_pow_le short))
          (isMod.magnitude_lt.trans_le (umax_pow_le shortMod))
      have isValue : result.toInt = value := by
        rw [toInt_of_positive denotes.tag, denotes.magnitude]
      rw [toInt_of_positive isTag]
      refine ⟨⟨result, isResult, denotes.formed, ?_, ?_, ?_⟩, few⟩
      · omega
      · rw [isValue, ← Nat.cast_pow]
        exact (Int.natCast_modEq_iff).mpr power
      · omega
    · have noMagnitude : dest.magnitude = 0 := by rw [magnitude, isEmpty, segment_zero]
      have isZero : dest.toInt = 0 := by rw [toInt_eq_sign, noMagnitude, Nat.cast_zero, mul_zero]
      have notEmpty : mod.length ≠ 0 := by
        intro isEmpty
        rw [magnitude, isEmpty, segment_zero] at large
        omega
      have search := topBit_spec isExponent (magnitude_lt_two_pow isExponent)
      rw [pwr, if_neg (by rw [exponentTag]; decide), products, isZero]
      cases isTop : topBit exponent (exponent.length * 32) with
      | none =>
        rw [isTop] at search
        have denotes := denotes_word (show 1 < umax by decide) one_ne_zero
        have isOne : (word 1).toInt = 1 := rfl
        refine ⟨⟨word 1, rfl, denotes.formed, ?_, ?_, ?_⟩, by simp⟩
        · omega
        · rw [show exponent.magnitude = 0 from search, pow_zero, isOne]
        · omega
      | some i =>
        rw [isTop] at search
        have top : exponent.magnitude / 2 ^ i = 1 := search
        have positive : exponent.magnitude ≠ 0 := by
          intro none
          rw [none, Nat.zero_div] at top
          cases top
        obtain ⟨result, isResult, same, few⟩ := pwrModLoop_empty isEmpty notEmpty isEmpty
        have isValue : WellFormed result ∧ result.toInt = 0 := by
          rcases same with rfl | rfl
          · exact ⟨isDest, isZero⟩
          · exact ⟨wellFormed_zero, rfl⟩
        refine ⟨⟨result, isResult, isValue.1, ?_, ?_, ?_⟩, few⟩
        · omega
        · rw [isValue.2, zero_pow positive]
        · omega

/-- Two to the power of three, modulo five. -/
theorem pwr_raises_iff_twoCubed :
    ∃ result, pwr (word 2) (word 3) (some (word 5)) = some result ∧ WellFormed result ∧
      0 ≤ result.toInt ∧ result.toInt ≡ (word 2).toInt ^ (word 3).magnitude [ZMOD 5] ∧
      ((word 3).toInt = 0 ∨ 2 ≤ (word 3).toInt ∨ (word 2).toInt < 5 → result.toInt < 5) :=
  ((pwr_raises_iff (word 2) (word 3) (word 5) (wellFormed_word .positive (by decide) (by decide))
    (wellFormed_word .positive (by decide) (by decide))
    (wellFormed_word .positive (by decide) (by decide)) (by decide) (by decide) (by decide)
    (by decide) (by decide)).mpr rfl).1

/-- Any number to the power of a zero with a negative tag. -/
theorem pwr_negativeZero :
    WellFormed (zero.withTag .negative) ∧ (zero.withTag .negative).toInt = 0 ∧
      pwr (word 2) (zero.withTag .negative) (some (word 5)) = none :=
  ⟨wellFormed_zero.withTag .negative, rfl, rfl⟩

end Powers

end Skyc.Melon.Bignum
