import Skyc.Melon.Bignum.Power

/-!
# Signed division and the extended Euclidean algorithm

`mln_bignum_div` gives the remainder the sign of the quotient, but
`mln_bignum_extend_eulid` divides positive numbers only.  The coefficients of
successive remainders have opposite signs and stay below the first numbers.
-/

namespace Skyc.Melon.Bignum

open Skyc.Lib Nat

variable {a b : Bignum}

/-! ## The signs of a division -/

theorem toInt_of_tag_or_zero {number : Bignum} {tag : Tag}
    (isTag : number.tag = tag ∨ number = zero) : number.toInt = tag.sign * number.magnitude := by
  rcases isTag with rfl | rfl
  · exact toInt_eq_sign number
  · exact (mul_zero tag.sign).symm

theorem IsDivision.dvd_iff {remainder quotient : Bignum}
    (division : IsDivision a b remainder quotient) :
    b.magnitude ∣ a.magnitude ↔ remainder.magnitude = 0 := by
  rw [division.value, Nat.dvd_add_right (Nat.dvd_mul_left _ _)]
  constructor
  · intro divides
    exact Nat.eq_zero_of_dvd_of_lt divides division.remainder_lt
  · intro isZero
    rw [isZero]
    exact Nat.dvd_zero _

/-- The quotient and the remainder that `mln_bignum_div` leaves give the signed dividend
exactly when the divisor is positive or nothing remains. -/
theorem mlnBignumDiv_signed_iff (dest src old : Bignum) (isDest : WellFormed dest)
    (isSrc : WellFormed src) (_fits : dest.length ≤ 256) (nonzero : src.magnitude ≠ 0) :
    ∃ remainder quotient,
      mlnBignumDiv ⟨dest, src, some old⟩ = (0, ⟨remainder, src, some quotient⟩) ∧
      (dest.toInt = quotient.toInt * src.toInt + remainder.toInt ↔
        src.tag = .positive ∨ src.magnitude ∣ dest.magnitude) := by
  obtain ⟨remainder, quotient, isResult, division⟩ := div_isDivision isDest isSrc nonzero
  refine ⟨remainder, quotient, by rw [mlnBignumDiv, isResult]; rfl, ?_⟩
  have tags := div_tags isResult
  rw [toInt_of_tag_or_zero tags.1, toInt_of_tag_or_zero tags.2, sign_xor, toInt_eq_sign dest,
    toInt_eq_sign src, division.dvd_iff, division.value]
  push_cast
  cases src.tag with
  | positive =>
    refine iff_of_true ?_ (Or.inl rfl)
    rw [show Tag.positive.sign = 1 from rfl]
    ring
  | negative =>
    have apart : ¬ (Tag.negative = Tag.positive) := by decide
    rw [show Tag.negative.sign = -1 from rfl, or_iff_right apart]
    constructor
    · intro same
      have double : dest.tag.sign * (2 * (remainder.magnitude : ℤ)) = 0 := by linarith
      rcases mul_eq_zero.mp double with sign | twice
      · cases tag : dest.tag <;> rw [tag] at sign <;> cases sign
      · omega
    · intro isZero
      rw [isZero]
      ring

/-- Seven divided by two. -/
theorem mlnBignumDiv_signed_iff_sevenByTwo :
    ∃ remainder quotient,
      mlnBignumDiv ⟨word 7, word 2, some zero⟩ = (0, ⟨remainder, word 2, some quotient⟩) ∧
      ((word 7).toInt = quotient.toInt * (word 2).toInt + remainder.toInt ↔
        (word 2).tag = .positive ∨ (word 2).magnitude ∣ (word 7).magnitude) :=
  mlnBignumDiv_signed_iff (word 7) (word 2) zero (wellFormed_word .positive (by decide) (by decide))
    (wellFormed_word .positive (by decide) (by decide)) (by decide) (by decide)

/-- Seven divided by minus two: the quotient `-3` and the remainder `-1`. -/
theorem mlnBignumDiv_sevenByMinusTwo :
    ∃ remainder quotient, mlnBignumDiv ⟨word 7, (word 2).withTag .negative, some zero⟩ =
        (0, ⟨remainder, (word 2).withTag .negative, some quotient⟩) ∧
      quotient.toInt = -3 ∧ remainder.toInt = -1 ∧
      (word 7).toInt ≠ quotient.toInt * ((word 2).withTag .negative).toInt + remainder.toInt :=
  ⟨_, _, rfl, by decide, by decide, by decide⟩

/-! ## The algorithm -/

/-- The local variables of `mln_bignum_extend_eulid`. -/
structure Eulid where
  (m n r q tmpx tmpy x0 y0 x1 y1 : Bignum)

/-- The loop of `mln_bignum_extend_eulid`, for a number of turns. -/
def eulidLoop : ℕ → Eulid → Option (Bignum × Bignum)
  | 0, _ => none
  | turns + 1, s =>
    if compare s.r zero = .gt then do
      let tmpx ← sub ⟨s.x0, some (mul ⟨s.q, some s.x1⟩).dest⟩
      let tmpy ← sub ⟨s.y0, some (mul ⟨s.q, some s.y1⟩).dest⟩
      let (r, q) ← div s.n s.r
      eulidLoop turns ⟨s.n, s.r, r, q, tmpx.dest, tmpy.dest, s.x1, s.y1, tmpx.dest, tmpy.dest⟩
    else
      some (s.tmpx, s.tmpy)

/-- `mln_bignum_extend_eulid`: the numbers it leaves in `x` and `y`. -/
def mlnBignumExtendEulid (turns : ℕ) (a b : Bignum) : Option (Bignum × Bignum) := do
  let (r, q) ← div a b
  eulidLoop turns ⟨a, b, r, q, zero, word 1, word 1, zero, zero, word 1⟩

/-! ## Coefficients -/

/-- The coefficients of two successive remainders: each one weighted with the other's
remainder they stay below the bound. -/
structure Weighs (bound m n : ℕ) (c0 c1 : ℤ) : Prop where
  opposite : c0 * c1 ≤ 0
  bounded : c1.natAbs * m + c0.natAbs * n ≤ bound

theorem Weighs.step {bound n q r : ℕ} {c0 c1 : ℤ} (weighs : Weighs bound (q * n + r) n c0 c1) :
    Weighs bound n r c1 (c0 - q * c1) := by
  constructor
  · have square : 0 ≤ q * (c1 * c1) := mul_nonneg (Int.natCast_nonneg q) (mul_self_nonneg c1)
    have opposite := weighs.opposite
    linarith
  · have size : (c0 - q * c1).natAbs ≤ c0.natAbs + q * c1.natAbs := by
      have triangle := Int.natAbs_sub_le c0 (q * c1)
      rwa [Int.natAbs_mul, Int.natAbs_natCast] at triangle
    calc
      (c0 - q * c1).natAbs * n + c1.natAbs * r ≤ (c0.natAbs + q * c1.natAbs) * n + c1.natAbs * r :=
        Nat.add_le_add_right (Nat.mul_le_mul_right n size) _
      _ = c1.natAbs * (q * n + r) + c0.natAbs * n := by ring
      _ ≤ bound := weighs.bounded

theorem Clash.negative {operands : Operands} (dest : WellFormed operands.dest)
    (src : WellFormed operands.src) (clash : Clash operands) :
    operands.dest.toInt < 0 ∧ operands.src.toInt < 0 := by
  have ⟨destTag, srcTag, lengths, apart⟩ := clash
  rw [toInt_of_negative destTag, toInt_of_negative srcTag] at apart ⊢
  cases isLength : operands.dest.length with
  | zero =>
    rw [magnitude, magnitude, ← lengths, isLength] at apart
    exact absurd rfl apart
  | succ n =>
    have positive : 0 < umax ^ n := Nat.pow_pos (by decide)
    have large := dest.le_magnitude isLength
    have srcLarge := src.le_magnitude (lengths.symm.trans isLength)
    omega

theorem Denotes.toInt_eq {value : ℕ} (denotes : Denotes a value) : a.toInt = value := by
  rw [toInt_of_positive denotes.tag, denotes.magnitude]

/-- The next coefficient has a place in an array and is computed without a clash. -/
theorem coefficient_spec {c0 c1 quotient : Bignum} {bound n q r : ℕ} (isC0 : WellFormed c0)
    (isC1 : WellFormed c1) (isQ : Denotes quotient q)
    (weighs : Weighs bound (q * n + r) n c0.toInt c1.toInt) (positive : 0 < n)
    (small : bound < umax ^ size) :
    ∃ next, sub ⟨c0, some (mul ⟨quotient, some c1⟩).dest⟩ = some next ∧ WellFormed next.dest ∧
      next.dest.toInt = c0.toInt - q * c1.toInt := by
  have productSmall : (quotient.toInt * c1.toInt).natAbs < umax ^ size := by
    rw [isQ.toInt_eq, Int.natAbs_mul, Int.natAbs_natCast]
    calc
      q * c1.toInt.natAbs ≤ (q * n + r) * c1.toInt.natAbs :=
        Nat.mul_le_mul_right _ (le_trans (Nat.le_mul_of_pos_right q positive)
          (Nat.le_add_right _ _))
      _ = c1.toInt.natAbs * (q * n + r) := Nat.mul_comm _ _
      _ ≤ bound := le_trans (Nat.le_add_right _ _) weighs.bounded
      _ < umax ^ size := small
  obtain ⟨product, isProduct, isWellFormed, value, -⟩ :=
    @mul_yields ⟨quotient, some c1⟩ isQ.formed isC1 productSmall
  change product.dest.toInt = quotient.toInt * c1.toInt at value
  rw [isQ.toInt_eq] at value
  have differenceSmall : (c0.toInt - product.dest.toInt).natAbs < umax ^ size := by
    rw [value]
    have bounded := weighs.step.bounded
    have scaled := Nat.le_mul_of_pos_right (c0.toInt - q * c1.toInt).natAbs positive
    omega
  have noClash : ¬ Clash ⟨c0, some product.dest⟩ := by
    intro clash
    have ⟨first, second⟩ := @Clash.negative ⟨c0, some product.dest⟩ isC0 isWellFormed clash
    change c0.toInt < 0 at first
    change product.dest.toInt < 0 at second
    rw [value] at second
    have c1Negative := neg_of_mul_neg_right second (Int.natCast_nonneg q)
    exact absurd weighs.opposite (not_le.mpr (mul_pos_of_neg_of_neg first c1Negative))
  obtain ⟨next, isNext, nextWellFormed, nextValue, -⟩ :=
    (@sub_yields_iff ⟨c0, some product.dest⟩ isC0 isWellFormed differenceSmall).mpr noClash
  rw [Option.some.inj isProduct]
  refine ⟨next, isNext, nextWellFormed, ?_⟩
  rw [← value]
  exact nextValue

/-! ## The loop -/

/-- Two successive remainders of `a` and `b`, what the loop has divided, and the
coefficients. -/
structure Bezout (a b m n : ℕ) (s : Eulid) : Prop where
  isN : Denotes s.n n
  isR : Denotes s.r (m % n)
  isQ : Denotes s.q (m / n)
  positive : 0 < n
  kept : s.tmpx = s.x1 ∧ s.tmpy = s.y1
  isX0 : WellFormed s.x0
  isX1 : WellFormed s.x1
  isY0 : WellFormed s.y0
  isY1 : WellFormed s.y1
  weighsX : Weighs b m n s.x0.toInt s.x1.toInt
  weighsY : Weighs a m n s.y0.toInt s.y1.toInt
  first : a * s.x0.toInt + b * s.y0.toInt = m
  second : a * s.x1.toInt + b * s.y1.toInt = n
  gcd : m.gcd n = a.gcd b

theorem Denotes.compare_zero_iff {value : ℕ} (denotes : Denotes a value) :
    compare a zero = .gt ↔ value ≠ 0 := by
  have isZero : value = 0 ↔ a.length = 0 := by
    rw [← denotes.formed.absCompare_zero, absCompare_eq denotes.formed wellFormed_zero,
      Nat.compare_eq_eq, denotes.magnitude]
    rfl
  have sameTag : a.tag = zero.tag := denotes.tag
  refine Iff.trans ?_ (not_congr isZero).symm
  rw [compare, if_neg (not_not_intro sameTag)]
  by_cases isEmpty : a.length = 0
  · simp [isEmpty, zero]
  · have longer : a.length > zero.length := Nat.pos_of_ne_zero isEmpty
    rw [if_neg fun both => isEmpty both.2, if_pos longer.ne', if_pos denotes.tag, if_pos longer]
    exact iff_of_true rfl isEmpty

section

variable {first second m n : ℕ} {s : Eulid} (bezout : Bezout first second m n s)
  (smallFirst : first < umax ^ size) (smallSecond : second < umax ^ size)

include bezout smallFirst smallSecond

theorem eulidLoop_step (turns : ℕ) (remains : m % n ≠ 0) :
    ∃ next, eulidLoop (turns + 1) s = eulidLoop turns next ∧
      Bezout first second n (m % n) next := by
  have weighsX := bezout.weighsX
  have weighsY := bezout.weighsY
  have divided : m = m / n * n + m % n := (div_add_mod' m n).symm
  nth_rewrite 1 [divided] at weighsX weighsY
  obtain ⟨x, isX, wellFormedX, valueX⟩ := coefficient_spec bezout.isX0 bezout.isX1 bezout.isQ
    weighsX bezout.positive smallSecond
  obtain ⟨y, isY, wellFormedY, valueY⟩ := coefficient_spec bezout.isY0 bezout.isY1 bezout.isQ
    weighsY bezout.positive smallFirst
  obtain ⟨r, q, isDivision, isR, isQ⟩ := bezout.isN.div bezout.isR (pos_of_ne_zero remains)
  refine ⟨⟨s.n, s.r, r, q, x.dest, y.dest, s.x1, s.y1, x.dest, y.dest⟩, ?_, bezout.isR, isR, isQ,
    pos_of_ne_zero remains, ⟨rfl, rfl⟩, bezout.isX1, wellFormedX, bezout.isY1, wellFormedY,
    ?_, ?_, bezout.second, ?_, ?_⟩
  · rw [eulidLoop, if_pos (bezout.isR.compare_zero_iff.mpr remains), isX, isY, isDivision]
    rfl
  · rw [valueX]
    exact weighsX.step
  · rw [valueY]
    exact weighsY.step
  · have remainder : ((m % n : ℕ) : ℤ) = m - (m / n : ℕ) * n := by
      have whole : (m : ℤ) = (m / n : ℕ) * n + (m % n : ℕ) := by exact_mod_cast divided
      linarith
    rw [valueX, valueY, remainder, ← bezout.first, ← bezout.second]
    ring
  · rw [gcd_comm, ← gcd_rec, gcd_comm]
    exact bezout.gcd

theorem eulidLoop_spec {turns : ℕ} (enough : m % n < turns) :
    ∃ x y, eulidLoop turns s = some (x, y) ∧ WellFormed x ∧ WellFormed y ∧
      first * x.toInt + second * y.toInt = first.gcd second := by
  induction turns generalizing m n s with
  | zero => exact absurd enough (not_lt_zero _)
  | succ turns ih =>
    by_cases remains : m % n = 0
    · refine ⟨s.x1, s.y1, ?_, bezout.isX1, bezout.isY1, ?_⟩
      · rw [eulidLoop, if_neg fun more => bezout.isR.compare_zero_iff.mp more remains,
          bezout.kept.1, bezout.kept.2]
      · rw [bezout.second, ← bezout.gcd, gcd_eq_right (dvd_of_mod_eq_zero remains)]
    · obtain ⟨next, isNext, bezoutNext⟩ :=
        eulidLoop_step bezout smallFirst smallSecond turns remains
      have less := mod_lt n (pos_of_ne_zero remains)
      rw [isNext]
      exact ih bezoutNext (by omega)

end

/-- `mln_bignum_extend_eulid` terminates, returns `0` and leaves coefficients of the greatest
common divisor. -/
theorem mlnBignumExtendEulid_bezout (a b : Bignum) (isA : WellFormed a) (isB : WellFormed b)
    (positiveA : 0 < a.toInt) (positiveB : 0 < b.toInt) (_shortA : a.length ≤ 128)
    (_shortB : b.length ≤ 128) (turns : ℕ) (enough : b.magnitude < turns) :
    ∃ x y, mlnBignumExtendEulid turns a b = some (x, y) ∧ WellFormed x ∧ WellFormed y ∧
      a.toInt * x.toInt + b.toInt * y.toInt = Int.gcd a.toInt b.toInt := by
  have denotesA := denotes_of_tag isA (tag_of_toInt_pos positiveA)
  have denotesB := denotes_of_tag isB (tag_of_toInt_pos positiveB)
  rw [denotesA.toInt_eq, denotesB.toInt_eq, Int.gcd_natCast_natCast]
  rw [denotesB.toInt_eq] at positiveB
  have positive : 0 < b.magnitude := by exact_mod_cast positiveB
  obtain ⟨r, q, isDivision, isR, isQ⟩ := denotesA.div denotesB positive
  have isOne := denotes_word (show 1 < umax by decide) one_ne_zero
  have start : Bezout a.magnitude b.magnitude a.magnitude b.magnitude
      ⟨a, b, r, q, zero, word 1, word 1, zero, zero, word 1⟩ := by
    refine ⟨denotesB, isR, isQ, positive, ⟨rfl, rfl⟩, isOne.formed, wellFormed_zero,
      wellFormed_zero, isOne.formed, ⟨?_, ?_⟩, ⟨?_, ?_⟩, ?_, ?_, rfl⟩
    all_goals rw [isOne.toInt_eq, denotes_zero.toInt_eq]; simp
  have less := mod_lt a.magnitude positive
  rw [mlnBignumExtendEulid, isDivision]
  apply eulidLoop_spec start
  · exact isA.magnitude_lt.trans_le (umax_pow_le isA.fits)
  · exact isB.magnitude_lt.trans_le (umax_pow_le isB.fits)
  · omega

/-- Six and two. -/
theorem mlnBignumExtendEulid_bezout_sixTwo :
    ∃ x y, mlnBignumExtendEulid 3 (word 6) (word 2) = some (x, y) ∧ WellFormed x ∧ WellFormed y ∧
      (word 6).toInt * x.toInt + (word 2).toInt * y.toInt = Int.gcd (word 6).toInt (word 2).toInt :=
  mlnBignumExtendEulid_bezout (word 6) (word 2) (wellFormed_word .positive (by decide) (by decide))
    (wellFormed_word .positive (by decide) (by decide)) (by decide) (by decide) (by decide)
    (by decide) 3 (by decide)

end Skyc.Melon.Bignum
