import Skyc.Lib.Positional
import Skyc.Melon.Bignum.Model

/-!
# Sums and differences

A well-formed number denotes an integer.  The loops of `mln_bignum.c` are
described by what they do to segments of words.
-/

namespace Skyc.Melon.Bignum

open Skyc.Lib Function Option Nat Operands

def magnitude (number : Bignum) : ℕ :=
  segment umax number.data 0 number.length

def toInt (number : Bignum) : ℤ :=
  match number.tag with
  | .positive => number.magnitude
  | .negative => -number.magnitude

/-- Every word is a digit, the words above the length are zero, and the
highest word is not. -/
structure WellFormed (number : Bignum) : Prop where
  fits : number.length ≤ size
  digits : ∀ i, number.data i < umax
  above : ∀ i, number.length ≤ i → number.data i = 0
  top : 0 < number.length → number.data (number.length - 1) ≠ 0

variable {a b : Bignum}

@[simp]
theorem magnitude_withTag (tag : Tag) : (a.withTag tag).magnitude = a.magnitude := rfl

theorem WellFormed.withTag (formed : WellFormed a) (tag : Tag) : WellFormed (a.withTag tag) :=
  { formed with }

theorem wellFormed_zero : WellFormed zero where
  fits := by decide
  digits _ := Nat.two_pow_pos 32
  above _ _ := rfl
  top impossible := absurd impossible (by decide)

variable {n : ℕ}

theorem WellFormed.segment_eq (formed : WellFormed a) (reaches : a.length ≤ n) :
    segment umax a.data 0 n = a.magnitude :=
  segment_of_le reaches fun i from_ _ => formed.above i (by omega)

theorem WellFormed.magnitude_lt (formed : WellFormed a) :
    a.magnitude < umax ^ a.length := segment_lt fun i _ _ => formed.digits i

theorem WellFormed.le_magnitude (formed : WellFormed a) (isLength : a.length = n + 1) :
    umax ^ n ≤ a.magnitude := by
  rw [magnitude, isLength]
  apply le_segment
  have top := formed.top (by omega)
  rw [isLength, Nat.add_sub_cancel] at top
  rwa [zero_add]

theorem umax_pow_le {m : ℕ} (le : m ≤ n) : umax ^ m ≤ umax ^ n :=
  Nat.pow_le_pow_right (by decide) le

theorem WellFormed.magnitude_lt_of_length_lt (formedA : WellFormed a)
    (formedB : WellFormed b) (shorter : a.length < b.length) : a.magnitude < b.magnitude := by
  obtain ⟨n, isLength⟩ := Nat.exists_eq_add_of_lt shorter
  calc
    a.magnitude < umax ^ a.length := formedA.magnitude_lt
    _ ≤ umax ^ (a.length + n) := umax_pow_le (by omega)
    _ ≤ b.magnitude := formedB.le_magnitude isLength

variable {data : Words} {tag : Tag}

/-- A result is a number of a given length when the value is large enough for its highest word. -/
theorem wellFormed_of_le
    (fits : n ≤ size) (digits : ∀ i, data i < umax) (above : ∀ i, n ≤ i → data i = 0)
    (large : ∀ m, n = m + 1 → umax ^ m ≤ segment umax data 0 n) : WellFormed ⟨tag, n, data⟩ where
  fits := fits
  digits := digits
  above := above
  top positive := by
    obtain ⟨m, isLength⟩ := Nat.exists_eq_succ_of_ne_zero positive.ne'
    change n = m + 1 at isLength
    have value := large m isLength
    rw [isLength] at value
    have top := ne_zero_of_le_segment (fun i _ _ => digits i) value
    change data (n - 1) ≠ 0
    rwa [isLength, Nat.add_sub_cancel, ← zero_add m]

theorem sub64_eq {x y : ℕ} (le : y ≤ x) (small : x < 2 ^ 64) : sub64 x y = x - y := by
  rw [sub64, u64]
  omega

theorem u64_eq {x : ℕ} (small : x < 2 ^ 64) : u64 x = x := mod_eq_of_lt small

/-! ## Comparison -/

theorem compareWords_eq {data1 data2 : Words} (digits1 : ∀ i, data1 i < umax)
    (digits2 : ∀ i, data2 i < umax) (n : ℕ) :
    compareWords data1 data2 n = Ord.compare (segment umax data1 0 n) (segment umax data2 0 n) := by
  induction n with
  | zero => rfl
  | succ n ih =>
    rw [compareWords]
    by_cases greater : data1 n > data2 n
    · rw [if_pos greater]
      symm
      rw [Nat.compare_eq_gt]
      exact segment_lt_segment (fun i _ _ => digits2 i) (by simpa using greater)
    · rw [if_neg greater]
      by_cases less : data1 n < data2 n
      · rw [if_pos less]
        symm
        rw [Nat.compare_eq_lt]
        exact segment_lt_segment (fun i _ _ => digits1 i) (by simpa using less)
      · have same : data1 n = data2 n := by omega
        rw [if_neg less, ih, segment_succ, segment_succ, zero_add, same]
        simp only [Nat.compare_eq_ite_lt, Nat.add_lt_add_iff_right]

section

variable (formedA : WellFormed a) (formedB : WellFormed b)
include formedA formedB

theorem absCompare_eq :
    absCompare a b = Ord.compare a.magnitude b.magnitude := by
  rw [absCompare]
  by_cases lengths : a.length = b.length
  · rw [if_neg (not_not_intro lengths)]
    split
    · rename_i isEmpty
      rw [magnitude, magnitude, ← lengths, isEmpty]
      rfl
    · rw [compareWords_eq formedA.digits formedB.digits, magnitude, magnitude, lengths]
  · rw [if_pos lengths]
    split
    · rename_i longer
      exact (Nat.compare_eq_gt.mpr (formedB.magnitude_lt_of_length_lt formedA longer)).symm
    · exact (Nat.compare_eq_lt.mpr (formedA.magnitude_lt_of_length_lt formedB (by omega))).symm

/-- Numbers with the same tag and length are compared by their magnitudes,
also when the tag is negative. -/
theorem compare_of_length_eq (sameTag : a.tag = b.tag) (lengths : a.length = b.length) :
    compare a b = Ord.compare a.magnitude b.magnitude := by
  rw [compare, if_neg (not_not_intro sameTag), if_neg (not_not_intro lengths)]
  split
  · rename_i isEmpty
    rw [magnitude, magnitude, ← lengths, isEmpty.2]
    rfl
  · rw [compareWords_eq formedA.digits formedB.digits, magnitude, magnitude, lengths]

theorem compare_of_length_ne (sameTag : a.tag = b.tag) (lengths : a.length ≠ b.length) :
    compare a b = if a.tag = .positive then Ord.compare a.magnitude b.magnitude
      else Ord.compare b.magnitude a.magnitude := by
  have notEmpty : ¬ (a.length = b.length ∧ a.length = 0) := fun both => lengths both.1
  rw [compare, if_neg notEmpty, if_neg (not_not_intro sameTag), if_pos lengths]
  by_cases longer : a.length > b.length
  · have greater := formedB.magnitude_lt_of_length_lt formedA longer
    rw [if_pos longer, if_pos longer, Nat.compare_eq_gt.mpr greater, Nat.compare_eq_lt.mpr greater]
  · have less := formedA.magnitude_lt_of_length_lt formedB (by omega)
    rw [if_neg longer, if_neg longer, Nat.compare_eq_gt.mpr less, Nat.compare_eq_lt.mpr less]

end

/-! ## Loops with a carry or a borrow -/

namespace Operands

variable {operands : Operands}

@[simp]
theorem write_dest_data (i value : ℕ) :
    (operands.write i value).dest.data = update operands.dest.data i value := rfl

theorem write_src_data {i j : ℕ} (value : ℕ) (apart : j ≠ i) :
    (operands.write i value).src.data j = operands.src.data j := by
  cases isOther : operands.other with
  | none =>
    simp only [src, write, setDest, isOther, getD_none]
    exact update_of_ne apart _ _
  | some other => simp only [src, write, setDest, isOther, getD_some]

theorem write_src_digit {i value : ℕ} (isDigit : value < umax)
    (digits : ∀ j, operands.src.data j < umax) (j : ℕ) :
    (operands.write i value).src.data j < umax := by
  by_cases same : j = i
  · cases isOther : operands.other with
    | none =>
      simp only [src, write, setDest, isOther, getD_none, same, update_self]
      exact isDigit
    | some other =>
      have old := digits j
      simp only [src, write, setDest, isOther, getD_some] at old ⊢
      exact old
  · rw [write_src_data value same]
    exact digits j

end Operands

theorem update_digit {i value : ℕ} (isDigit : value < umax) (digits : ∀ j, data j < umax) (j : ℕ) :
    update data i value j < umax := by
  by_cases same : j = i
  · rw [same, update_self]
    exact isDigit
  · rw [update_of_ne same]
    exact digits j

theorem addLoop_step (srcLonger : Bool) (n i : ℕ) {carry : ℕ}
    {operands : Operands} (isCarry : carry ≤ 1) (destDigits : ∀ j, operands.dest.data j < umax)
    (srcDigits : ∀ j, operands.src.data j < umax) :
    ∃ value next, next ≤ 1 ∧ value < umax ∧
      value + umax * next = operands.dest.data i + operands.src.data i + carry ∧
      addLoop srcLonger (n + 1) i carry operands =
        addLoop srcLonger n (i + 1) next (operands.write i value) := by
  have base : umax = 2 ^ 32 := rfl
  have destDigit := destDigits i
  have srcDigit := srcDigits i
  have isSum : u64 ((if srcLonger then operands.src else operands.dest).data i +
      (if srcLonger then operands.dest else operands.src).data i + carry) =
        operands.dest.data i + operands.src.data i + carry := by
    cases srcLonger with
    | true =>
      simp only [if_true]
      rw [u64_eq (by omega)]
      omega
    | false =>
      simp only [Bool.false_eq_true, if_false]
      rw [u64_eq (by omega)]
  rw [addLoop]
  simp only [isSum]
  by_cases overflow : umax ≤ operands.dest.data i + operands.src.data i + carry
  · refine ⟨operands.dest.data i + operands.src.data i + carry - umax, 1,
      le_refl 1, by omega, by omega, ?_⟩
    rw [if_pos overflow, sub64_eq overflow (by omega)]
  · exact ⟨_, 0, by omega, by omega, by omega, if_neg overflow⟩

/-- What the loop of `__mln_bignum_add` leaves. -/
structure Added (n i carry : ℕ) (operands : Operands) (result : Operands × ℕ) : Prop where
  tag : result.1.dest.tag = operands.dest.tag
  other : result.1.other = operands.other
  isCarry : result.2 ≤ 1
  digits : ∀ j, result.1.dest.data j < umax
  outside : ∀ j, j < i ∨ i + n ≤ j → result.1.dest.data j = operands.dest.data j
  value : segment umax result.1.dest.data i n + umax ^ n * result.2 =
    segment umax operands.dest.data i n + segment umax operands.src.data i n + carry

theorem addLoop_spec (srcLonger : Bool) {i carry : ℕ} {operands : Operands}
    (isCarry : carry ≤ 1) (destDigits : ∀ j, operands.dest.data j < umax)
    (srcDigits : ∀ j, operands.src.data j < umax) :
    Added n i carry operands (addLoop srcLonger n i carry operands) := by
  induction n generalizing i carry operands with
  | zero => exact ⟨rfl, rfl, isCarry, destDigits, fun _ _ => rfl, by simp [addLoop]⟩
  | succ n ih =>
    obtain ⟨value, next, isNext, isDigit, sum, step⟩ :=
      addLoop_step srcLonger n i isCarry destDigits srcDigits
    have rest := @ih (i + 1) next (operands.write i value)
      isNext (update_digit isDigit destDigits) (write_src_digit isDigit srcDigits)
    rw [step]
    generalize addLoop srcLonger n (i + 1) next (operands.write i value) = result at rest
    have here : result.1.dest.data i = value := by
      rw [rest.outside i (by omega), write_dest_data, update_self]
    have destRest : segment umax (operands.write i value).dest.data (i + 1) n =
      segment umax operands.dest.data (i + 1) n := segment_update value (by omega)
    have srcRest : segment umax (operands.write i value).src.data (i + 1) n =
          segment umax operands.src.data (i + 1) n := segment_congr fun j from_ _ =>
        write_src_data value (by omega)
    refine ⟨rest.tag, rest.other, rest.isCarry, rest.digits, ?_, ?_⟩
    · intro j outside
      rw [rest.outside j (by omega), write_dest_data, update_of_ne (by omega)]
    · have others := rest.value
      rw [destRest, srcRest] at others
      have total := carry_step sum others
      rw [segment_succ_front, here, segment_succ_front, segment_succ_front]
      linarith

theorem length_add_eq (operands : Operands) :
    (if decide (operands.dest.length < operands.src.length) then
      operands.src.length else operands.dest.length) =
        max operands.dest.length operands.src.length := by
  simp only [decide_eq_true_eq]
  split
  · omega
  · omega

theorem le_add_of_max {m : ℕ} (formedA : WellFormed a)
    (formedB : WellFormed b) (isMax : max a.length b.length = n) (isSucc : n = m + 1) :
    umax ^ m ≤ a.magnitude + b.magnitude := by
  rcases le_total a.length b.length with le | le
  · have large := formedB.le_magnitude (n := m) (by omega)
    omega
  · have large := formedA.le_magnitude (n := m) (by omega)
    omega

theorem addSameTag_spec {operands : Operands}
    (dest : WellFormed operands.dest) (src : WellFormed operands.src)
    (fits : operands.dest.magnitude + operands.src.magnitude < umax ^ size) :
    WellFormed (addSameTag operands).dest ∧
      (addSameTag operands).dest.magnitude = operands.dest.magnitude + operands.src.magnitude ∧
      (addSameTag operands).dest.tag = operands.dest.tag ∧
      (addSameTag operands).other = operands.other := by
  have added := addLoop_spec (decide (operands.dest.length < operands.src.length))
    (n := max operands.dest.length operands.src.length) (i := 0)
    (zero_le 1) dest.digits src.digits
  simp only [addSameTag, length_add_eq]
  generalize isLength : max operands.dest.length operands.src.length = n at added
  generalize addLoop _ n 0 0 operands = result at added
  obtain ⟨after, carry⟩ := result
  have value := added.value
  have large : ∀ m, n = m + 1 → umax ^ m ≤ operands.dest.magnitude + operands.src.magnitude :=
    fun m isSucc => le_add_of_max dest src isLength isSucc
  have zeros : ∀ j, n ≤ j → after.dest.data j = 0 := by
    intro j above
    rw [added.outside j (by omega)]
    exact dest.above j (by omega)
  rw [dest.segment_eq (by omega), src.segment_eq (by omega), add_zero] at value
  have lengthFits : n ≤ size := by
    have destFits := dest.fits
    have srcFits := src.fits
    omega
  simp only at value ⊢
  split
  · rename_i carries
    have isOne : carry = 1 := by
      have isCarry := added.isCarry
      omega
    have written : u64 (after.dest.data n + carry) = 1 := by
      rw [zeros n (le_refl n), isOne]
      rfl
    rw [written]
    have newValue : segment umax (update after.dest.data n 1) 0
        (n + 1) = operands.dest.magnitude + operands.src.magnitude := by
      rw [segment_succ, segment_update 1 (by omega), zero_add, update_self]
      rw [isOne] at value
      linarith
    refine ⟨wellFormed_of_le carries.2 (update_digit (by decide) added.digits)
      ?_ ?_, newValue, added.tag, added.other⟩
    · intro j above
      rw [update_of_ne (by omega)]
      exact zeros j (by omega)
    · intro m isSucc
      obtain rfl : n = m := by omega
      rw [newValue, ← value, isOne, mul_one]
      exact le_add_left _ _
  · rename_i noCarry
    have isZero : carry = 0 := by
      by_contra carries
      have atEnd : n = size := by
        by_contra room
        exact noCarry ⟨carries, by omega⟩
      have overflow : umax ^ size * 1 ≤ umax ^ size * carry :=
        mul_le_mul_left _ (pos_of_ne_zero carries)
      rw [atEnd] at value
      omega
    rw [isZero, mul_zero, add_zero] at value
    refine ⟨wellFormed_of_le lengthFits added.digits zeros ?_, value, added.tag, added.other⟩
    intro m isSucc
    rw [value]
    exact large m isSucc

structure Subtracted (src : Words) (n i borrow : ℕ) (dest : Words) (result : Words × ℕ) : Prop where
  isBorrow : result.2 ≤ 1
  digits : ∀ j, result.1 j < umax
  outside : ∀ j, j < i ∨ i + n ≤ j → result.1 j = dest j
  value : segment umax dest i n + umax ^ n * result.2 =
    segment umax result.1 i n + segment umax src i n + borrow

theorem subLoop_step {src dest : Words} (n i : ℕ) {borrow : ℕ}
    (isBorrow : borrow ≤ 1) (destDigits : ∀ j, dest j < umax) (srcDigits : ∀ j, src j < umax) :
    ∃ value next, next ≤ 1 ∧ value < umax ∧ dest i + umax * next = value + src i + borrow ∧
      subLoop src (n + 1) i borrow dest = subLoop src n (i + 1) next (update dest i value) := by
  have base : umax = 2 ^ 32 := rfl
  have destDigit := destDigits i
  have srcDigit := srcDigits i
  rw [subLoop, u64_eq (by omega), u64_eq (by omega)]
  by_cases underflow : src i + borrow > dest i
  · refine ⟨dest i + umax - (src i + borrow), 1, le_refl 1, by omega, by omega, ?_⟩
    rw [if_pos underflow, sub64_eq (by omega) (by omega)]
  · refine ⟨dest i - (src i + borrow), 0, by omega, by omega, by omega, ?_⟩
    rw [if_neg underflow, sub64_eq (by omega) (by omega)]

theorem subLoop_spec {src dest : Words} {i borrow : ℕ}
    (isBorrow : borrow ≤ 1) (destDigits : ∀ j, dest j < umax) (srcDigits : ∀ j, src j < umax) :
    Subtracted src n i borrow dest (subLoop src n i borrow dest) := by
  induction n generalizing i borrow dest with
  | zero => exact ⟨isBorrow, destDigits, fun _ _ => rfl, by simp [subLoop]⟩
  | succ n ih =>
    obtain ⟨value, next, isNext, isDigit, difference, step⟩ :=
      subLoop_step n i isBorrow destDigits srcDigits
    have rest := @ih (update dest i value) (i + 1) next isNext (update_digit isDigit destDigits)
    rw [step]
    generalize subLoop src n (i + 1) next (update dest i value) = result at rest
    have here : result.1 i = value := by rw [rest.outside i (by omega), update_self]
    refine ⟨rest.isBorrow, rest.digits, ?_, ?_⟩
    · intro j outside
      rw [rest.outside j (by omega), update_of_ne (by omega)]
    · have others := rest.value
      rw [segment_update value (by omega)] at others
      have total := carry_step difference others
      rw [segment_succ_front, segment_succ_front, segment_succ_front, here]
      linarith

/-! ## Lengths without zeros at the top -/

theorem trim_le (data : Words) (n : ℕ) : trim data n ≤ n := by
  induction n with
  | zero => exact le_refl 0
  | succ n ih =>
    rw [trim]
    split
    · exact le_refl (n + 1)
    · omega

theorem trim_zeros (i : ℕ) (above : trim data n ≤ i) (below : i < n) : data i = 0 := by
  induction n with
  | zero => omega
  | succ n ih =>
    rw [trim] at above
    split at above
    · omega
    · rename_i isZero
      by_cases last : i = n
      · rw [last]
        exact not_not.mp isZero
      · exact ih above (by omega)

theorem trim_top (positive : 0 < trim data n) : data (trim data n - 1) ≠ 0 := by
  induction n with
  | zero => cases positive
  | succ n ih =>
    rw [trim] at positive ⊢
    split
    · rename_i nonzero
      exact nonzero
    · rename_i isZero
      rw [if_neg isZero] at positive
      exact ih positive

theorem wellFormed_trim (tag : Tag)
    (fits : n ≤ size) (digits : ∀ i, data i < umax) (above : ∀ i, n ≤ i → data i = 0) :
    WellFormed ⟨tag, trim data n, data⟩ ∧
      magnitude ⟨tag, trim data n, data⟩ = segment umax data 0 n := by
  have zeros : ∀ i, trim data n ≤ i → data i = 0 := by
    intro i from_
    by_cases below : i < n
    · exact trim_zeros i from_ below
    · exact above i (by omega)
  refine ⟨⟨le_trans (trim_le data n) fits, digits, zeros, trim_top⟩, ?_⟩
  exact (segment_of_le (trim_le data n) fun i from_ _ => zeros i (by omega)).symm

/-! ## Differences -/

theorem subCore_spec (formedA : WellFormed a) (formedB : WellFormed b)
    (le : b.magnitude ≤ a.magnitude) :
    ∃ result, subCore a b = some result ∧ WellFormed result ∧
      result.magnitude = a.magnitude - b.magnitude ∧ result.tag = a.tag := by
  have notLonger : b.length ≤ a.length := by
    by_contra longer
    have less := formedA.magnitude_lt_of_length_lt formedB (by omega)
    omega
  have subtracted := subLoop_spec (n := a.length) (i := 0) (zero_le 1) formedA.digits formedB.digits
  rw [subCore]
  generalize subLoop b.data a.length 0 0 a.data = result at subtracted
  obtain ⟨data, borrow⟩ := result
  have value := subtracted.value
  rw [formedA.segment_eq (le_refl _), formedB.segment_eq notLonger, add_zero] at value
  have small : segment umax data 0 a.length < umax ^ a.length :=
    segment_lt fun i _ _ => subtracted.digits i
  simp only at value small ⊢
  have isZero : borrow = 0 := by
    by_contra borrows
    have bound : umax ^ a.length * 1 ≤ umax ^ a.length * borrow :=
      mul_le_mul_left _ (pos_of_ne_zero borrows)
    omega
  rw [isZero, mul_zero, add_zero] at value
  have trimmed := wellFormed_trim a.tag formedA.fits subtracted.digits fun i from_ => by
    rw [subtracted.outside i (by omega)]
    exact formedA.above i from_
  rw [if_pos isZero]
  refine ⟨_, rfl, trimmed.1, ?_, rfl⟩
  rw [trimmed.2]
  change segment umax data 0 a.length = a.magnitude - b.magnitude
  omega

/-- The assertion of `__mln_bignum_sub_core` fails on a smaller magnitude of
the same length. -/
theorem subCore_eq_none (formedA : WellFormed a)
    (formedB : WellFormed b) (lengths : a.length = b.length)
    (less : a.magnitude < b.magnitude) : subCore a b = none := by
  have subtracted := subLoop_spec (n := a.length) (i := 0) (zero_le 1) formedA.digits formedB.digits
  rw [subCore]
  generalize subLoop b.data a.length 0 0 a.data = result at subtracted
  obtain ⟨data, borrow⟩ := result
  have value := subtracted.value
  rw [formedA.segment_eq (le_refl _), formedB.segment_eq lengths.symm.le] at value
  simp only at value ⊢
  apply if_neg
  intro isZero
  rw [isZero, mul_zero] at value
  omega

@[simp]
theorem toInt_withTag_positive : (a.withTag .positive).toInt = a.magnitude := rfl

@[simp]
theorem toInt_withTag_negative : (a.withTag .negative).toInt = -a.magnitude := rfl

theorem toInt_of_positive (isTag : a.tag = .positive) : a.toInt = a.magnitude := by
  rw [toInt, isTag]

theorem toInt_of_negative (isTag : a.tag = .negative) : a.toInt = -a.magnitude := by
  rw [toInt, isTag]

theorem toInt_zero : zero.toInt = 0 := rfl

namespace Operands

variable {operands : Operands} {number : Bignum}

variable {other : Bignum}

theorem setSrc_of_some (isOther : operands.other = some other) :
    operands.setSrc number = ⟨operands.dest, some number⟩ := by
  simp only [setSrc, isOther]

theorem src_of_some (isOther : operands.other = some other) : operands.src = other := by
  simp only [src, isOther, getD_some]

theorem exists_other (apart : operands.dest ≠ operands.src) :
    ∃ other, operands.other = some other := by
  cases isOther : operands.other with
  | none =>
    rw [src, isOther] at apart
    exact absurd rfl apart
  | some other => exact ⟨other, rfl⟩

end Operands

theorem withTag_of_tag (isTag : a.tag = tag) : a.withTag tag = a := by
  rw [← isTag]
  rfl

theorem tag_of_ne_negative (isTag : a.tag = .negative) (apart : a.tag ≠ b.tag) :
    b.tag = .positive := by
  cases other : b.tag with
  | positive => rfl
  | negative => exact absurd (isTag.trans other.symm) apart

theorem tag_of_ne_positive (isTag : a.tag = .positive) (apart : a.tag ≠ b.tag) :
    b.tag = .negative := by
  cases other : b.tag with
  | positive => exact absurd (isTag.trans other.symm) apart
  | negative => rfl

/-- An operation leaves a well-formed number that denotes `value`, and nothing
else has changed. -/
def Yields (operands : Operands) (value : ℤ) (result : Option Operands) : Prop :=
  ∃ after, result = some after ∧ WellFormed after.dest ∧
    after.dest.toInt = value ∧ after.other = operands.other

/-- The numbers that `mln_bignum_sub` cannot subtract: both negative and
different, but of the same length. -/
def Clash (operands : Operands) : Prop :=
  operands.dest.tag = .negative ∧ operands.src.tag = .negative ∧
    operands.dest.length = operands.src.length ∧ operands.dest.toInt ≠ operands.src.toInt

section

variable {operands : Operands} (dest : WellFormed operands.dest) (src : WellFormed operands.src)
include dest src

theorem subSameTag_positive
    (destTag : operands.dest.tag = .positive) (srcTag : operands.src.tag = .positive) :
    Yields operands (operands.dest.magnitude - operands.src.magnitude) (subSameTag operands) := by
  have compared : compare operands.dest operands.src =
      Ord.compare operands.dest.magnitude operands.src.magnitude := by
    by_cases lengths : operands.dest.length = operands.src.length
    · exact compare_of_length_eq dest src (destTag.trans srcTag.symm) lengths
    · rw [compare_of_length_ne dest src (destTag.trans srcTag.symm) lengths, if_pos destTag]
  have notNegative : operands.dest.tag ≠ .negative := by
    rw [destTag]
    decide
  rw [subSameTag, compared]
  rcases Nat.lt_trichotomy operands.dest.magnitude operands.src.magnitude with
    less | same | greater
  · obtain ⟨tmp, subtracts, formed, value, -⟩ := subCore_spec src dest less.le
    rw [Nat.compare_eq_lt.mpr less]
    simp only [if_neg notNegative, subtracts]
    refine ⟨_, rfl, formed.withTag _, ?_, rfl⟩
    change (tmp.withTag .negative).toInt = _
    rw [toInt_withTag_negative, value]
    omega
  · rw [Nat.compare_eq_eq.mpr same]
    refine ⟨_, rfl, wellFormed_zero, ?_, rfl⟩
    change zero.toInt = _
    rw [toInt_zero, same]
    omega
  · obtain ⟨result, subtracts, formed, value, isTag⟩ := subCore_spec dest src greater.le
    rw [Nat.compare_eq_gt.mpr greater]
    simp only [if_neg notNegative, subtracts]
    refine ⟨_, rfl, formed, ?_, rfl⟩
    change result.toInt = _
    rw [toInt_of_positive (isTag.trans destTag), value]
    omega

theorem subSameTag_negative
    (destTag : operands.dest.tag = .negative) (srcTag : operands.src.tag = .negative)
    (lengths : operands.dest.length ≠ operands.src.length) :
    Yields operands (operands.src.magnitude - operands.dest.magnitude) (subSameTag operands) := by
  obtain ⟨other, isOther⟩ := Operands.exists_other fun same => lengths (congrArg length same)
  have isSrc := Operands.src_of_some isOther
  rw [isSrc] at src srcTag lengths ⊢
  have compared : compare operands.dest operands.src =
      Ord.compare other.magnitude operands.dest.magnitude := by
    rw [isSrc, compare_of_length_ne dest src (destTag.trans srcTag.symm)
      lengths, if_neg (by rw [destTag]; decide)]
  rw [subSameTag, compared]
  rcases Nat.lt_or_gt_of_ne lengths with shorter | longer
  · have less := dest.magnitude_lt_of_length_lt src shorter
    obtain ⟨tmp, subtracts, formed, value, -⟩ :=
      subCore_spec (src.withTag .positive) (dest.withTag .positive) less.le
    rw [Nat.compare_eq_gt.mpr less]
    simp only [if_pos destTag, isSrc, Operands.setDest, subtracts]
    refine ⟨_, rfl, formed.withTag _, ?_, rfl⟩
    rw [toInt_withTag_positive, value]
    simp only [magnitude_withTag]
    omega
  · have greater := src.magnitude_lt_of_length_lt dest longer
    obtain ⟨result, subtracts, formed, value, -⟩ :=
      subCore_spec (dest.withTag .positive) (src.withTag .positive) greater.le
    rw [Nat.compare_eq_lt.mpr greater]
    simp only [if_pos destTag, Operands.setDest, Operands.setSrc,
      Operands.src, isOther, getD_some, subtracts]
    refine ⟨_, rfl, formed.withTag _, ?_, ?_⟩
    · rw [toInt_withTag_negative, value]
      simp only [magnitude_withTag]
      omega
    · rw [isOther]
      exact congrArg some (withTag_of_tag srcTag)

/-- The difference of two negative numbers of the same length: the assertion of
`__mln_bignum_sub_core` fails unless they are equal. -/
theorem subSameTag_negative_sameLength
    (destTag : operands.dest.tag = .negative) (srcTag : operands.src.tag = .negative)
    (lengths : operands.dest.length = operands.src.length) :
    subSameTag operands = if operands.dest.magnitude = operands.src.magnitude then
        some (operands.setDest zero)
      else
        none := by
  have compared := compare_of_length_eq dest src (destTag.trans srcTag.symm) lengths
  rw [subSameTag, compared]
  rcases Nat.lt_trichotomy operands.dest.magnitude operands.src.magnitude with
    less | same | greater
  · obtain ⟨other, isOther⟩ := Operands.exists_other fun same =>
      Nat.ne_of_lt less (congrArg magnitude same)
    have isSrc := Operands.src_of_some isOther
    rw [Nat.compare_eq_lt.mpr less, if_neg less.ne]
    rw [isSrc] at src lengths less
    have fails := subCore_eq_none (dest.withTag .positive) (src.withTag .positive) lengths less
    simp only [if_pos destTag, Operands.setDest, Operands.setSrc,
      Operands.src, isOther, getD_some, fails]
    rfl
  · rw [Nat.compare_eq_eq.mpr same, if_pos same]
  · have fails := subCore_eq_none (src.withTag .positive)
      (dest.withTag .positive) lengths.symm greater
    rw [Nat.compare_eq_gt.mpr greater, if_neg greater.ne']
    simp only [if_pos destTag, Operands.setDest, fails]
    rfl

/-! ## Sums and differences of integers -/

theorem addSameTag_yields (sameTag : operands.dest.tag = operands.src.tag)
    (fits : operands.dest.magnitude + operands.src.magnitude < umax ^ size) :
    Yields operands (operands.dest.toInt + operands.src.toInt) (some (addSameTag operands)) := by
  obtain ⟨formed, value, isTag, sameOther⟩ := addSameTag_spec dest src fits
  refine ⟨_, rfl, formed, ?_, sameOther⟩
  cases destTag : operands.dest.tag with
  | positive =>
    rw [toInt_of_positive (isTag.trans destTag), toInt_of_positive destTag,
      toInt_of_positive (sameTag.symm.trans destTag), value]
    omega
  | negative =>
    rw [toInt_of_negative (isTag.trans destTag), toInt_of_negative destTag,
      toInt_of_negative (sameTag.symm.trans destTag), value]
    omega

theorem add_differentTags (apart : operands.dest.tag ≠ operands.src.tag) :
    Yields operands (operands.dest.toInt + operands.src.toInt) (add operands) := by
  obtain ⟨other, isOther⟩ := exists_other fun same => apart (congrArg tag same)
  have isSrc := src_of_some isOther
  rw [add, if_pos apart]
  rw [isSrc] at src apart ⊢
  cases destTag : operands.dest.tag with
  | negative =>
    have srcTag := tag_of_ne_negative destTag apart
    obtain ⟨after, subtracts, formed, value, -⟩ :=
      @subSameTag_positive ⟨other, some (operands.dest.withTag .positive)⟩ src
        (dest.withTag .positive) srcTag rfl
    simp only [setDest, subtracts]
    refine ⟨_, rfl, formed, ?_, rfl⟩
    rw [toInt_of_negative destTag, toInt_of_positive srcTag]
    change after.dest.toInt = _
    rw [value]
    change (other.magnitude : ℤ) - operands.dest.magnitude = _
    omega
  | positive =>
    have srcTag := tag_of_ne_positive destTag apart
    obtain ⟨after, subtracts, formed, value, sameOther⟩ :=
      @subSameTag_positive ⟨operands.dest, some (other.withTag .positive)⟩
        dest (src.withTag .positive) destTag rfl
    rw [if_neg (by decide), setSrc_of_some isOther]
    simp only [subtracts]
    refine ⟨_, rfl, ?_, ?_, ?_⟩
    · rw [setSrc_of_some sameOther]
      exact formed
    · rw [setSrc_of_some sameOther, toInt_of_positive destTag, toInt_of_negative srcTag, value]
      change (operands.dest.magnitude : ℤ) - other.magnitude = _
      omega
    · rw [setSrc_of_some sameOther, src_of_some sameOther, isOther]
      exact congrArg some (withTag_of_tag srcTag)

theorem add_yields (fits : (operands.dest.toInt + operands.src.toInt).natAbs < umax ^ size) :
    Yields operands (operands.dest.toInt + operands.src.toInt) (add operands) := by
  by_cases sameTag : operands.dest.tag = operands.src.tag
  · rw [add, if_neg (not_not_intro sameTag)]
    apply addSameTag_yields dest src sameTag
    cases destTag : operands.dest.tag with
    | positive =>
      rw [toInt_of_positive destTag, toInt_of_positive (sameTag.symm.trans destTag)] at fits
      omega
    | negative =>
      rw [toInt_of_negative destTag, toInt_of_negative (sameTag.symm.trans destTag)] at fits
      omega
  · exact add_differentTags dest src sameTag

theorem sub_differentTags (apart : operands.dest.tag ≠ operands.src.tag)
    (fits : (operands.dest.toInt - operands.src.toInt).natAbs < umax ^ size) :
    Yields operands (operands.dest.toInt - operands.src.toInt) (sub operands) := by
  obtain ⟨other, isOther⟩ := exists_other fun same => apart (congrArg tag same)
  have isSrc := src_of_some isOther
  rw [sub, if_pos apart]
  rw [isSrc] at src apart fits ⊢
  -- The tag of `src` is flipped to that of `dest` and restored.
  have flipped : ∀ old new : Tag, other.tag = old → operands.dest.tag = new →
      (operands.dest.magnitude + other.magnitude < umax ^ size) →
      Yields operands (operands.dest.toInt + (other.withTag new).toInt)
        (some ((addSameTag (operands.setSrc (other.withTag new))).setSrc
          ((addSameTag (operands.setSrc (other.withTag new))).src.withTag old))) := by
    intro old new isOld isNew small
    rw [setSrc_of_some isOther]
    obtain ⟨after, added, formed, value, sameOther⟩ :=
      @addSameTag_yields ⟨operands.dest, some (other.withTag new)⟩ dest
        (src.withTag new) isNew small
    obtain rfl := some.inj added
    refine ⟨_, rfl, ?_, ?_, ?_⟩
    · rw [setSrc_of_some sameOther]
      exact formed
    · rw [setSrc_of_some sameOther]
      exact value
    · rw [setSrc_of_some sameOther, src_of_some sameOther, isOther]
      exact congrArg some (withTag_of_tag isOld)
  cases destTag : operands.dest.tag with
  | negative =>
    have srcTag := tag_of_ne_negative destTag apart
    rw [toInt_of_negative destTag, toInt_of_positive srcTag] at fits ⊢
    have yields := flipped .positive .negative srcTag destTag (by omega)
    rw [toInt_withTag_negative, toInt_of_negative destTag] at yields
    rw [if_pos rfl]
    exact yields
  | positive =>
    have srcTag := tag_of_ne_positive destTag apart
    rw [toInt_of_positive destTag, toInt_of_negative srcTag] at fits ⊢
    have yields := flipped .negative .positive srcTag destTag (by omega)
    rw [toInt_withTag_positive, toInt_of_positive destTag] at yields
    rw [if_neg (by decide)]
    convert yields using 1
    omega

theorem sub_yields_iff (fits : (operands.dest.toInt - operands.src.toInt).natAbs < umax ^ size) :
    Yields operands (operands.dest.toInt - operands.src.toInt)
      (sub operands) ↔ ¬ Clash operands := by
  by_cases apart : operands.dest.tag = operands.src.tag
  · rw [sub, if_neg (not_not_intro apart)]
    cases destTag : operands.dest.tag with
    | positive =>
      have srcTag := apart.symm.trans destTag
      have yields := subSameTag_positive dest src destTag srcTag
      rw [← toInt_of_positive destTag, ← toInt_of_positive srcTag] at yields
      refine iff_of_true yields fun clash => ?_
      rw [clash.1] at destTag
      cases destTag
    | negative =>
      have srcTag := apart.symm.trans destTag
      rw [toInt_of_negative destTag, toInt_of_negative srcTag]
      by_cases lengths : operands.dest.length = operands.src.length
      · rw [subSameTag_negative_sameLength dest src destTag srcTag lengths]
        by_cases same : operands.dest.magnitude = operands.src.magnitude
        · rw [if_pos same, same]
          refine iff_of_true ⟨_, rfl, wellFormed_zero, by rw [Int.sub_self]; rfl, rfl⟩
            fun clash => clash.2.2.2 ?_
          rw [toInt_of_negative destTag, toInt_of_negative srcTag, same]
        · rw [if_neg same]
          refine iff_of_false ?_ (not_not_intro ⟨destTag, srcTag, lengths, ?_⟩)
          · rintro ⟨after, impossible, -⟩
            cases impossible
          · rw [toInt_of_negative destTag, toInt_of_negative srcTag]
            omega
      · have yields := subSameTag_negative dest src destTag srcTag lengths
        refine iff_of_true ?_ fun clash => lengths clash.2.2.1
        convert yields using 1
        omega
  · refine iff_of_true (sub_differentTags dest src apart fits) ?_
    intro clash
    exact apart (clash.1.trans clash.2.1.symm)

end

end Skyc.Melon.Bignum
