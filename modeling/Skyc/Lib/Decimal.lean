import Mathlib

/-!
# Decimal numbers in text files

What `printf` writes for `%lld` and `%*d`, and what `atol` reads back:
leading white space, an optional sign and digits up to the first other
character.
-/

namespace Skyc.Lib

open List Nat UInt8

def decimal (number : ℕ) : List UInt8 :=
  if number = 0 then
    [48]
  else
    (Nat.digits 10 number).reverse.map fun digit =>
      UInt8.ofNat (48 + digit)

/-- `%lld`. -/
def printInt : ℤ → List UInt8
  | .ofNat number => decimal number
  | .negSucc number => 45 :: decimal (number + 1)

def padLeft (width : ℕ) (text : List UInt8) : List UInt8 :=
  replicate (width - text.length) 32 ++ text

def isSpace (char : UInt8) : Bool :=
  char = 32 || (9 ≤ char && char ≤ 13)

def isDigit (char : UInt8) : Bool :=
  48 ≤ char && char ≤ 57

def leadingNumber (text : List UInt8) : ℕ :=
  (text.takeWhile isDigit).foldl (fun value char => 10 * value + (char.toNat - 48)) 0

def atol (text : List UInt8) : ℤ :=
  match text.dropWhile isSpace with
  | [] => 0
  | first :: rest =>
    if first = 45 then
      -leadingNumber rest
    else if first = 43 then
      leadingNumber rest
    else
      leadingNumber (first :: rest)

/-! ## Printing -/

theorem printInt_natCast (number : ℕ) : printInt number = decimal number := rfl

theorem digit_of_mem_digits {number digit : ℕ} (member : digit ∈ Nat.digits 10 number) :
    digit < 10 := digits_lt_base (by decide) member

theorem toNat_ofNat_digit {digit : ℕ} (small : digit < 10) :
    (UInt8.ofNat (48 + digit)).toNat = 48 + digit := by
  rw [toNat_ofNat', mod_eq_of_lt]
  omega

theorem decimal_ne_nil (number : ℕ) : decimal number ≠ [] := by
  rw [decimal]
  split
  case isTrue => exact cons_ne_nil _ _
  case isFalse positive => simpa using digits_ne_nil_iff_ne_zero.mpr positive

theorem isDigit_of_mem_decimal {number : ℕ} {char : UInt8} (member : char ∈ decimal number) :
    isDigit char = true := by
  rw [decimal] at member
  split at member
  case isTrue =>
    rw [mem_singleton] at member
    subst member
    decide
  case isFalse =>
    obtain ⟨digit, digitMember, rfl⟩ := mem_map.mp member
    have small := digit_of_mem_digits (mem_reverse.mp digitMember)
    have value := toNat_ofNat_digit small
    simp only [isDigit, Bool.and_eq_true, decide_eq_true_eq, le_iff_toNat_le, value]
    constructor
    · exact le_add_right 48 digit
    · change 48 + digit ≤ 57
      omega

theorem length_decimal_le {number width : ℕ} (positive : 0 < width) (small : number < 10 ^ width) :
    (decimal number).length ≤ width := by
  rw [decimal]
  split
  case isTrue => exact positive
  case isFalse =>
    rw [length_map, length_reverse]
    exact (digits_length_le_iff (by decide) number).mpr small

theorem length_padLeft {width : ℕ} {text : List UInt8} (fits : text.length ≤ width) :
    (padLeft width text).length = width := by
  rw [padLeft, length_append, length_replicate]
  omega

/-! ## Reading back -/
theorem foldl_digits (digits : List ℕ) (small : ∀ digit ∈ digits, digit < 10) :
    (digits.reverse.map fun digit => UInt8.ofNat (48 + digit)).foldl
        (fun value char => 10 * value + (char.toNat - 48)) 0 =
      Nat.ofDigits 10 digits := by
  induction digits with
  | nil => rfl
  | cons digit rest ih =>
    have restSmall : ∀ other ∈ rest, other < 10 := (forall_mem_cons.mp small).2
    have digitSmall := small digit mem_cons_self
    rw [reverse_cons, map_append, foldl_append, ih restSmall, map_singleton,
      foldl_cons, foldl_nil, toNat_ofNat_digit digitSmall, ofDigits_cons]
    omega

theorem leadingNumber_decimal (number : ℕ) : leadingNumber (decimal number) = number := by
  rw [leadingNumber, takeWhile_eq_self_iff.mpr fun _ => isDigit_of_mem_decimal, decimal]
  split
  case isTrue zero =>
    rw [zero]
    rfl
  case isFalse =>
    rw [foldl_digits _ fun _ member => digit_of_mem_digits member, ofDigits_digits]

theorem not_isSpace_of_isDigit {char : UInt8} (digit : isDigit char = true) :
    isSpace char = false ∧ char ≠ 45 ∧ char ≠ 43 := by
  simp only [isDigit, Bool.and_eq_true, decide_eq_true_eq, le_iff_toNat_le] at digit
  obtain ⟨above, below⟩ := digit
  change 48 ≤ char.toNat at above
  refine ⟨?_, ?_, ?_⟩
  · have notBlank : char ≠ 32 := by
      rintro rfl
      exact absurd above (by decide)
    have notControl : ¬ char ≤ 13 := by
      intro control
      have small : char.toNat ≤ 13 := le_iff_toNat_le.mp control
      omega
    simp [isSpace, notBlank, notControl]
  · rintro rfl
    exact absurd above (by decide)
  · rintro rfl
    exact absurd above (by decide)

/-- `atol` reads what `printf` has written, with or without padding. -/
theorem atol_padLeft (width number : ℕ) : atol (padLeft width (decimal number)) = number := by
  obtain ⟨first, rest, digits⟩ := exists_cons_of_ne_nil (decimal_ne_nil number)
  have firstDigit : isDigit first = true := by
    have member : first ∈ decimal number := by
      rw [digits]
      exact mem_cons_self
    exact isDigit_of_mem_decimal member
  obtain ⟨notSpace, notMinus, notPlus⟩ := not_isSpace_of_isDigit firstDigit
  have blanks : ∀ char ∈ replicate (width - (decimal number).length)
      (32 : UInt8), isSpace char = true := by
    intro char member
    rw [eq_of_mem_replicate member]
    decide
  have skipped : (padLeft width (decimal number)).dropWhile isSpace = first :: rest := by
    rw [padLeft, dropWhile_append_of_pos blanks, digits, dropWhile_cons_of_neg (by simp [notSpace])]
  rw [atol, skipped]
  simp only [notMinus, notPlus, if_false]
  rw [← digits, leadingNumber_decimal]

theorem atol_decimal (number : ℕ) : atol (decimal number) = number := by
  have unpadded : padLeft 0 (decimal number) = decimal number := by simp [padLeft]
  rw [← unpadded]
  exact atol_padLeft 0 number

end Skyc.Lib
