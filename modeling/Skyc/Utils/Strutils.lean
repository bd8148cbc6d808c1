import Skyc.Lib.CString

/-!
# Strings as numbers

`strutils.c` hashes a string as a polynomial in 31, and writes and reads bytes
as pairs of hexadecimal digits.
-/

namespace Skyc.Utils.Strutils

open Skyc.Lib List Int

/-! ## The polynomial hash -/

/-- The value of a `char`, which is signed. -/
def charCode (c : UInt8) : ℤ := c.toInt8.toInt

/-- The product that a character adds: its `int` factor becomes unsigned. -/
def polyTerm (pPow : UInt64) (c : UInt8) : UInt64 := UInt64.ofInt (charCode c - 97 + 1) * pPow

/-- The body of the loop, on `hash` and `p_pow`. -/
def polyStep (state : UInt64 × UInt64) (c : UInt8) : UInt64 × UInt64 :=
  ((state.1 + polyTerm state.2 c) % 1000000009, state.2 * 31 % 1000000009)

def polyHashLoop : List UInt8 → ℤ → UInt64 × UInt64 → UInt64
  | [], _, state => state.1
  | c :: str, len, state =>
    if len = 0 then state.1 else polyHashLoop str (len - 1) (polyStep state c)

def polyHash (str : CString) (len : ℤ) : UInt64 :=
  polyHashLoop str.bytes len (0, 1)

/-- The characters that count: with a negative `len`, all of them. -/
def hashed (str : List UInt8) (len : ℤ) : List UInt8 :=
  if len < 0 then str else str.take len.toNat

/-- No result in the loop over these characters wraps around. -/
def Unwrapped : List UInt8 → UInt64 × UInt64 → Prop
  | [], _ => True
  | c :: str, state =>
    ((polyTerm state.2 c).toNat : ℤ) = (charCode c - 97 + 1) * state.2.toNat ∧
    (state.1 + polyTerm state.2 c).toNat = state.1.toNat + (polyTerm state.2 c).toNat ∧
    (state.2 * 31).toNat = state.2.toNat * 31 ∧ Unwrapped str (polyStep state c)

def polynomial (str : List UInt8) : ℤ :=
  ∑ i : Fin str.length, (charCode str[i] - 97 + 1) * 31 ^ (i : ℕ)

theorem polynomial_cons (c : UInt8) (str : List UInt8) :
    polynomial (c :: str) = charCode c - 97 + 1 + polynomial str * 31 := by
  simp only [polynomial, length_cons, Fin.sum_univ_succ, Finset.sum_mul]
  congr 1
  · simp
  · refine Finset.sum_congr rfl fun i _ => ?_
    simp [pow_succ, mul_assoc]

theorem polyHashLoop_eq_foldl (str : List UInt8) (len : ℤ) (state : UInt64 × UInt64) :
    polyHashLoop str len state = ((hashed str len).foldl polyStep state).1 := by
  induction str generalizing len state with
  | nil => simp [polyHashLoop, hashed]
  | cons c str ih =>
    rw [polyHashLoop, ih]
    by_cases negative : len < 0
    · rw [if_neg (by omega), hashed, hashed, if_pos negative, if_pos (by omega), foldl_cons]
    · obtain ⟨n, rfl⟩ := eq_ofNat_of_zero_le (not_lt.mp negative)
      cases n with
      | zero => simp [hashed]
      | succ n =>
        rw [if_neg (by omega), hashed, hashed, if_neg negative, if_neg (by omega)]
        simp

/-- From code 96 on, a step is exact, and `p_pow` and `hash` stay reduced. -/
theorem polyStep_spec {c : UInt8} {hash pPow : UInt64} (high : 96 ≤ charCode c)
    (isHash : hash.toNat < 1000000009) (isPow : pPow.toNat < 1000000009) :
    ((polyTerm pPow c).toNat : ℤ) = (charCode c - 97 + 1) * pPow.toNat ∧
      (hash + polyTerm pPow c).toNat = hash.toNat + (polyTerm pPow c).toNat ∧
      (pPow * 31).toNat = pPow.toNat * 31 := by
  have less : charCode c < 2 ^ 7 := Int8.toInt_lt _
  obtain ⟨n, isCode⟩ := eq_ofNat_of_zero_le (show 0 ≤ charCode c - 97 + 1 by omega)
  have bound : n * pPow.toNat ≤ 31 * pPow.toNat := Nat.mul_le_mul_right _ (by omega)
  have word : (UInt64.ofInt (n : ℤ)).toNat = n := by
    change ((n : ℤ) % 2 ^ 64).toNat % 2 ^ 64 = n
    omega
  have term : (polyTerm pPow c).toNat = n * pPow.toNat := by
    rw [polyTerm, isCode, UInt64.toNat_mul, word]
    omega
  refine ⟨?_, ?_, ?_⟩
  · rw [term, isCode, Nat.cast_mul]
  · rw [UInt64.toNat_add]
    omega
  · rw [UInt64.toNat_mul, show (31 : UInt64).toNat = 31 from rfl]
    omega

variable {str : List UInt8} {state : UInt64 × UInt64}

theorem unwrapped_of_high (high : ∀ c ∈ str, 96 ≤ charCode c) (isHash : state.1.toNat < 1000000009)
    (isPow : state.2.toNat < 1000000009) :
    Unwrapped str state ∧ ((str.foldl polyStep state).1.toNat : ℤ) =
      (state.1.toNat + state.2.toNat * polynomial str) % 1000000009 := by
  induction str generalizing state with
  | nil =>
    refine ⟨trivial, ?_⟩
    simp only [foldl_nil, polynomial, length_nil, Finset.univ_eq_empty, Finset.sum_empty, mul_zero]
    omega
  | cons c str ih =>
    obtain ⟨term, sum, power⟩ := polyStep_spec (high c mem_cons_self) isHash isPow
    have nextHash : (polyStep state c).1.toNat =
        (state.1.toNat + (polyTerm state.2 c).toNat) % 1000000009 := by
      rw [polyStep, UInt64.toNat_mod, sum]
      rfl
    have nextPow : (polyStep state c).2.toNat = state.2.toNat * 31 % 1000000009 := by
      rw [polyStep, UInt64.toNat_mod, power]
      rfl
    obtain ⟨unwrapped, value⟩ := @ih (polyStep state c)
      (fun other member => high other (mem_cons_of_mem c member)) (by omega) (by omega)
    refine ⟨⟨term, sum, power, unwrapped⟩, ?_⟩
    rw [foldl_cons, value, nextHash, nextPow, polynomial_cons]
    push_cast
    refine ((mod_modEq _ _).add ((mod_modEq _ _).mul_right _)).trans ?_
    rw [term]
    exact congrArg (· % _) (by ring)

theorem high_of_unwrapped
    (unwrapped : Unwrapped str state) (positive : ¬ 1000000009 ∣ state.2.toNat) :
    ∀ c ∈ str, 96 ≤ charCode c := by
  induction str generalizing state with
  | nil => exact forall_mem_nil _
  | cons c str ih =>
    obtain ⟨term, _, power, rest⟩ := unwrapped
    refine forall_mem_cons.mpr ⟨?_, ih rest ?_⟩
    · have isPos : (0 : ℤ) < state.2.toNat := by omega
      have nonneg := nonneg_of_mul_nonneg_left (term ▸ natCast_nonneg _) isPos
      omega
    · rw [polyStep, UInt64.toNat_mod, power]
      change ¬ _ ∣ _ % 1000000009
      omega

/-- The hash is the residue of the polynomial, with no result wrapped around,
exactly if the code of every character that counts is at least 96. -/
theorem polyHash_eq_polynomial_iff (str : CString) (len : ℤ) :
    Unwrapped (hashed str.bytes len) (0, 1) ∧
        ((polyHash str len).toNat : ℤ) = polynomial (hashed str.bytes len) % 1000000009 ↔
      ∀ c ∈ hashed str.bytes len, 96 ≤ charCode c := by
  constructor
  · rintro ⟨unwrapped, _⟩
    exact high_of_unwrapped unwrapped (by decide)
  · intro high
    rw [polyHash, polyHashLoop_eq_foldl]
    simpa using @unwrapped_of_high _ (0, 1) high (by decide) (by decide)

/-- The hash of `"A"`, whose polynomial has the value -31. -/
theorem polyHash_capital :
    (polyHash ⟨[65], by decide⟩ (-1)).toNat = 688856422 ∧
      polynomial [65] % 1000000009 = 999999978 := by
  decide

/-! ## Hexadecimal strings -/

def hex2int (ch : UInt8) : ℤ :=
  if 48 ≤ charCode ch ∧ charCode ch ≤ 57 then charCode ch - 48
  else
    let ch := ch &&& ~~~0x20
    if 65 ≤ charCode ch ∧ charCode ch ≤ 70 then charCode ch - 65 + 10 else -1

def int2hex (v : UInt8) : UInt8 :=
  let v := v &&& 0x0f
  if v ≤ 9 then 48 + v else 65 + (v - 10)

def atohstrLoop : List UInt8 → List UInt8
  | [] => []
  | byte :: arr => int2hex (byte >>> 4) :: int2hex byte :: atohstrLoop arr

theorem int2hex_ne_zero : ∀ v, int2hex v ≠ 0 := by
  decide +kernel

/-- The string that `atohstr` writes. -/
def atohstr (arr : List UInt8) : CString where
  bytes := atohstrLoop arr
  noNul := by
    induction arr with
    | nil => exact not_mem_nil
    | cons byte arr ih => simp [atohstrLoop, (int2hex_ne_zero _).symm, ih]

def hstrtoaLoop : List UInt8 → Option (List UInt8)
  | first :: second :: hstr =>
    let nib1 := hex2int first
    let nib2 := hex2int second
    if nib1 = -1 ∨ nib2 = -1 then none
    else (hstrtoaLoop hstr).map (UInt8.ofNat (nib1.toNat <<< 4 ||| nib2.toNat) :: ·)
  | _ => some []

/-- The length that `hstrtoa` returns, with the array; `none` is its -1.  The
length of the text is an `int` in the source, so it is at most 2^31 - 1. -/
def hstrtoa (hstr : CString) : Option (ℕ × List UInt8) :=
  let len := hstr.bytes.length
  if len &&& 1 = 1 ∨ len = 0 then none
  else (hstrtoaLoop hstr.bytes).map fun arr => (len / 2, arr)

def IsHexDigit (ch : UInt8) : Prop :=
  48 ≤ ch ∧ ch ≤ 57 ∨ 65 ≤ ch ∧ ch ≤ 70 ∨ 97 ≤ ch ∧ ch ≤ 102

instance (ch : UInt8) : Decidable (IsHexDigit ch) :=
  inferInstanceAs (Decidable (_ ∨ _))

def upperCase (ch : UInt8) : UInt8 :=
  if 97 ≤ ch ∧ ch ≤ 122 then ch - 32 else ch

theorem hex2int_eq_neg_one : ∀ ch, hex2int ch = -1 ↔ ¬ IsHexDigit ch := by
  decide +kernel

theorem exists_nibble : ∀ ch, IsHexDigit ch →
    ∃ n : Fin 16, hex2int ch = n.val ∧ int2hex (UInt8.ofNat n) = upperCase ch := by
  decide +kernel

theorem int2hex_nibbles : ∀ m n : Fin 16,
    int2hex (UInt8.ofNat (m.val <<< 4 ||| n.val) >>> 4) = int2hex (UInt8.ofNat m) ∧
      int2hex (UInt8.ofNat (m.val <<< 4 ||| n.val)) = int2hex (UInt8.ofNat n) := by
  decide +kernel

theorem hex2int_digits : ∀ byte, IsHexDigit (int2hex byte) ∧
    UInt8.ofNat ((hex2int (int2hex (byte >>> 4))).toNat <<< 4 |||
      (hex2int (int2hex byte)).toNat) = byte := by
  decide +kernel

theorem hstrtoaLoop_atohstrLoop (arr : List UInt8) : hstrtoaLoop (atohstrLoop arr) = some arr := by
  induction arr with
  | nil => rfl
  | cons byte arr ih =>
    simp only [atohstrLoop, hstrtoaLoop, hex2int_eq_neg_one, hex2int_digits, not_true, or_self,
      if_false, ih, Option.map_some]

theorem length_atohstrLoop (arr : List UInt8) : (atohstrLoop arr).length = 2 * arr.length := by
  induction arr with
  | nil => rfl
  | cons byte arr ih =>
    simp only [atohstrLoop, length_cons, ih]
    omega

theorem hstrtoaLoop_spec {hstr : List UInt8} (even : Even hstr.length) :
    ((hstrtoaLoop hstr).isSome ↔ ∀ ch ∈ hstr, IsHexDigit ch) ∧
      ∀ arr, hstrtoaLoop hstr = some arr → atohstrLoop arr = hstr.map upperCase := by
  induction hstr using twoStepInduction with
  | nil => simp [hstrtoaLoop, atohstrLoop]
  | singleton ch => simp at even
  | cons_cons first second hstr ih _ =>
    obtain ⟨accepts, restores⟩ := ih (by simpa [Nat.even_add] using even)
    simp only [hstrtoaLoop, hex2int_eq_neg_one, ← not_and_or, forall_mem_cons, ← and_assoc]
    by_cases digits : IsHexDigit first ∧ IsHexDigit second
    · rw [if_neg (not_not.mpr digits), Option.isSome_map, accepts, and_iff_right digits]
      refine ⟨Iff.rfl, ?_⟩
      intro arr decoded
      obtain ⟨rest, isRest, rfl⟩ := Option.map_eq_some_iff.mp decoded
      obtain ⟨m, isFirst, upperFirst⟩ := exists_nibble first digits.1
      obtain ⟨n, isSecond, upperSecond⟩ := exists_nibble second digits.2
      simp only [atohstrLoop, map_cons, restores rest isRest, isFirst, isSecond,
        toNat_natCast, int2hex_nibbles, upperFirst, upperSecond]
    · rw [if_pos digits]
      exact ⟨by simp [digits], nofun⟩

theorem hstrtoa_eq (hstr : CString) :
    hstrtoa hstr = if hstr.bytes ≠ [] ∧ Even hstr.bytes.length then
      (hstrtoaLoop hstr.bytes).map (hstr.bytes.length / 2, ·) else none := by
  have parity : hstr.bytes.length &&& 1 = 1 ∨ hstr.bytes.length = 0 ↔
      ¬ (hstr.bytes ≠ [] ∧ Even hstr.bytes.length) := by
    rw [Nat.and_one_is_mod, ← Nat.odd_iff, ← Nat.not_even_iff_odd, length_eq_zero_iff]
    tauto
  simp only [hstrtoa, parity, ite_not]

/-- `hstrtoa` accepts the non-empty strings of pairs of hexadecimal digits, it
restores what `atohstr` writes, and `atohstr` restores in upper case what
`hstrtoa` reads. -/
theorem hstrtoa_atohstr (hstr : CString) (arr : List UInt8) :
    ((hstrtoa hstr).isSome ↔
      hstr.bytes ≠ [] ∧ Even hstr.bytes.length ∧ ∀ ch ∈ hstr.bytes, IsHexDigit ch) ∧
    (arr ≠ [] → hstrtoa (atohstr arr) = some (arr.length, arr)) ∧
    ∀ len, hstrtoa hstr = some (len, arr) → (atohstr arr).bytes = hstr.bytes.map upperCase := by
  simp only [hstrtoa_eq]
  refine ⟨?_, ?_, ?_⟩
  · rw [← and_assoc]
    by_cases pairs : hstr.bytes ≠ [] ∧ Even hstr.bytes.length
    · rw [if_pos pairs, Option.isSome_map, (hstrtoaLoop_spec pairs.2).1, and_iff_right pairs]
    · rw [if_neg pairs]
      exact iff_of_false Bool.false_ne_true fun both => pairs both.1
  · intro nonempty
    have length : (atohstr arr).bytes.length = 2 * arr.length := length_atohstrLoop arr
    have isLoop : hstrtoaLoop (atohstr arr).bytes = some arr := hstrtoaLoop_atohstrLoop arr
    rw [if_pos, isLoop, length, Nat.mul_div_cancel_left _ (by decide), Option.map_some]
    rw [ne_eq, ← length_eq_zero_iff, length]
    exact ⟨by simpa using nonempty, even_two_mul _⟩
  · intro len decoded
    split at decoded
    · next pairs =>
        obtain ⟨found, isFound, same⟩ := Option.map_eq_some_iff.mp decoded
        cases same
        exact (hstrtoaLoop_spec pairs.2).2 arr isFound
    · cases decoded

end Skyc.Utils.Strutils
