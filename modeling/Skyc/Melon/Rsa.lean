import Skyc.Lib.PrimePowers
import Skyc.Melon.Bignum.Power

/-!
# The RSA primitive

`mln_rsa_rsaep_rsadp` of `mln_rsa.c` raises a message to the exponent of a key:
modulo the product of the primes, or modulo each prime.  The keys are taken as
`mln_rsa_key_generate` fills them.
-/

namespace Skyc.Melon.Rsa

open Skyc.Lib Option
open Skyc.Melon.Bignum

/-- `mln_rsa_key_t` -/
structure Key where
  n : Bignum
  ed : Bignum
  p : Bignum
  q : Bignum
  dp : Bignum
  dq : Bignum
  qinv : Bignum
  pwr : Bool

/-- The path with the modulus `n`, at the label `in`. -/
def direct (key : Key) (input : Bignum) : Option (Bignum × Bignum) := do
  let input ← pwr input key.ed (some key.n)
  return (input, input)

/-- `mln_rsa_rsaep_rsadp`: what it leaves in `in` and in `out`.  There is no
result when it returns `-1`, and none when a call fails whose result it
ignores. -/
def rsaepRsadp (key : Key) (input : Bignum) : Option (Bignum × Bignum) :=
  if key.pwr ∨ absCompare key.ed key.p ≠ .gt then
    direct key input
  else do
    let m1 ← pwr input key.dp (some key.p)
    let m2 ← pwr input key.dq (some key.q)
    let difference ← sub ⟨m1, some m2⟩
    if difference.dest.tag = .negative then
      direct key input
    else
      let m1 := (mul ⟨difference.dest, some key.qinv⟩).dest
      let atP ← div m1 key.p
      let m1 := (mul ⟨atP.1, some key.q⟩).dest
      let sum ← add ⟨m1, some m2⟩
      let atN ← div sum.dest key.n
      return (input, atN.1)

def roundTrip (first second : Key) (message : Bignum) : Option Bignum := do
  let cipher ← rsaepRsadp first message
  let plain ← rsaepRsadp second cipher.2
  return plain.2

/-- A key as `mln_rsa_key_generate` fills it; the inverse it finds has no more words
than the modulus may have. -/
structure Filled (key : Key) (p q exponent : ℕ) : Prop where
  modulus : Denotes key.n (p * q)
  power : Denotes key.ed exponent
  first : Denotes key.p p
  second : Denotes key.q q
  atFirst : Denotes key.dp (exponent % (p - 1))
  atSecond : Denotes key.dq (exponent % (q - 1))
  inverse : ∃ inverse, Denotes key.qinv inverse ∧ 0 < inverse ∧
    inverse < umax ^ 128 ∧ q * inverse ≡ 1 [MOD p]

/-- Two primes whose product has 128 words at most. -/
structure Primes (p q : ℕ) : Prop where
  prime1 : p.Prime
  prime2 : q.Prime
  distinct : p ≠ q
  fits : p * q < umax ^ 128

namespace Primes

variable {p q : ℕ}

theorem coprime (primes : Primes p q) : p.Coprime q :=
  (Nat.coprime_primes primes.prime1 primes.prime2).mpr primes.distinct

theorem p_lt (primes : Primes p q) : p < umax ^ 128 :=
  lt_of_le_of_lt (Nat.le_mul_of_pos_right p primes.prime2.pos) primes.fits

theorem q_lt (primes : Primes p q) : q < umax ^ 128 :=
  lt_of_le_of_lt (Nat.le_mul_of_pos_left q primes.prime1.pos) primes.fits

theorem one_lt_mul (primes : Primes p q) : 1 < p * q :=
  Nat.one_lt_mul_iff.mpr ⟨primes.prime1.pos, primes.prime2.pos, Or.inl primes.prime1.one_lt⟩

end Primes

section Paths

variable {p q exponent m : ℕ} {key : Key} {message : Bignum}

variable (primes : Primes p q) (isMessage : Denotes message m) (less : m < p * q)
include primes isMessage less

theorem direct_spec (filled : Filled key p q exponent) :
    ∃ result, direct key message = some result ∧ Denotes result.2 (m ^ exponent % (p * q)) := by
  obtain ⟨result, value, isResult, denotes, power, bound, -⟩ :=
    pwr_spec isMessage filled.power filled.modulus primes.one_lt_mul
      (less.trans primes.fits) primes.fits
  have small : value < p * q := by
    rcases bound with small | ⟨-, same⟩
    · exact small
    · rw [same]
      exact less
  refine ⟨(result, result), ?_, ?_⟩
  · rw [direct, isResult]
    rfl
  · rw [← power, Nat.mod_eq_of_lt small]
    exact denotes

/-- The path with a power for each prime, unless the difference is negative. -/
theorem recombined_spec (filled : Filled key p q exponent)
    (reducedP : m ^ (exponent % (p - 1)) ≡ m ^ exponent [MOD p])
    (reducedQ : m ^ (exponent % (q - 1)) ≡ m ^ exponent [MOD q])
    (crt : ¬ (key.pwr = true ∨ absCompare key.ed key.p ≠ .gt)) :
    ∃ result, rsaepRsadp key message = some result ∧ Denotes result.2 (m ^ exponent % (p * q)) := by
  have smallMessage := less.trans primes.fits
  obtain ⟨inverse, isInverse, _, smallInverse, inverts⟩ := filled.inverse
  obtain ⟨m1, value1, isResult1, denotes1, power1, bound1, -⟩ :=
    pwr_spec isMessage filled.atFirst filled.first primes.prime1.one_lt smallMessage primes.p_lt
  obtain ⟨m2, value2, isResult2, denotes2, power2, bound2, -⟩ :=
    pwr_spec isMessage filled.atSecond filled.second primes.prime2.one_lt smallMessage primes.q_lt
  have small1 : value1 < umax ^ 128 := by
    rcases bound1 with small | ⟨-, same⟩
    · exact small.trans primes.p_lt
    · rw [same]
      exact smallMessage
  have small2 : value2 < umax ^ 128 := by
    rcases bound2 with small | ⟨-, same⟩
    · exact small.trans primes.q_lt
    · rw [same]
      exact smallMessage
  obtain ⟨difference, isDifference, ifPositive⟩ := denotes1.sub denotes2
  rw [rsaepRsadp, if_neg crt, isResult1, isResult2]
  simp only [bind_eq_bind, bind_some]
  rw [isDifference]
  simp only [bind_some]
  by_cases negative : difference.dest.tag = .negative
  · rw [if_pos negative]
    exact direct_spec primes isMessage less filled
  · have isTag : difference.dest.tag = .positive := by
      cases tag : difference.dest.tag with
      | positive => rfl
      | negative => exact absurd tag negative
    obtain ⟨le, denotesDifference⟩ := ifPositive isTag
    have smallDifference : value1 - value2 < umax ^ 128 := by omega
    have product := @Denotes.mul ⟨difference.dest, some key.qinv⟩ _ _ denotesDifference isInverse
      (mul_lt_umax_pow smallDifference smallInverse)
    obtain ⟨atP, quotientP, isAtP, denotesAtP, -⟩ := product.div filled.first primes.prime1.pos
    have lessP := Nat.mod_lt ((value1 - value2) * inverse) primes.prime1.pos
    have scaled := @Denotes.mul ⟨atP, some key.q⟩ _ _ denotesAtP filled.second
      (mul_lt_umax_pow (lessP.trans primes.p_lt) primes.q_lt)
    have sumFits : (value1 - value2) * inverse % p * q + value2 < umax ^ size := by
      have scaledLess : (value1 - value2) * inverse % p * q < p * q :=
        Nat.mul_lt_mul_of_pos_right lessP primes.prime2.pos
      have fits := primes.fits
      have room : umax ^ 128 + umax ^ 128 ≤ umax ^ size := by
        calc
          umax ^ 128 + umax ^ 128 = umax ^ 128 * 2 := by
            omega
          _ ≤ umax ^ 128 * umax := Nat.mul_le_mul_left _ (by decide)
          _ = umax ^ 129 := (pow_succ umax 128).symm
          _ ≤ umax ^ size := umax_pow_le (by decide)
      omega
    obtain ⟨sum, isSum, denotesSum⟩ := scaled.add denotes2 sumFits
    obtain ⟨atN, quotientN, isAtN, denotesAtN, -⟩ :=
      denotesSum.div filled.modulus (Nat.one_pos.trans primes.one_lt_mul)
    have together := recombine primes.coprime inverts
      (power1.trans reducedP) (power2.trans reducedQ) le
    refine ⟨(message, atN), ?_, ?_⟩
    · rw [if_neg negative, isAtP]
      simp only [bind_some]
      rw [isSum]
      simp only [bind_some]
      rw [isAtN]
      rfl
    · rw [← together]
      exact denotesAtN

theorem rsaepRsadp_spec (largeP : 2 < p) (largeQ : 2 < q) {other : ℕ}
    (inverse : exponent * other ≡ 1 [MOD (p - 1) * (q - 1)]) (filled : Filled key p q exponent) :
    ∃ result, rsaepRsadp key message = some result ∧ Denotes result.2 (m ^ exponent % (p * q)) := by
  by_cases oneStep : key.pwr = true ∨ absCompare key.ed key.p ≠ .gt
  · rw [rsaepRsadp, if_pos oneStep]
    exact direct_spec primes isMessage less filled
  · have inverseQ : exponent * other ≡ 1 [MOD (q - 1) * (p - 1)] := by
      rwa [Nat.mul_comm (q - 1)]
    have positiveP := reduced_pos largeP inverse
    have positiveQ := reduced_pos largeQ inverseQ
    have positive : 0 < exponent := positiveP.trans_le (Nat.mod_le exponent (p - 1))
    exact recombined_spec primes isMessage less filled
      (pow_modEq_pow primes.prime1 positiveP positive (Nat.mod_modEq _ _))
      (pow_modEq_pow primes.prime2 positiveQ positive (Nat.mod_modEq _ _)) oneStep

theorem roundTrip_eq (largeP : 2 < p) (largeQ : 2 < q)
    {e d : ℕ} (inverse : e * d ≡ 1 [MOD (p - 1) * (q - 1)])
    {first second : Key} (filled1 : Filled first p q e) (filled2 : Filled second p q d) :
    roundTrip first second message = some message := by
  have swapped : d * e ≡ 1 [MOD (p - 1) * (q - 1)] := by
    rwa [Nat.mul_comm d e]
  obtain ⟨cipher, isCipher, denotesCipher⟩ :=
    rsaepRsadp_spec primes isMessage less largeP largeQ inverse filled1
  obtain ⟨plain, isPlain, denotesPlain⟩ :=
    rsaepRsadp_spec primes denotesCipher
      (Nat.mod_lt _ (Nat.one_pos.trans primes.one_lt_mul)) largeP largeQ swapped filled2
  rw [pow_pow_mod_eq primes.prime1 primes.prime2 primes.distinct largeP largeQ
    inverse less] at denotesPlain
  rw [roundTrip, isCipher]
  simp only [some_bind]
  rw [isPlain]
  exact congrArg some (denotesPlain.unique isMessage)

end Paths

/-- For distinct odd primes either key undoes the other one, on whichever path
each application takes. -/
theorem rsa_keys_inverse {p q e d m : ℕ} (primeP : p.Prime) (primeQ : q.Prime)
    (distinct : p ≠ q) (oddP : p ≠ 2) (oddQ : q ≠ 2) (fits : p * q < umax ^ 128)
    (inverse : e * d ≡ 1 [MOD (p - 1) * (q - 1)]) {pub pri : Key}
    (isPub : Filled pub p q e) (isPri : Filled pri p q d) {message : Bignum}
    (isMessage : Denotes message m) (less : m < p * q) :
    roundTrip pub pri message = some message ∧ roundTrip pri pub message = some message := by
  have primes : Primes p q := ⟨primeP, primeQ, distinct, fits⟩
  have largeP : 2 < p := lt_of_le_of_ne primeP.two_le oddP.symm
  have largeQ : 2 < q := lt_of_le_of_ne primeQ.two_le oddQ.symm
  have swapped : d * e ≡ 1 [MOD (p - 1) * (q - 1)] := by
    rwa [Nat.mul_comm d e]
  exact ⟨roundTrip_eq primes isMessage less largeP largeQ inverse isPub isPri,
    roundTrip_eq primes isMessage less largeP largeQ swapped isPri isPub⟩

def keyFifteen (pwr : Bool) : Key where
  n := word 15
  ed := word 3
  p := word 3
  q := word 5
  dp := word 1
  dq := word 3
  qinv := word 2
  pwr := pwr

theorem filled_keyFifteen (pwr : Bool) : Filled (keyFifteen pwr) 3 5 3 where
  modulus := denotes_word (by decide) (by decide)
  power := denotes_word (by decide) (by decide)
  first := denotes_word (by decide) (by decide)
  second := denotes_word (by decide) (by decide)
  atFirst := denotes_word (by decide) (by decide)
  atSecond := denotes_word (by decide) (by decide)
  inverse := ⟨2, denotes_word (by decide) (by decide), by decide,
    lt_of_lt_of_le (by decide : 2 < umax ^ 1) (umax_pow_le (by decide)), rfl⟩

/-- The message 7 with the primes 3 and 5. -/
theorem rsa_keys_inverse_seven :
    roundTrip (keyFifteen true) (keyFifteen false) (word 7) = some (word 7) ∧
      roundTrip (keyFifteen false) (keyFifteen true) (word 7) = some (word 7) :=
  rsa_keys_inverse (by decide) (by decide) (by decide) (by decide) (by decide)
    (lt_of_lt_of_le (by decide : 3 * 5 < umax ^ 1) (umax_pow_le (by decide)))
    (by decide : 3 * 3 ≡ 1 [MOD (3 - 1) * (5 - 1)])
    (filled_keyFifteen true) (filled_keyFifteen false)
    (denotes_word (by decide) (by decide) : Denotes (word 7) 7) (by decide)

/-- The keys for the primes 2 and 5 with the exponent 3, which is reduced to 0
modulo 1. -/
def keyTen : Key where
  n := word 10
  ed := word 3
  p := word 2
  q := word 5
  dp := zero
  dq := word 3
  qinv := word 1
  pwr := false

theorem filled_keyTen : Filled keyTen 2 5 3 where
  modulus := denotes_word (by decide) (by decide)
  power := denotes_word (by decide) (by decide)
  first := denotes_word (by decide) (by decide)
  second := denotes_word (by decide) (by decide)
  atFirst := denotes_zero
  atSecond := denotes_word (by decide) (by decide)
  inverse := ⟨1, denotes_word (by decide) (by decide), by decide,
    lt_of_lt_of_le (by decide : 1 < umax ^ 1) (umax_pow_le (by decide)), rfl⟩

/-- With the prime 2 the message 0 comes back as 5. -/
theorem rsa_keys_evenPrime_fails :
    Primes 2 5 ∧ 3 * 3 ≡ 1 [MOD (2 - 1) * (5 - 1)] ∧ Filled keyTen 2 5 3 ∧ Denotes zero 0 ∧
      (roundTrip keyTen keyTen zero).map magnitude = some 5 :=
  ⟨⟨by decide, by decide, by decide, lt_of_lt_of_le
      (by decide : 2 * 5 < umax ^ 1) (umax_pow_le (by decide))⟩,
    by decide, filled_keyTen, denotes_zero, rfl⟩

end Skyc.Melon.Rsa
