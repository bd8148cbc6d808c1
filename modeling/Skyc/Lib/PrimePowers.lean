import Mathlib

/-!
# Powers modulo two primes

An exponent counts modulo the order of the units only, also for bases that are
not units as long as no exponent is zero.
-/

namespace Skyc.Lib

open Nat

variable {p q m : ℕ}

/-- Fermat: exponents of a unit are reduced modulo the prime less one. -/
theorem pow_modEq_pow_mod (prime : p.Prime) (unit : m.Coprime p) (a : ℕ) :
    m ^ a ≡ m ^ (a % (p - 1)) [MOD p] := by
  have one : m ^ (p - 1) ≡ 1 [MOD p] := by
    have fermat := Nat.ModEq.pow_totient unit
    rwa [totient_prime prime] at fermat
  calc
    m ^ a = m ^ (a % (p - 1)) * (m ^ (p - 1)) ^ (a / (p - 1)) := by
      rw [← pow_mul, ← pow_add, mod_add_div]
    _ ≡ m ^ (a % (p - 1)) * 1 ^ (a / (p - 1)) [MOD p] := Nat.ModEq.mul_left _ (one.pow _)
    _ = m ^ (a % (p - 1)) := by
      rw [one_pow, mul_one]

/-- Positive exponents that agree modulo the prime less one give the same
power of every base. -/
theorem pow_modEq_pow (prime : p.Prime) {a b : ℕ} (positiveA : 0 < a)
    (positiveB : 0 < b) (same : a ≡ b [MOD p - 1]) : m ^ a ≡ m ^ b [MOD p] := by
  by_cases divides : p ∣ m
  · have zeroA : m ^ a ≡ 0 [MOD p] := (modEq_zero_iff_dvd).mpr (dvd_pow divides positiveA.ne')
    have zeroB : m ^ b ≡ 0 [MOD p] := (modEq_zero_iff_dvd).mpr (dvd_pow divides positiveB.ne')
    exact zeroA.trans zeroB.symm
  · have unit : m.Coprime p := ((Nat.Prime.coprime_iff_not_dvd prime).mpr divides).symm
    have reducedA := pow_modEq_pow_mod prime unit a
    have reducedB := pow_modEq_pow_mod prime unit b
    rw [same] at reducedA
    exact reducedA.trans reducedB.symm

/-- An exponent that has an inverse modulo a multiple of `p - 1` is not a
multiple of `p - 1`. -/
theorem reduced_pos {e d k : ℕ} (large : 2 < p) (inverse : e * d ≡ 1 [MOD (p - 1) * k]) :
    0 < e % (p - 1) := by
  by_contra notPositive
  have divides : p - 1 ∣ e := Nat.dvd_of_mod_eq_zero (Nat.eq_zero_of_not_pos notPositive)
  have atPrime : e * d ≡ 1 [MOD p - 1] := inverse.of_mul_right k
  have isZero : e * d ≡ 0 [MOD p - 1] := (Nat.modEq_zero_iff_dvd).mpr (Dvd.dvd.mul_right divides d)
  have dividesOne : p - 1 ∣ 1 := (Nat.modEq_zero_iff_dvd).mp (atPrime.symm.trans isZero)
  have isOne := Nat.dvd_one.mp dividesOne
  omega

theorem pow_inverse (prime : p.Prime) {e d k : ℕ} (large : 2 < p)
    (inverse : e * d ≡ 1 [MOD (p - 1) * k]) : m ^ (e * d) ≡ m [MOD p] := by
  have reduced : 0 < e * d % (p - 1) := reduced_pos (d := 1) (k := k) large (by rwa [mul_one])
  have positive : 0 < e * d := reduced.trans_le (mod_le _ _)
  have power : m ^ (e * d) ≡ m ^ 1 [MOD p] :=
    pow_modEq_pow prime positive one_pos (inverse.of_mul_right k)
  rwa [pow_one] at power

/-- Exponents that are inverse to each other undo each other modulo two
primes, also for a message that shares a factor with the modulus. -/
theorem pow_pow_mod_eq (primeP : p.Prime) (primeQ : q.Prime)
    (distinct : p ≠ q) (largeP : 2 < p) (largeQ : 2 < q) {e d : ℕ}
    (inverse : e * d ≡ 1 [MOD (p - 1) * (q - 1)]) (less : m < p * q) :
    (m ^ e % (p * q)) ^ d % (p * q) = m := by
  have coprime : p.Coprime q := (coprime_primes primeP primeQ).mpr distinct
  have inverseQ : e * d ≡ 1 [MOD (q - 1) * (p - 1)] := by
    rwa [mul_comm (q - 1)]
  have power : m ^ (e * d) ≡ m [MOD p * q] := (modEq_and_modEq_iff_modEq_mul coprime).mp
    ⟨pow_inverse primeP largeP inverse, pow_inverse primeQ largeQ inverseQ⟩
  have undone : (m ^ e % (p * q)) ^ d ≡ m [MOD p * q] := by
    calc
      (m ^ e % (p * q)) ^ d ≡ (m ^ e) ^ d [MOD p * q] := (mod_modEq _ _).pow d
      _ = m ^ (e * d) := (pow_mul m e d).symm
      _ ≡ m [MOD p * q] := power
  exact mod_eq_of_modEq undone less

/-- A number is put together from its remainders modulo two coprime numbers. -/
theorem recombine (coprime : p.Coprime q) {x m1 m2 inverse : ℕ}
    (isInverse : q * inverse ≡ 1 [MOD p]) (atP : m1 ≡ x [MOD p])
    (atQ : m2 ≡ x [MOD q]) (le : m2 ≤ m1) : (m1 - m2) * inverse % p * q + m2 ≡ x [MOD p * q] := by
  apply (modEq_and_modEq_iff_modEq_mul coprime).mp
  constructor
  · calc
      (m1 - m2) * inverse % p * q + m2 ≡ (m1 - m2) * inverse * q + m2 [MOD p] :=
        Nat.ModEq.add_right _ (Nat.ModEq.mul_right _ (mod_modEq _ _))
      _ = (m1 - m2) * (q * inverse) + m2 := by
        rw [mul_assoc, mul_comm inverse q]
      _ ≡ (m1 - m2) * 1 + m2 [MOD p] := Nat.ModEq.add_right _ (Nat.ModEq.mul_left _ isInverse)
      _ = m1 := by
        omega
      _ ≡ x [MOD p] := atP
  · calc
      (m1 - m2) * inverse % p * q + m2 ≡ 0 + m2 [MOD q] := by
        apply Nat.ModEq.add_right
        exact (modEq_zero_iff_dvd).mpr (Dvd.intro_left _ rfl)
      _ = m2 := zero_add m2
      _ ≡ x [MOD q] := atQ

end Skyc.Lib
