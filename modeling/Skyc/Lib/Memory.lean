import Mathlib

/-!
# Ranges of bytes in an array, and C integers

`load` and `store` are `memcpy` out of and into an array of bytes; they have
no result when the range leaves the array.  `int` is a result of arithmetic on
C `int`s, without a value when it overflows.
-/

namespace Skyc.Lib

open List Nat Option

universe u

theorem some_bind {α β : Type u} (value : α) (rest : α → Option β) :
    (some value >>= rest) = rest value := rfl

namespace Memory

/-! ## Copying into and out of an array -/

/-- `memcpy(target, memory + offset, length)` -/
def load (memory : List UInt8) (offset length : ℕ) : Option (List UInt8) :=
  if offset + length ≤ memory.length then
    some ((memory.drop offset).take length)
  else
    none

/-- `memcpy(memory + offset, data, length)` -/
def store (memory : List UInt8) (offset : ℕ) (data : List UInt8) : Option (List UInt8) :=
  if offset + data.length ≤ memory.length then
    some (memory.take offset ++ (data ++ memory.drop (offset + data.length)))
  else
    none

/-- What `store` does to the ranges of an array. -/
structure Stored (memory : List UInt8) (offset : ℕ) (data : List UInt8)
    (after : List UInt8) : Prop where
  length : after.length = memory.length
  same : load after offset data.length = some data
  apart : ∀ other length, other + length ≤ offset ∨ offset + data.length ≤ other →
    load after other length = load memory other length

theorem length_of_load {memory data : List UInt8} {offset length : ℕ}
    (loaded : load memory offset length = some data) : data.length = length := by
  simp only [load] at loaded
  split at loaded
  · obtain rfl := some.inj loaded
    simp
    omega
  · cases loaded

theorem load_append {memory first second : List UInt8} {offset length more : ℕ}
    (loadedFirst : load memory offset length = some first)
    (loadedSecond : load memory (offset + length) more = some second) :
    load memory offset (length + more) = some (first ++ second) := by
  simp only [load] at loadedFirst loadedSecond ⊢
  split at loadedFirst
  · split at loadedSecond
    · obtain rfl := some.inj loadedFirst
      obtain rfl := some.inj loadedSecond
      rw [if_pos (by omega), take_add, drop_drop]
    · cases loadedSecond
  · cases loadedFirst

theorem load_within {memory data : List UInt8} {offset length : ℕ}
    (loaded : load memory offset length = some data) (skip part : ℕ)
    (inside : skip + part ≤ length) :
    load memory (offset + skip) part = some ((data.drop skip).take part) := by
  simp only [load] at loaded ⊢
  split at loaded
  · obtain rfl := some.inj loaded
    rw [if_pos (by omega), drop_take, take_take, drop_drop, min_eq_left (by omega)]
  · cases loaded

theorem exists_store (memory : List UInt8) (offset : ℕ) (data : List UInt8)
    (inside : offset + data.length ≤ memory.length) :
    ∃ after, store memory offset data = some after ∧ Stored memory offset data after := by
  have frontLength : (memory.take offset).length = offset := by
    simp
    omega
  have afterLength : (memory.take offset ++ (data ++ memory.drop (offset + data.length))).length =
      memory.length := by
    simp
    omega
  refine ⟨_, if_pos inside, afterLength, ?_, ?_⟩
  · rw [load, if_pos (by omega), drop_left' frontLength, take_left]
  · intro other length separate
    simp only [load, afterLength]
    split
    · congr 1
      apply ext_getElem?
      intro i
      simp only [getElem?_take, getElem?_drop]
      split
      · rcases separate with below | above
        · rw [getElem?_append_left (by omega), getElem?_take_of_lt (by omega)]
        · rw [getElem?_append_right (by omega),
            getElem?_append_right (by omega), getElem?_drop, frontLength]
          congr 1
          omega
      · rfl
    · rfl

theorem stored_of_store {memory data after : List UInt8} {offset : ℕ}
    (stored : store memory offset data = some after) :
    offset + data.length ≤ memory.length ∧ Stored memory offset data after := by
  have inside : offset + data.length ≤ memory.length := by
    by_contra outside
    rw [store, if_neg outside] at stored
    cases stored
  obtain ⟨result, storedResult, effect⟩ := exists_store memory offset data inside
  obtain rfl : result = after := some.inj (storedResult.symm.trans stored)
  exact ⟨inside, effect⟩

/-! ## Arrays of cells -/

theorem cells_apart {i j : ℕ} (size : ℕ) (apart : i ≠ j) :
    i * size + size ≤ j * size ∨ j * size + size ≤ i * size := by
  rw [← succ_mul, ← succ_mul]
  rcases lt_or_gt_of_ne apart with below | above
  · exact Or.inl (mul_le_mul_right size below)
  · exact Or.inr (mul_le_mul_right size above)

theorem cell_inside {i count : ℕ} (size : ℕ) (inside : i < count) :
    i * size + size ≤ count * size := by
  rw [← succ_mul]
  exact mul_le_mul_right size inside

/-! ## Little-endian fields -/

/-- The low `width` bytes of a number, the lowest first. -/
def littleEndian : ℕ → ℕ → List UInt8
  | 0, _ => []
  | width + 1, value => UInt8.ofNat value :: littleEndian width (value / 256)

def ofLittleEndian : List UInt8 → ℕ
  | [] => 0
  | byte :: bytes => byte.toNat + 256 * ofLittleEndian bytes

@[simp]
theorem length_littleEndian (width value : ℕ) : (littleEndian width value).length = width := by
  induction width generalizing value with
  | zero => rfl
  | succ width ih => simp only [littleEndian, length_cons, ih]

theorem ofLittleEndian_littleEndian {width value : ℕ} (fits : value < 256 ^ width) :
    ofLittleEndian (littleEndian width value) = value := by
  induction width generalizing value with
  | zero =>
    simp only [littleEndian, ofLittleEndian]
    omega
  | succ width ih =>
    have restFits : value / 256 < 256 ^ width := by
      rw [div_lt_iff_lt_mul (by decide)]
      rwa [pow_succ] at fits
    simp only [littleEndian, ofLittleEndian, ih restFits, UInt8.toNat_ofNat']
    exact mod_add_div value 256

/-! ## The range of `int` -/

def intMax : ℕ :=
  2 ^ 31 - 1

/-- The result of an operation on `int`s; one that is not representable is
undefined. -/
def int (value : Int) : Option Int :=
  if -(2 : Int) ^ 31 ≤ value ∧ value ≤ intMax then some value else none

theorem int_eq_some {value : Int} (lower : -(intMax : Int) ≤ value) (upper : value ≤ intMax) :
    int value = some value := by
  have bound : (intMax : Int) = 2 ^ 31 - 1 := rfl
  exact if_pos ⟨by omega, upper⟩

theorem int_eq_none {value : Int} (above : (intMax : Int) < value) :
    int value = none := if_neg fun range => absurd range.2 (by omega)

end Memory

end Skyc.Lib
