import Mathlib

/-!
# Binary heaps in an array

The parent of position `i` is `(i - 1) / 2`.  An element moves up or down by
exchanges with its parent or its smaller child; the position it is at is the hole.
-/

namespace Skyc.Lib.BinaryHeap

open Function Equiv

universe u v

def parent (i : ℕ) : ℕ :=
  (i - 1) / 2

theorem parent_lt {i : ℕ} (positive : 0 < i) : parent i < i := by
  rw [parent]
  omega

theorem parent_eq_iff {i hole : ℕ} (positive : 0 < i) :
    parent i = hole ↔ i = 2 * hole + 1 ∨ i = 2 * hole + 2 := by
  rw [parent]
  omega

section Order

variable {K : Type u} [LinearOrder K]

/-- Every child below `start` and its descendants is not smaller than its
parent. -/
def OrderedFrom (keys : ℕ → K) (size start : ℕ) : Prop :=
  ∀ i, 0 < i → i < size → start ≤ parent i → keys (parent i) ≤ keys i

def Ordered (keys : ℕ → K) (size : ℕ) : Prop :=
  ∀ i, 0 < i → i < size → keys (parent i) ≤ keys i

variable {keys : ℕ → K} {size start hole child : ℕ}

theorem OrderedFrom.ordered (ordered : OrderedFrom keys size 0) :
    Ordered keys size := fun i positive inside => ordered i positive inside (Nat.zero_le _)

theorem Ordered.congr {other : ℕ → K} (ordered : Ordered keys size)
    (same : ∀ i < size, other i = keys i) : Ordered other size := by
  intro i positive inside
  rw [same i inside, same (parent i) ((parent_lt positive).trans inside)]
  exact ordered i positive inside

theorem Ordered.root_le (ordered : Ordered keys size) {i : ℕ} (inside : i < size) :
    keys 0 ≤ keys i := by
  induction i using Nat.strongRecOn with
  | ind i ih =>
    rcases Nat.eq_zero_or_pos i with isRoot | positive
    · rw [isRoot]
    · have below := parent_lt positive
      calc
        keys 0 ≤ keys (parent i) := ih (parent i) below (below.trans inside)
        _ ≤ keys i := ordered i positive inside

/-! ### Moving down -/

/-- The order from `start` on holds except below the hole, whose children
are not smaller than its parent. -/
structure DownReady (keys : ℕ → K) (size start hole : ℕ) : Prop where
  others : ∀ i, 0 < i → i < size → start ≤ parent i → parent i ≠ hole → keys (parent i) ≤ keys i
  grand : ∀ i, 0 < i → i < size → parent i = hole → 0 < hole →
    start ≤ parent hole → keys (parent hole) ≤ keys i

theorem DownReady.of_orderedFrom (ordered : OrderedFrom keys size (start + 1)) :
    DownReady keys size start start where
  others := by
    intro i positive inside above apart
    exact ordered i positive inside (by omega)
  grand := by
    intro i positive inside isChild notRoot above
    have below := parent_lt notRoot
    omega

theorem DownReady.finish (ready : DownReady keys size start hole)
    (least : ∀ i, 0 < i → i < size → parent i = hole →
      keys hole ≤ keys i) : OrderedFrom keys size start := by
  intro i positive inside above
  by_cases below : parent i = hole
  · rw [below]
    exact least i positive inside below
  · exact ready.others i positive inside above below

theorem DownReady.step (ready : DownReady keys size start hole)
    (above : start ≤ hole) (notRoot : 0 < child) (inside : child < size)
    (isChild : parent child = hole)
    (least : ∀ i, 0 < i → i < size → parent i = hole → keys child ≤ keys i)
    (smaller : keys child ≤ keys hole) :
    DownReady (keys ∘ Equiv.swap hole child) size start child := by
  constructor
  · intro i positive insideI aboveI notBelow
    simp only [comp_apply]
    by_cases atHole : parent i = hole
    · -- the children of the old hole, whose element is now the child's
      rw [atHole, swap_apply_left]
      by_cases isMoved : i = child
      · rw [isMoved, swap_apply_right]
        exact smaller
      · have notHole : i ≠ hole := by
          have below := parent_lt positive
          omega
        rw [swap_apply_of_ne_of_ne notHole isMoved]
        exact least i positive insideI atHole
    · rw [swap_apply_of_ne_of_ne atHole notBelow]
      have notMoved : i ≠ child := by
        intro isMoved
        exact atHole (isMoved ▸ isChild)
      by_cases isHole : i = hole
      · rw [isHole, swap_apply_left]
        rw [isHole] at positive aboveI
        exact ready.grand child notRoot inside isChild positive aboveI
      · rw [swap_apply_of_ne_of_ne isHole notMoved]
        exact ready.others i positive insideI aboveI atHole
  · intro i positive insideI below _ _
    simp only [comp_apply]
    have lower := parent_lt positive
    have upper := parent_lt notRoot
    have notMoved : i ≠ child := by omega
    have notHole : i ≠ hole := by omega
    rw [isChild, swap_apply_left, swap_apply_of_ne_of_ne notHole notMoved, ← below]
    apply ready.others i positive insideI
    · omega
    · omega

/-! ### Moving up -/

/-- The order holds except between the hole and its parent. -/
structure UpReady (keys : ℕ → K) (size hole : ℕ) : Prop where
  others : ∀ i, 0 < i → i < size → i ≠ hole → keys (parent i) ≤ keys i
  grand : ∀ i, 0 < i → i < size → parent i = hole → 0 < hole → keys (parent hole) ≤ keys i

theorem UpReady.of_ordered (ordered : Ordered keys size) : UpReady keys (size + 1) size where
  others := by
    intro i positive inside apart
    exact ordered i positive (by omega)
  grand := by
    intro i positive inside below
    have above := parent_lt positive
    omega

theorem UpReady.finish (ready : UpReady keys size hole)
    (greater : 0 < hole → keys (parent hole) ≤ keys hole) : Ordered keys size := by
  intro i positive inside
  by_cases isHole : i = hole
  · rw [isHole] at positive ⊢
    exact greater positive
  · exact ready.others i positive inside isHole

theorem UpReady.step (ready : UpReady keys size hole) (positive : 0 < hole)
    (inside : hole < size) (smaller : keys hole ≤ keys (parent hole)) :
    UpReady (keys ∘ Equiv.swap hole (parent hole)) size (parent hole) := by
  have below := parent_lt positive
  have sibling : ∀ i, 0 < i → i < size → i ≠ hole →
      parent i = parent hole → keys (parent hole) ≤ keys i := by
    intro i positiveI insideI apart same
    rw [← same]
    exact ready.others i positiveI insideI apart
  constructor
  · intro i positiveI insideI notParent
    simp only [comp_apply]
    by_cases isHole : i = hole
    · rw [isHole, swap_apply_left, swap_apply_right]
      exact smaller
    · rw [swap_apply_of_ne_of_ne isHole notParent]
      by_cases atHole : parent i = hole
      · rw [atHole, swap_apply_left]
        exact ready.grand i positiveI insideI atHole positive
      · by_cases atParent : parent i = parent hole
        · rw [atParent, swap_apply_right]
          exact smaller.trans (sibling i positiveI insideI isHole atParent)
        · rw [swap_apply_of_ne_of_ne atHole atParent]
          exact ready.others i positiveI insideI isHole
  · intro i positiveI insideI atParent notRoot
    simp only [comp_apply]
    have upper := parent_lt notRoot
    have edge : keys (parent (parent hole)) ≤ keys (parent hole) :=
      ready.others (parent hole) notRoot (below.trans inside) below.ne
    rw [swap_apply_of_ne_of_ne (Nat.ne_of_lt (upper.trans below)) upper.ne]
    by_cases isHole : i = hole
    · rw [isHole, swap_apply_left]
      exact edge
    · have notParent : i ≠ parent hole := by
        have lower := parent_lt positiveI
        omega
      rw [swap_apply_of_ne_of_ne isHole notParent]
      exact edge.trans (sibling i positiveI insideI isHole atParent)

end Order

section Rearranged

variable {A : Type v} {slots after next : ℕ → A} {size i j : ℕ} {element : A}

/-- The elements at the first positions are the same in another order. -/
def Rearranged (size : ℕ) (slots after : ℕ → A) : Prop :=
  ∃ moves : Equiv.Perm ℕ, (∀ i, moves i < size ↔ i < size) ∧ after = slots ∘ moves

namespace Rearranged

theorem refl (size : ℕ) (slots : ℕ → A) : Rearranged size slots slots :=
  ⟨Equiv.refl ℕ, fun _ => Iff.rfl, rfl⟩

theorem trans (first : Rearranged size slots after) (second : Rearranged size after next) :
    Rearranged size slots next := by
  obtain ⟨moves, inside, rfl⟩ := first
  obtain ⟨moreMoves, moreInside, rfl⟩ := second
  refine ⟨moreMoves.trans moves, ?_, rfl⟩
  intro i
  rw [trans_apply, inside, moreInside]

theorem swap (slots : ℕ → A) (insideI : i < size) (insideJ : j < size) :
    Rearranged size slots (slots ∘ Equiv.swap i j) := by
  refine ⟨Equiv.swap i j, ?_, rfl⟩
  intro position
  by_cases isI : position = i
  · rw [isI, Equiv.swap_apply_left]
    exact iff_of_true insideJ insideI
  · by_cases isJ : position = j
    · rw [isJ, Equiv.swap_apply_right]
      exact iff_of_true insideI insideJ
    · rw [Equiv.swap_apply_of_ne_of_ne isI isJ]

theorem exists_iff (rearranged : Rearranged size slots after) :
    (∃ i < size, after i = element) ↔ ∃ i < size, slots i = element := by
  obtain ⟨moves, inside, rfl⟩ := rearranged
  constructor
  · intro found
    obtain ⟨i, insideI, isElement⟩ := found
    exact ⟨moves i, (inside i).mpr insideI, isElement⟩
  · intro found
    obtain ⟨i, insideI, isElement⟩ := found
    refine ⟨moves.symm i, (inside _).mp ?_, ?_⟩
    · rw [apply_symm_apply]
      exact insideI
    · rw [comp_apply, apply_symm_apply, isElement]

theorem distinct (rearranged : Rearranged size slots after)
    (distinct : ∀ i < size, ∀ j < size, slots i = slots j → i = j) :
    ∀ i < size, ∀ j < size, after i = after j → i = j := by
  obtain ⟨moves, inside, rfl⟩ := rearranged
  intro i insideI j insideJ same
  exact moves.injective (distinct (moves i) ((inside i).mpr insideI)
    (moves j) ((inside j).mpr insideJ) same)

end Rearranged

end Rearranged

end Skyc.Lib.BinaryHeap
