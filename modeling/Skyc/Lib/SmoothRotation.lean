import Mathlib

/-!
# Smooth weighted rotation

Every candidate has a weight and a balance.  A turn adds to every balance the
candidate's weight and takes the sum of the weights from the balance of the
chosen one, whose raised balance is greatest.
-/

namespace Skyc.Lib

open List Finset

universe u

variable {ι : Type u} [Fintype ι] [DecidableEq ι]

namespace Rotation

def advance (weight balance : ι → ℤ) (chosen : ι) : ι → ℤ :=
  fun i => balance i + weight i - if i = chosen then ∑ j, weight j else 0

def Greatest (weight balance : ι → ℤ) (chosen : ι) : Prop :=
  ∀ i, balance i + weight i ≤ balance chosen + weight chosen

inductive Turns (weight : ι → ℤ) : (ι → ℤ) → List ι → (ι → ℤ) → Prop
  | nil (balance : ι → ℤ) : Turns weight balance [] balance
  | cons {balance final : ι → ℤ} {chosen : ι} {rest : List ι}
    (greatest : Greatest weight balance chosen)
    (later : Turns weight (advance weight balance chosen) rest final) :
    Turns weight balance (chosen :: rest) final

variable {weight balance final : ι → ℤ} {chosen : ι} {choices rest : List ι}

theorem sum_advance : ∑ i, advance weight balance chosen i = ∑ i, balance i := by
  simp only [advance, sum_sub_distrib, sum_add_distrib, sum_ite_eq', mem_univ, if_true]
  ring

/-! ## How far the balances spread

The weights may differ from turn to turn, and candidates of weight zero stay out
of the choice.
-/

/-- A set of candidates has at most half the bound for each pair of one in it and one outside. -/
def Spread (bound : ℤ) (balance : ι → ℤ) : Prop :=
  ∀ set : Finset ι, 2 * ∑ i ∈ set, balance i ≤ bound * (set.card * (Fintype.card ι - set.card))

variable {bound : ℤ}

omit [DecidableEq ι] in
theorem spread_zero (nonneg : 0 ≤ bound) : Spread bound fun _ : ι => 0 := by
  intro set
  have less : (set.card : ℤ) ≤ Fintype.card ι := by exact_mod_cast card_le_univ set
  rw [sum_const_zero, mul_zero]
  exact mul_nonneg nonneg (mul_nonneg (by omega) (by omega))

theorem sum_advance_le (balance : ι → ℤ) (nonneg : ∀ i, 0 ≤ weight i) {set : Finset ι}
    (member : chosen ∈ set) :
    ∑ i ∈ set, advance weight balance chosen i ≤ ∑ i ∈ set, balance i := by
  have part : ∑ i ∈ set, weight i ≤ ∑ i, weight i := sum_le_univ_sum_of_nonneg nonneg
  simp only [advance, sum_sub_distrib, sum_add_distrib, sum_ite_eq', if_pos member]
  omega

theorem spread_advance (spread : Spread bound balance) (nonneg : ∀ i, 0 ≤ weight i)
    (atMost : ∑ i, weight i ≤ bound)
    (greatest : ∀ i, weight i ≠ 0 → balance i + weight i ≤ balance chosen + weight chosen) :
    Spread bound (advance weight balance chosen) := by
  have around : ∀ set, chosen ∈ set → 2 * ∑ i ∈ set, advance weight balance chosen i ≤
      bound * (set.card * (Fintype.card ι - set.card)) := by
    intro set member
    have less := sum_advance_le balance nonneg member
    have before := spread set
    omega
  intro set
  induction set using Finset.strongInduction with
  | H set ih =>
    by_cases member : chosen ∈ set
    · exact around set member
    by_cases raised : ∃ i ∈ set, weight i ≠ 0
    · obtain ⟨i, inside, notZero⟩ := raised
      have apart : i ≠ chosen := ne_of_mem_of_not_mem inside member
      -- the set lies between one with the chosen candidate and one without `i`
      have more := around (insert chosen set) (mem_insert_self _ _)
      have fewer := ih (set.erase i) (erase_ssubset inside)
      have size := card_erase_add_one inside
      rw [sum_insert member, card_insert_of_notMem member] at more
      rw [← add_sum_erase set _ inside] at more ⊢
      have close : advance weight balance chosen i ≤
          advance weight balance chosen chosen + bound := by
        have smaller := greatest i notZero
        simp only [advance, if_neg apart, if_true]
        omega
      rw [← size] at more ⊢
      push_cast at more ⊢
      nlinarith
    · push Not at raised
      have same : ∑ i ∈ set, advance weight balance chosen i = ∑ i ∈ set, balance i := by
        apply sum_congr rfl
        intro i inside
        rw [advance, raised i inside, if_neg (ne_of_mem_of_not_mem inside member)]
        omega
      rw [same]
      exact spread set

theorem Spread.bounds (spread : Spread bound balance) (balanced : ∑ i, balance i = 0) (i : ι) :
    -(bound * (Fintype.card ι - 1)) ≤ 2 * balance i ∧
      2 * balance i ≤ bound * (Fintype.card ι - 1) := by
  have alone := spread {i}
  have others := spread (univ.erase i)
  have size := card_erase_add_one (mem_univ i)
  have rest := add_sum_erase univ balance (mem_univ i)
  rw [Finset.card_univ] at size
  rw [Finset.sum_singleton, card_singleton, Nat.cast_one, one_mul] at alone
  rw [← size] at others alone ⊢
  push_cast at others alone ⊢
  constructor
  · nlinarith
  · exact alone

/-! ## Turns with the same weights -/

section

variable (greatest : Greatest weight balance chosen) (balanced : ∑ i, balance i = 0)
  (positive : 0 < ∑ i, weight i)

include greatest balanced positive

omit [DecidableEq ι] in
theorem Greatest.pos :
    0 < balance chosen + weight chosen := by
  by_contra notPositive
  have bound : ∑ i, (balance i + weight i) ≤ ∑ _i : ι, (0 : ℤ) := by
    apply Finset.sum_le_sum
    intro i _
    have smaller := greatest i
    omega
  rw [sum_add_distrib, balanced, sum_const_zero] at bound
  omega

theorem lower_advance (nonneg : ∀ i, 0 ≤ weight i) (lower : ∀ i, - ∑ j, weight j < balance i) :
    ∀ i, - ∑ j, weight j < advance weight balance chosen i := by
  intro i
  by_cases isChosen : i = chosen
  · have raised := greatest.pos balanced positive
    rw [advance, if_pos isChosen, isChosen]
    omega
  · have raised := nonneg i
    have before := lower i
    rw [advance, if_neg isChosen]
    omega

end

namespace Turns

theorem append {middle : ι → ℤ} (first : Turns weight balance choices middle)
    (second : Turns weight middle rest final) : Turns weight balance (choices ++ rest) final := by
  induction first with
  | nil => exact second
  | cons greatest later ih => exact Turns.cons greatest (ih second)

theorem split (turns : Turns weight balance (choices ++ rest) final) :
    ∃ middle, Turns weight balance choices middle ∧ Turns weight middle rest final := by
  induction choices generalizing balance with
  | nil => exact ⟨balance, Turns.nil balance, turns⟩
  | cons chosen later ih =>
    cases turns with
    | cons greatest remaining =>
      obtain ⟨middle, first, second⟩ := ih remaining
      exact ⟨middle, Turns.cons greatest first, second⟩

theorem balance_eq (turns : Turns weight balance choices final) (i : ι) :
    final i = balance i + choices.length * weight i - choices.count i * ∑ j, weight j := by
  induction turns with
  | nil balance => simp
  | @cons balance final chosen rest greatest later ih =>
    rw [ih, advance, length_cons, count_cons]
    by_cases isChosen : i = chosen
    · subst isChosen
      simp only [if_true, BEq.rfl, Nat.cast_add, Nat.cast_one]
      ring
    · have apart : ¬ (chosen == i) = true := by simpa using Ne.symm isChosen
      simp only [if_neg isChosen, if_neg apart, Nat.cast_add, Nat.cast_one, add_zero]
      ring

theorem bounds (turns : Turns weight balance choices final)
    (balanced : ∑ i, balance i = 0) (positive : 0 < ∑ i, weight i)
    (nonneg : ∀ i, 0 ≤ weight i) (lower : ∀ i, - ∑ j, weight j < balance i) :
    ∑ i, final i = 0 ∧ ∀ i, - ∑ j, weight j < final i := by
  induction turns with
  | nil balance => exact ⟨balanced, lower⟩
  | cons greatest later ih =>
    exact ih (sum_advance.trans balanced) (lower_advance greatest balanced positive nonneg lower)

section

variable (turns : Turns weight (fun _ => 0) choices final) (positive : 0 < ∑ i, weight i)
  (nonneg : ∀ i, 0 ≤ weight i)

include turns positive nonneg

/-- As many turns as the weights sum to, from balances of zero, choose every candidate
as often as its weight says and return the balances to zero. -/
theorem period (complete : (choices.length : ℤ) = ∑ i, weight i) :
    (∀ i, (choices.count i : ℤ) = weight i) ∧ final = fun _ => 0 := by
  obtain ⟨balanced, lower⟩ := turns.bounds (by simp) positive nonneg (fun i => by omega)
  have value : ∀ i, final i = (∑ j, weight j) * (weight i - choices.count i) := by
    intro i
    rw [turns.balance_eq i, complete]
    ring
  -- the balances are multiples of the sum, above its negative
  have notNegative : ∀ i, 0 ≤ final i := by
    intro i
    have above := lower i
    rw [value i] at above ⊢
    have least : -1 < weight i - choices.count i := by
      by_contra small
      nlinarith
    have nonnegative : 0 ≤ weight i - choices.count i := by omega
    exact mul_nonneg positive.le nonnegative
  have zero : ∀ i, final i = 0 := by
    intro i
    exact (sum_eq_zero_iff_of_nonneg fun j _ => notNegative j).mp balanced i (mem_univ i)
  refine ⟨?_, funext zero⟩
  intro i
  have product := (value i).symm.trans (zero i)
  rcases mul_eq_zero.mp product with isZero | isZero
  · omega
  · omega

theorem periods {blocks period : ℕ}
    (isPeriod : (period : ℤ) = ∑ i, weight i) (complete : choices.length = blocks * period) :
    final = (fun _ => 0) ∧ ∀ block < blocks, ∀ i,
      (((choices.drop (block * period)).take period).count i : ℤ) = weight i := by
  induction blocks generalizing choices with
  | zero =>
    rw [zero_mul, length_eq_zero_iff] at complete
    subst complete
    cases turns with
    | nil =>
      refine ⟨rfl, ?_⟩
      intro block impossible
      omega
  | succ blocks ih =>
    rw [← take_append_drop period choices] at turns
    obtain ⟨middle, first, second⟩ := turns.split
    have firstLength : (choices.take period).length = period := by
      rw [length_take, complete, add_mul]
      omega
    have restLength : (choices.drop period).length = blocks * period := by
      rw [length_drop, complete, add_mul]
      omega
    obtain ⟨counts, isZero⟩ := first.period positive nonneg (by rw [firstLength, isPeriod])
    rw [isZero] at second
    obtain ⟨finalZero, later⟩ := ih second restLength
    refine ⟨finalZero, ?_⟩
    intro block less i
    cases block with
    | zero =>
      rw [zero_mul, drop_zero]
      exact counts i
    | succ block =>
      have found := later block (by omega) i
      rw [drop_drop] at found
      rw [add_mul, one_mul, add_comm]
      exact found

end

end Turns

end Rotation

end Skyc.Lib
