import Skyc.Lib.Memory

/-!
# Forests with ranks

Union-find over a finite type of nodes: every node has a parent, the parent of
a root is the root itself, and ranks grow along all other links.
-/

namespace Skyc.Lib

open Function List

variable {Node : Type}

structure RankedForest (Node : Type) where
  parent : Node → Node
  rank : Node → ℕ
  rank_lt : ∀ node, parent node ≠ node → rank node < rank (parent node)

namespace RankedForest

variable (forest : RankedForest Node)

def IsRoot (node : Node) : Prop :=
  forest.parent node = node

instance [DecidableEq Node] (node : Node) : Decidable (forest.IsRoot node) :=
  inferInstanceAs (Decidable (forest.parent node = node))

def singletons (Node : Type) : RankedForest Node where
  parent := id
  rank := fun _ => 0
  rank_lt := by
    intro node notRoot
    exact absurd rfl notRoot

/-! ## Roots -/

/-- The number of nodes of higher rank, a bound on the way to the root. -/
def height [Fintype Node] (node : Node) : ℕ :=
  (Finset.univ.filter fun other =>
    forest.rank node < forest.rank other).card

variable {node left right : Node} {pairs : List (Node × Node)}

theorem height_parent_lt [Fintype Node] (notRoot : ¬ forest.IsRoot node) :
    forest.height (forest.parent node) < forest.height node := by
  have higher := forest.rank_lt node notRoot
  apply Finset.card_lt_card
  rw [Finset.ssubset_iff_of_subset]
  · refine ⟨forest.parent node, ?_, ?_⟩
    · simpa using higher
    · simp
  · intro other above
    simp only [Finset.mem_filter, Finset.mem_univ, true_and] at above ⊢
    omega

theorem height_lt_card [Fintype Node] (node : Node) :
    forest.height node < Fintype.card Node := by
  have notAbove : node ∉ Finset.univ.filter fun other =>
      forest.rank node < forest.rank other := by
    simp
  exact Finset.card_lt_univ_of_notMem notAbove

def root [DecidableEq Node] [Fintype Node] (forest : RankedForest Node) (node : Node) : Node :=
  if _isRoot : forest.IsRoot node then
    node
  else
    forest.root (forest.parent node)
termination_by forest.height node
decreasing_by
  apply forest.height_parent_lt
  assumption

variable [DecidableEq Node] [Fintype Node]

theorem root_of_isRoot {forest : RankedForest Node} (isRoot : forest.IsRoot node) :
    forest.root node = node := by
  rw [root, dif_pos isRoot]

theorem root_parent (node : Node) : forest.root (forest.parent node) = forest.root node := by
  by_cases isRoot : forest.IsRoot node
  · rw [isRoot]
  · conv_rhs => rw [root, dif_neg isRoot]

theorem induction_up {motive : Node → Prop}
    (atRoot : ∀ node, forest.IsRoot node → motive node) (below : ∀ node, ¬ forest.IsRoot node →
      motive (forest.parent node) → motive node) (node : Node) : motive node := by
  induction measured : forest.height node using Nat.strongRecOn generalizing node with
  | ind height ih =>
    by_cases isRoot : forest.IsRoot node
    · exact atRoot node isRoot
    · apply below node isRoot
      have lower := forest.height_parent_lt isRoot
      rw [measured] at lower
      exact ih _ lower _ rfl

theorem isRoot_root (node : Node) : forest.IsRoot (forest.root node) := by
  induction node using forest.induction_up with
  | atRoot node isRoot => rwa [root_of_isRoot isRoot]
  | below node _ ih => rwa [root_parent] at ih

theorem rank_le_rank_root (node : Node) : forest.rank node ≤ forest.rank (forest.root node) := by
  induction node using forest.induction_up with
  | atRoot node isRoot => rw [root_of_isRoot isRoot]
  | below node notRoot ih =>
    have higher := forest.rank_lt node notRoot
    rw [root_parent] at ih
    omega

theorem rank_lt_rank_root (notRoot : ¬ forest.IsRoot node) :
    forest.rank node < forest.rank (forest.root node) := by
  have higher := forest.rank_lt node notRoot
  have rest := forest.rank_le_rank_root (forest.parent node)
  rw [root_parent] at rest
  omega

/-! ## Redirecting a node -/

/-- One assignment of the path compression. -/
def redirect (node : Node) : RankedForest Node where
  parent := update forest.parent node (forest.root node)
  rank := forest.rank
  rank_lt := by
    intro other notRoot
    by_cases same : other = node
    · subst same
      rw [update_self] at notRoot ⊢
      apply forest.rank_lt_rank_root
      intro isRoot
      exact notRoot (root_of_isRoot isRoot)
    · rw [update_of_ne same] at notRoot ⊢
      exact forest.rank_lt other notRoot

theorem redirect_parent_root (node other : Node) :
    (forest.redirect node).IsRoot (forest.root other) := by
  have isRoot := forest.isRoot_root other
  by_cases same : forest.root other = node
  · rw [same] at isRoot ⊢
    exact (update_self ..).trans (root_of_isRoot isRoot)
  · exact (update_of_ne same ..).trans isRoot

theorem root_redirect (node other : Node) :
    (forest.redirect node).root other = forest.root other := by
  induction other using forest.induction_up with
  | atRoot other isRoot =>
    have stays := forest.redirect_parent_root node other
    rw [root_of_isRoot isRoot] at stays ⊢
    exact root_of_isRoot stays
  | below other _ ih =>
    rw [← root_parent (forest.redirect node)]
    by_cases same : other = node
    · subst same
      have direct : (forest.redirect other).parent other = forest.root other := update_self ..
      rw [direct]
      exact root_of_isRoot (forest.redirect_parent_root other other)
    · have unchanged : (forest.redirect node).parent other = forest.parent other :=
        update_of_ne same ..
      rw [unchanged, ih, root_parent]

/-! ## Linking two roots -/

/-- `lower` becomes a child of `upper`. -/
def link (upper lower : Node)
    (upperRoot : forest.IsRoot upper) (lowerRoot : forest.IsRoot lower) (apart : upper ≠ lower)
    (ordered : forest.rank lower ≤ forest.rank upper) : RankedForest Node where
  parent := update forest.parent lower upper
  rank :=
    if forest.rank upper = forest.rank lower then
      update forest.rank upper (forest.rank upper + 1)
    else
      forest.rank
  rank_lt := by
    intro node notRoot
    by_cases isLower : node = lower
    · subst isLower
      rw [update_self]
      split
      · rw [update_self, update_of_ne (Ne.symm apart)]
        omega
      · omega
    · rw [update_of_ne isLower] at notRoot ⊢
      have higher := forest.rank_lt node notRoot
      have notUpper : node ≠ upper := by
        intro isUpper
        rw [isUpper] at notRoot
        exact notRoot upperRoot
      split
      · rw [update_of_ne notUpper]
        by_cases below : forest.parent node = upper
        · rw [below, update_self]
          rw [below] at higher
          omega
        · rwa [update_of_ne below]
      · exact higher

variable {upper lower : Node}
  (upperRoot : forest.IsRoot upper) (lowerRoot : forest.IsRoot lower) (apart : upper ≠ lower)
  (ordered : forest.rank lower ≤ forest.rank upper)

theorem root_link (node : Node) :
    (forest.link upper lower upperRoot lowerRoot apart ordered).root node =
      if forest.root node = lower then upper else forest.root node := by
  have upperParent : (forest.link upper lower upperRoot lowerRoot apart ordered).IsRoot upper :=
    (update_of_ne apart ..).trans upperRoot
  induction node using forest.induction_up with
  | atRoot node isRoot =>
    rw [root_of_isRoot isRoot]
    by_cases isLower : node = lower
    · rw [if_pos isLower, isLower, ← root_parent]
      have below : (forest.link upper lower upperRoot lowerRoot apart
        ordered).parent lower = upper := update_self ..
      rw [below]
      exact root_of_isRoot upperParent
    · rw [if_neg isLower]
      exact root_of_isRoot ((update_of_ne isLower ..).trans isRoot)
  | below node notRoot ih =>
    have notLower : node ≠ lower := by
      intro isLower
      rw [isLower] at notRoot
      exact notRoot lowerRoot
    have unchanged : (forest.link upper lower upperRoot lowerRoot apart
      ordered).parent node = forest.parent node := update_of_ne notLower ..
    rw [← root_parent, unchanged, ih, root_parent]

variable {forest}

/-! ## The classes -/

/-- The trees of the forest are the classes of an equivalence generated by
`pairs`. -/
def Partitions (forest : RankedForest Node) (pairs : List (Node × Node)) : Prop :=
  ∀ first second, forest.root first = forest.root second ↔
    Relation.EqvGen (fun left right => (left, right) ∈ pairs) first second

theorem partitions_singletons (Node : Type) [DecidableEq Node] [Fintype Node] :
    (singletons Node).Partitions [] := by
  have rootEq : ∀ node, (singletons Node).root node = node := by
    intro node
    apply root_of_isRoot
    rfl
  intro first second
  rw [rootEq, rootEq]
  constructor
  · rintro rfl
    exact .refl _
  · intro related
    induction related with
    | rel _ _ member => exact absurd member not_mem_nil
    | refl _ => rfl
    | symm _ _ _ ih => exact ih.symm
    | trans _ _ _ _ _ left right => exact left.trans right

/-- If the roots after a step depend on the roots before it, and join exactly
one more pair, the step adds that pair. -/
theorem Partitions.add {before after : RankedForest Node} (partitions : before.Partitions pairs)
    (kept : ∀ first second, before.root first = before.root second →
      after.root first = after.root second) (joined : after.root left = after.root right)
    (only : ∀ first second, after.root first = after.root second →
      before.root first = before.root second ∨ (before.root first = before.root left ∧
          before.root second = before.root right) ∨
        (before.root first = before.root right ∧ before.root second = before.root left)) :
    after.Partitions (pairs ++ [(left, right)]) := by
  have widen : ∀ {first second}, before.root first = before.root second →
      Relation.EqvGen (fun one other => (one, other) ∈ pairs ++ [(left, right)]) first second := by
    intro first second same
    have related := (partitions first second).mp same
    exact related.mono fun one other member =>
      mem_append_left _ member
  have added : Relation.EqvGen (fun one other => (one, other) ∈ pairs ++ [(left, right)])
    left right := .rel _ _ (mem_append_right _ (mem_singleton.mpr rfl))
  intro first second
  constructor
  · intro same
    rcases only first second same with
      sameBefore | ⟨firstLeft, secondRight⟩ | ⟨firstRight, secondLeft⟩
    · exact widen sameBefore
    · exact .trans _ _ _ (widen firstLeft) (.trans _ _ _ added (widen secondRight.symm))
    · exact .trans _ _ _ (widen firstRight) (.trans _ _ _ (.symm _ _ added) (widen secondLeft.symm))
  · intro related
    induction related with
    | rel one other member =>
      rcases mem_append.mp member with old | new
      · exact kept one other ((partitions one other).mpr (.rel _ _ old))
      · obtain ⟨rfl, rfl⟩ := Prod.mk.inj (mem_singleton.mp new)
        exact joined
    | refl _ => rfl
    | symm _ _ _ ih => exact ih.symm
    | trans _ _ _ _ _ one other => exact one.trans other

theorem Partitions.congr {before after : RankedForest Node} (partitions : before.Partitions pairs)
    (roots : ∀ node, after.root node = before.root node) : after.Partitions pairs := by
  intro first second
  rw [roots, roots]
  exact partitions first second

theorem Partitions.link (partitions : forest.Partitions pairs) (ends :
      forest.root left = upper ∧ forest.root right = lower ∨
        forest.root left = lower ∧ forest.root right = upper) :
    (forest.link upper lower upperRoot lowerRoot apart
      ordered).Partitions (pairs ++ [(left, right)]) := by
  have roots := forest.root_link upperRoot lowerRoot apart ordered
  apply partitions.add
  · intro first second same
    rw [roots, roots, same]
  · rcases ends with ⟨isUpper, isLower⟩ | ⟨isLower, isUpper⟩
    · rw [roots, roots, isUpper, isLower, if_neg apart, if_pos rfl]
    · rw [roots, roots, isUpper, isLower, if_neg apart, if_pos rfl]
  · intro first second same
    rw [roots, roots] at same
    -- A root that is not `lower` stays, and `lower` becomes `upper`.
    split_ifs at same with firstLower secondLower secondLower
    · exact .inl (firstLower.trans secondLower.symm)
    · right
      rcases ends with ⟨isUpper, isLower⟩ | ⟨isLower, isUpper⟩
      · right
        exact ⟨firstLower.trans isLower.symm, same.symm.trans isUpper.symm⟩
      · left
        exact ⟨firstLower.trans isLower.symm, same.symm.trans isUpper.symm⟩
    · right
      rcases ends with ⟨isUpper, isLower⟩ | ⟨isLower, isUpper⟩
      · left
        exact ⟨same.trans isUpper.symm, secondLower.trans isLower.symm⟩
      · right
        exact ⟨same.trans isUpper.symm, secondLower.trans isLower.symm⟩
    · exact .inl same

theorem Partitions.card_classes
    (partitions : forest.Partitions pairs) :
    Nat.card (Quotient (Relation.EqvGen.setoid fun left right => (left, right) ∈ pairs)) =
      (Finset.univ.filter forest.IsRoot).card := by
  let classes := Relation.EqvGen.setoid fun left right : Node => (left, right) ∈ pairs
  let rootOf : Quotient classes → { node // forest.IsRoot node } := Quotient.lift
    (fun node => ⟨forest.root node, forest.isRoot_root node⟩) (by
      intro first second related
      exact Subtype.ext ((partitions first second).mpr related))
  have bijective : Function.Bijective rootOf := by
    constructor
    · intro one other
      induction one using Quotient.inductionOn with
      | h first =>
        induction other using Quotient.inductionOn with
        | h second =>
          intro same
          exact Quotient.sound ((partitions first second).mp (congrArg Subtype.val same))
    · rintro ⟨node, isRoot⟩
      exact ⟨Quotient.mk classes node, Subtype.ext (root_of_isRoot isRoot)⟩
  rw [Nat.card_eq_of_bijective rootOf bijective, Nat.card_eq_fintype_card, Fintype.card_subtype]

/-! ## The sizes of the classes -/

def classOf (forest : RankedForest Node) (top : Node) : Finset Node :=
  Finset.univ.filter fun node => forest.root node = top

/-- A class has at least as many nodes as two to the rank of its root. -/
def Weighted (forest : RankedForest Node) : Prop :=
  ∀ node, 2 ^ forest.rank (forest.root node) ≤ (forest.classOf (forest.root node)).card

theorem weighted_singletons (Node : Type) [DecidableEq Node] [Fintype Node] :
    (singletons Node).Weighted := by
  intro node
  exact Finset.card_pos.mpr ⟨node, by simp [classOf]⟩

theorem Weighted.link (weighted : forest.Weighted) :
    (forest.link upper lower upperRoot lowerRoot apart ordered).Weighted := by
  have roots := forest.root_link upperRoot lowerRoot apart ordered
  intro node
  by_cases isUpper : (if forest.root node = lower then upper else forest.root node) = upper
  · have joined : (forest.link upper lower upperRoot lowerRoot apart ordered).classOf upper =
        forest.classOf upper ∪ forest.classOf lower := by
      ext other
      by_cases isLower : forest.root other = lower
      · simp [classOf, roots, isLower]
      · simp [classOf, roots, isLower]
    have disjoint : Disjoint (forest.classOf upper) (forest.classOf lower) := by
      apply Finset.disjoint_filter.mpr
      intro other _ isUpper isLower
      exact apart (isUpper.symm.trans isLower)
    have large := weighted upper
    have small := weighted lower
    rw [root_of_isRoot upperRoot] at large
    rw [root_of_isRoot lowerRoot] at small
    rw [roots, isUpper, joined, Finset.card_union_of_disjoint disjoint]
    simp only [RankedForest.link]
    split
    next tie =>
      rw [update_self, pow_succ]
      rw [← tie] at small
      omega
    next => omega
  · have notLower : forest.root node ≠ lower := fun isLower => isUpper (if_pos isLower)
    rw [if_neg notLower] at isUpper
    have kept : (forest.link upper lower upperRoot lowerRoot apart ordered).classOf
        (forest.root node) = forest.classOf (forest.root node) := by
      ext other
      by_cases isLower : forest.root other = lower
      · simp [classOf, roots, isLower, Ne.symm isUpper, Ne.symm notLower]
      · simp [classOf, roots, isLower]
    rw [roots, if_neg notLower, kept]
    simp only [RankedForest.link]
    split
    · rw [update_of_ne isUpper]
      exact weighted node
    · exact weighted node

theorem Weighted.rank_le (weighted : forest.Weighted) (node : Node) :
    forest.rank (forest.root node) ≤ Nat.log 2 (Fintype.card Node) :=
  Nat.le_log_of_pow_le one_lt_two ((weighted node).trans (Finset.card_le_univ _))

/-- The classes generated by `pairs` with their sizes. -/
structure Classes (forest : RankedForest Node) (pairs : List (Node × Node)) : Prop where
  partitions : forest.Partitions pairs
  weighted : forest.Weighted

theorem Classes.congr {before after : RankedForest Node} (classes : before.Classes pairs)
    (ranks : after.rank = before.rank) (roots : ∀ node, after.root node = before.root node) :
    after.Classes pairs := by
  refine ⟨classes.partitions.congr roots, ?_⟩
  intro node
  simp only [classOf, roots, ranks]
  exact classes.weighted node

end RankedForest

end Skyc.Lib
