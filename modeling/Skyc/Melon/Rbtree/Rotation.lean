import Skyc.Melon.Rbtree.Model

/-!
# Rotations and transplants in memory

What the functions that redirect pointers do to a located tree.  No rotation
writes to the sentinel; a transplant writes its parent.
-/

namespace Skyc.Melon.Rbtree

open Skyc.Lib Option
open Skyc.Lib.TreeNodes
open Skyc.Lib.ColorTree
open Skyc.Lib.Context

variable {nodes : TreeNodes} {context : Context Addr} {side : Side}

/-- The sentinel is the same but for the pointers to its children, which nothing
reads. -/
structure SameSentinel (nodes other : TreeNodes) : Prop where
  parent : other.parent none = nodes.parent none
  color : other.color none = nodes.color none

theorem SameSentinel.trans {first second third : TreeNodes}
    (left : SameSentinel first second) (right : SameSentinel second third) :
    SameSentinel first third := ⟨right.parent.trans left.parent, right.color.trans left.color⟩

theorem sameSentinel_setColor (address : Addr) (color : Color) :
    SameSentinel nodes (nodes.setColor (some address) color) :=
  ⟨rfl, setColor_color_of_ne color (some_ne_none address).symm⟩

/-! ## Redirecting the pointer from above -/

/-- What `relink` leaves. -/
structure Relinked (nodes : TreeNodes) (context : Context Addr) (target : Ref)
    (other : TreeNodes) : Prop where
  surrounds : Surrounds other context target
  parent : other.parent = nodes.parent
  color : other.color = nodes.color
  child : ∀ side address, upper context ≠ some address →
    other.child side (some address) = nodes.child side (some address)

theorem relink_spec {address : Addr} (target : Ref)
    (surrounds : Surrounds nodes context (some address))
    (isParent : nodes.parent (some address) = upper context)
    (distinct : (values context).Nodup) (outside : address ∉ values context) :
    Relinked nodes context target (relink side (some address) target nodes) := by
  rw [relink, isParent]
  cases context with
  | nil =>
    rw [upper, if_pos rfl]
    exact ⟨rfl, rfl, rfl, fun _ _ _ => rfl⟩
  | cons frame rest =>
    obtain ⟨holds, ofSibling, above⟩ := surrounds
    have notSibling : frame.sibling.root ≠ some address := by
      intro isRoot
      apply outside
      simp [values, mem_of_root isRoot]
    have isUpper : upper (frame :: rest) = some frame.value := rfl
    -- whichever side is tested first, the pointer to the hole is written
    have written : (if (some frame.value : Ref) = none then
          { nodes with root := target }
        else if some address = nodes.child side (some frame.value) then
          nodes.setChild side (some frame.value) target
        else nodes.setChild side.other (some frame.value) target) =
        nodes.setChild frame.side (some frame.value) target := by
      rw [if_neg (some_ne_none frame.value)]
      rcases Side.eq_or_eq_other frame.side side with same | differs
      · rw [← same, holds.near, if_pos rfl]
      · have isFar : nodes.child side (some frame.value) = frame.sibling.root := by
          have far := holds.far
          rwa [differs, Side.other_other] at far
        rw [isFar, if_neg notSibling.symm, differs]
    rw [isUpper, written]
    have elsewhere : ∀ given other, some frame.value ≠ some other →
      (nodes.setChild frame.side (some frame.value) target).child given
        (some other) = nodes.child given (some other) := fun given other apart =>
      setChild_child_of_ne target apart.symm
    refine ⟨Surrounds.redirect ⟨holds, ofSibling, above⟩ distinct ?_ ?_ ?_, rfl, rfl, elsewhere⟩
    · intro impossible
      cases impossible
    · intro given remaining same
      cases same
      refine ⟨rfl, setChild_child_self target, ?_, holds.parent, holds.color⟩
      exact (setChild_child_of_side_ne target (Side.other_ne _)).trans holds.far
    · intro other _ apart
      exact ⟨fun given => elsewhere given other apart, rfl, rfl⟩

/-! ## Rotation -/

/-- The fields after the first writes of a rotation, before the pointer from
above is redirected. -/
structure Lifted (nodes : TreeNodes) (side : Side) (a b : Addr) (inner : Ref)
    (other : TreeNodes) : Prop where
  root : other.root = nodes.root
  color : other.color = nodes.color
  sentinel : other.parent none = nodes.parent none
  childA : other.child side.other (some a) = inner
  child : ∀ given address, (given = side.other → address ≠ a) →
    other.child given (some address) = nodes.child given (some address)
  parentB : other.parent (some b) = nodes.parent (some a)
  parentInner : ∀ address, inner = some address → other.parent (some address) = some a
  parent : ∀ address, address ≠ b → inner ≠ some address →
    other.parent (some address) = nodes.parent (some address)

theorem setChild_elsewhere {a : Addr} (inner : Ref) (given : Side)
    (address : Addr) (notWritten : given = side.other → address ≠ a) :
    (nodes.setChild side.other (some a) inner).child given (some address) =
      nodes.child given (some address) := by
  by_cases sameSide : given = side.other
  · exact setChild_child_of_ne inner (some_ne_some (notWritten sameSide))
  · exact setChild_child_of_side_ne inner sameSide

theorem lifted_spec {a b : Addr} {inner : Ref}
    (isInner : nodes.child side (some b) = inner) (notA : inner ≠ some a)
    (notB : inner ≠ some b) (isB : nodes.child side.other (some a) = some b) :
    ∃ other, Lifted nodes side a b inner other ∧
      rotate side (some a) nodes = (((relink side (some a) (some b) other).setChild side (some b)
        (some a)).setParent (some a) (some b)) := by
  have sideOfB : (nodes.setChild side.other (some a) inner).child side (some b) = inner :=
    (setChild_child_of_side_ne inner (Side.ne_other side)).trans isInner
  cases inner with
  | none =>
    refine ⟨(nodes.setChild side.other (some a) none).setParent (some b)
      (nodes.parent (some a)), ⟨rfl, rfl, ?_, setChild_child_self none,
      setChild_elsewhere none, setParent_parent_self _, ?_, ?_⟩, ?_⟩
    · exact setParent_parent_of_ne _ (some_ne_none b).symm
    · intro address impossible
      cases impossible
    · intro address notAddress _
      exact setParent_parent_of_ne _ (some_ne_some notAddress)
    · simp only [rotate, isB, isInner, sideOfB]
      rfl
  | some root =>
    have rootNotA : root ≠ a := fun same => notA (congrArg some same)
    have rootNotB : root ≠ b := fun same => notB (congrArg some same)
    refine ⟨((nodes.setChild side.other (some a) (some root)).setParent
      (some root) (some a)).setParent (some b) (nodes.parent (some a)),
      ⟨rfl, rfl, ?_, setChild_child_self (some root),
      setChild_elsewhere (some root), setParent_parent_self _, ?_, ?_⟩, ?_⟩
    · rw [setParent_parent_of_ne _ (some_ne_none b).symm,
        setParent_parent_of_ne _ (some_ne_none root).symm, setChild_parent]
    · intro address same
      cases same
      rw [setParent_parent_of_ne _ (some_ne_some rootNotB), setParent_parent_self]
    · intro address notAddress notInner
      rw [setParent_parent_of_ne _ (some_ne_some notAddress),
        setParent_parent_of_ne _ notInner.symm, setChild_parent]
    · simp only [rotate, isB, isInner, sideOfB]
      rw [if_neg (some_ne_none b), if_pos (some_ne_none root),
        setParent_parent_of_ne _ (some_ne_some rootNotA.symm), setChild_parent]

theorem rotate_spec {x y z : ColorTree Addr} {a b : Addr} {c d : Color}
    (located : Located nodes context (branch side x c a (branch side y d b z))) :
    Located (rotate side (some a) nodes) context (branch side (branch side x c a y) d b z) ∧
      SameSentinel nodes (rotate side (some a) nodes) := by
  have outer := located.apart
  have flipped : Located nodes context (branch side.other (branch side y d b z) c a x) := by
    rw [branch_other]
    exact located
  have inner := flipped.down.apart
  obtain ⟨holdsA, ofX, ofB⟩ := represents_branch.mp located.represents
  obtain ⟨holdsB, ofY, ofZ⟩ := represents_branch.mp ofB
  rw [root_branch] at holdsA
  have surrounds := located.surrounds
  rw [root_branch] at surrounds
  -- the nodes are all different
  have memB : b ∈ (branch side y d b z).toList := perm_branch.mem_iff.mpr List.mem_cons_self
  have memY : ∀ v ∈ y.toList, v ∈ (branch side y d b z).toList :=
    fun v inY => perm_branch.mem_iff.mpr (by simp [inY])
  have memZ : ∀ v ∈ z.toList, v ∈ (branch side y d b z).toList :=
    fun v inZ => perm_branch.mem_iff.mpr (by simp [inZ])
  have different : a ≠ b := fun same => outer.notFar (same ▸ memB)
  have innerNot : ∀ v, v ∉ y.toList → y.root ≠ some v :=
    fun v notMember isRoot => notMember (mem_of_root isRoot)
  have aNotY : a ∉ y.toList := fun inY => outer.notFar (memY a inY)
  have aNotZ : a ∉ z.toList := fun inZ => outer.notFar (memZ a inZ)
  have bNotX : b ∉ x.toList := fun inX => outer.sides b inX memB
  have bNotContext : b ∉ values context := outer.farContext b memB
  obtain ⟨lifted, isLifted, computes⟩ := lifted_spec holdsB.near
    (innerNot a aNotY) (innerNot b inner.notNear) holdsA.far
  rw [computes]
  have surroundsLifted : Surrounds lifted context (some a) := by
    apply surrounds.congr isLifted.root
    intro v member
    have notA : v ≠ a := fun same => outer.notContext (same ▸ member)
    have notB : v ≠ b := fun same => bNotContext (same ▸ member)
    have notY : v ∉ y.toList := fun inY =>
      outer.farContext v (memY v inY) member
    exact ⟨fun given => isLifted.child given v fun _ => notA,
      isLifted.parent v notB (innerNot v notY), congrFun isLifted.color _⟩
  have parentA : lifted.parent (some a) = upper context :=
    (isLifted.parent a different (innerNot a aNotY)).trans holdsA.parent
  have relinked := @relink_spec lifted context side a (some b) surroundsLifted
    parentA located.distinct_context outer.notContext
  generalize relink side (some a) (some b) lifted = after at relinked ⊢
  set final := (after.setChild side (some b) (some a)).setParent (some a) (some b)
  -- what the last two writes leave of the fields elsewhere
  have notUpper : ∀ v, v ∉ values context → upper context ≠ some v :=
    fun v outside isUpper => outside (Located.mem_above_values isUpper)
  have childElsewhere : ∀ given v, v ≠ b → v ∉ values context → (given = side.other → v ≠ a) →
      final.child given (some v) = nodes.child given (some v) := by
    intro given v notB outside notWritten
    exact (setChild_child_of_ne _ (some_ne_some notB)).trans
      ((relinked.child given v (notUpper v outside)).trans (isLifted.child given v notWritten))
  have parentElsewhere : ∀ v, v ≠ a → final.parent (some v) = lifted.parent (some v) := by
    intro v notA
    exact (setParent_parent_of_ne _ (some_ne_some notA)).trans (congrFun relinked.parent _)
  have colors : after.color = nodes.color := relinked.color.trans isLifted.color
  have sameAt : ∀ v, v ≠ a → v ≠ b → v ∉ y.toList → v ∉ values context → SameAt nodes final v := by
    intro v notA notB notY outside
    exact ⟨fun given => childElsewhere given v notB outside fun _ => notA,
      (parentElsewhere v notA).trans (isLifted.parent v notB (innerNot v notY)), congrFun colors _⟩
  have surroundsAfter : Surrounds final context (some b) := by
    refine relinked.surrounds.congr (show _ = after.root from rfl) ?_
    intro v member
    have notA : v ≠ a := fun same => outer.notContext (same ▸ member)
    have notB : v ≠ b := fun same => bNotContext (same ▸ member)
    exact ⟨fun given => setChild_child_of_ne _ (some_ne_some notB),
      setParent_parent_of_ne _ (some_ne_some notA), rfl⟩
  have newB : Holds final b (upper context) side (some a) d z.root := by
    refine ⟨setChild_child_self _, ?_, ?_, (congrFun colors _).trans holdsB.color⟩
    · exact (setChild_child_of_side_ne _ (Side.other_ne side)).trans
        ((relinked.child _ b (notUpper b bNotContext)).trans
          ((isLifted.child _ b fun _ => different.symm).trans holdsB.far))
    · exact (parentElsewhere b different.symm).trans (isLifted.parentB.trans holdsA.parent)
  have newA : Holds final a (some b) side x.root c y.root := by
    refine ⟨?_, ?_, setParent_parent_self _, (congrFun colors _).trans holdsA.color⟩
    · exact (childElsewhere side a different outer.notContext fun same =>
        absurd same (Side.ne_other side)).trans holdsA.near
    · exact (setChild_child_of_ne _ (some_ne_some different)).trans
        ((relinked.child _ a (notUpper a outer.notContext)).trans isLifted.childA)
  have newX : Represents final (some a) x := by
    apply ofX.congr
    intro v inX
    exact sameAt v (fun same => outer.notNear (same ▸ inX)) (fun same => bNotX (same ▸ inX))
      (fun inY => outer.sides v inX (memY v inY)) (outer.nearContext v inX)
  have newZ : Represents final (some b) z := by
    apply ofZ.congr
    intro v inZ
    exact sameAt v (fun same => aNotZ (same ▸ inZ)) (fun same => inner.notFar (same ▸ inZ))
      (fun inY => inner.sides v inY inZ) (outer.farContext v (memZ v inZ))
  have newY : Represents final (some a) y := by
    have notA : ∀ v ∈ y.toList, v ≠ a := fun v inY same => aNotY (same ▸ inY)
    have notB : ∀ v ∈ y.toList, v ≠ b := fun v inY same => inner.notNear (same ▸ inY)
    apply ofY.reparent inner.distinctNear
    · intro v inY given
      exact childElsewhere given v (notB v inY)
        (outer.farContext v (memY v inY)) fun _ => notA v inY
    · intro v _
      exact congrFun colors _
    · intro v inY notRoot
      exact (parentElsewhere v (notA v inY)).trans (isLifted.parent v (notB v inY) notRoot)
    · intro v isRoot
      exact (parentElsewhere v (notA v (mem_of_root isRoot))).trans (isLifted.parentInner v isRoot)
  constructor
  · refine ⟨?_, represents_branch.mpr ⟨?_, represents_branch.mpr ⟨newA, newX, newY⟩, newZ⟩, ?_⟩
    · rw [root_branch]
      exact surroundsAfter
    · rw [root_branch]
      exact newB
    · rw [toList_rotate side x y z a b c d c d]
      exact located.distinct
  · refine ⟨?_, congrFun colors none⟩
    exact (setParent_parent_of_ne _ (some_ne_none a).symm).trans
      ((congrFun relinked.parent _).trans isLifted.sentinel)

end Skyc.Melon.Rbtree
