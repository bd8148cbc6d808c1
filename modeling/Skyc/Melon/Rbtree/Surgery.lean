import Skyc.Melon.Rbtree.Deletion

/-!
# Putting a node into the tree and taking one out

A node with one child at most is replaced by it; a node with two children is
replaced by the least node of its right subtree, whose place its right child takes.
-/

namespace Skyc.Melon.Rbtree

open Skyc.Lib
open Skyc.Lib.TreeNodes
open Skyc.Lib.ColorTree
open Skyc.Lib.Context

variable {nodes : TreeNodes} {context : Context Addr} {side : Side}
  {tree : ColorTree Addr} {frame : Frame Addr}

variable {address : Addr} {turns : ℕ}

theorem notMem_upper (outside : address ∉ values context) : upper context ≠ some address :=
  fun isUpper => outside (Located.mem_above_values isUpper)

/-! ## A new leaf -/

theorem attach_spec (located : Located nodes context nil) (outside : address ∉ values context)
    (sameSide : ∀ frame rest, context = frame :: rest → side = frame.side) :
    Located (attach address (upper context) side nodes) context (node nil .red address nil) ∧
      SameSentinel nodes (attach address (upper context) side nodes) := by
  -- the pointer from above, and the fields elsewhere
  obtain ⟨middle, isMiddle, root, child, childElsewhere, parent, color⟩ : ∃ middle : TreeNodes,
      middle = (if upper context = none then
        { (nodes.setParent (some address) (upper context)) with
          root := some address }
      else (nodes.setParent (some address) (upper context)).setChild side
        (upper context) (some address)) ∧
      (context = [] → middle.root = some address) ∧
      (∀ frame rest, context = frame :: rest → middle.root = nodes.root ∧
        middle.child frame.side (some frame.value) = some address ∧
        middle.child frame.side.other (some frame.value) =
          nodes.child frame.side.other (some frame.value)) ∧
      (∀ given ref, ref ≠ upper context → middle.child given ref = nodes.child given ref) ∧
      (∀ ref, middle.parent ref = if ref = some address then upper context
        else nodes.parent ref) ∧
      middle.color = nodes.color := by
    cases context with
    | nil =>
      refine ⟨_, rfl, fun _ => rfl, ?_, fun _ _ _ => rfl, fun _ => rfl, rfl⟩
      exact nofun
    | cons frame rest =>
      have isSide := sameSide frame rest rfl
      subst isSide
      refine ⟨_, rfl, ?_, ?_, ?_, ?_, ?_⟩
      · exact nofun
      · intro given remaining same
        cases same
        rw [upper, if_neg (Option.some_ne_none frame.value)]
        exact ⟨rfl, setChild_child_self _, setChild_child_of_side_ne _ (Side.other_ne _)⟩
      · intro given ref notUpper
        rw [upper, if_neg (Option.some_ne_none frame.value)]
        exact setChild_child_of_ne _ notUpper
      · intro ref
        rw [upper, if_neg (Option.some_ne_none frame.value)]
        rfl
      · rw [upper, if_neg (Option.some_ne_none frame.value)]
        rfl
  rw [attach, ← isMiddle]
  set final := ((middle.setChild .right (some address) none).setChild .left
    (some address) none).setColor (some address) .red
  have kept : ∀ ref, ref ≠ some address →
      (∀ given, final.child given ref = middle.child given ref) ∧
        final.parent ref = nodes.parent ref ∧ final.color ref = nodes.color ref := by
    intro ref apart
    refine ⟨fun given => ?_, (parent ref).trans (if_neg apart), ?_⟩
    · exact (setChild_child_of_ne _ apart).trans (setChild_child_of_ne _ apart)
    · exact (setColor_color_of_ne _ apart).trans (congrFun color ref)
  constructor
  · refine ⟨?_, ⟨⟨setChild_child_self _, ?_, ?_, setColor_color_self _⟩, trivial, trivial⟩, ?_⟩
    · apply located.surrounds.redirect located.distinct_context
      · exact root
      · intro frame rest isContext
        have inContext : frame.value ∈ values context := by
          rw [isContext]
          simp [values]
        have apart : frame.value ≠ address := by
          rintro rfl
          exact outside inContext
        obtain ⟨sameRoot, near, far⟩ := child frame rest isContext
        have holds : Holds nodes frame.value (upper rest) frame.side none
            frame.color frame.sibling.root := by
          have surrounds := located.surrounds
          rw [isContext] at surrounds
          exact surrounds.1
        obtain ⟨sameChild, sameParent, sameColor⟩ := kept _ (some_ne_some apart)
        exact ⟨sameRoot, (sameChild _).trans near, (sameChild _).trans (far.trans holds.far),
          sameParent.trans holds.parent, sameColor.trans holds.color⟩
      · intro v member notUpper
        have apart : v ≠ address := by
          rintro rfl
          exact outside member
        obtain ⟨sameChild, sameParent, sameColor⟩ := kept _ (some_ne_some apart)
        exact ⟨fun given => (sameChild given).trans (childElsewhere given _ notUpper.symm),
          sameParent, sameColor⟩
    · have otherSide : Side.left.other ≠ Side.left := Side.other_ne .left
      rw [setColor_child, setChild_child_of_side_ne _ otherSide]
      exact setChild_child_self none
    · rw [setColor_parent, setChild_parent, setChild_parent, parent, if_pos rfl]
    · change (address :: values context).Nodup
      exact List.nodup_cons.mpr ⟨outside, located.distinct_context⟩
  · obtain ⟨-, sameParent, sameColor⟩ := kept none (Option.some_ne_none address).symm
    exact ⟨sameParent, sameColor⟩

/-! ## Transplants -/

/-- What `rbtree_transplant` leaves when a tree takes the place of another
one. -/
structure Transplanted (nodes : TreeNodes) (context : Context Addr)
    (tree : ColorTree Addr) (after : TreeNodes) : Prop where
  surrounds : Surrounds after context tree.root
  parentRoot : after.parent tree.root = upper context
  color : after.color = nodes.color
  child : ∀ side address, upper context ≠ some address →
    after.child side (some address) = nodes.child side (some address)
  parent : ∀ ref, ref ≠ tree.root → after.parent ref = nodes.parent ref

theorem transplant_spec (surrounds : Surrounds nodes context (some address))
    (isParent : nodes.parent (some address) = upper context)
    (distinct : (values context).Nodup) (outside : address ∉ values context)
    (apart : ∀ other ∈ tree.toList, other ∉ values context) :
    Transplanted nodes context tree (transplant (some address) tree.root nodes) := by
  have relinked := @relink_spec nodes context .left address tree.root surrounds
    isParent distinct outside
  rw [transplant, isParent]
  generalize relink .left (some address) tree.root nodes = after at relinked ⊢
  refine ⟨?_, setParent_parent_self _, relinked.color, relinked.child, ?_⟩
  · refine relinked.surrounds.congr (show _ = after.root from rfl) ?_
    intro other member
    refine ⟨fun _ => rfl, setParent_parent_of_ne _ ?_, rfl⟩
    intro isRoot
    exact apart other (mem_of_root isRoot.symm) member
  · intro ref notRoot
    rw [setParent_parent_of_ne _ notRoot, relinked.parent]

variable {above : Ref}

theorem Transplanted.represents {after : TreeNodes}
    (transplanted : Transplanted nodes context tree after)
    (represents : Represents nodes above tree) (distinct : tree.toList.Nodup)
    (apart : ∀ other ∈ tree.toList, other ∉ values context) :
    Represents after (upper context) tree := by
  apply represents.reparent distinct
  · intro other member given
    exact transplanted.child given other (notMem_upper (apart other member))
  · intro other _
    exact congrFun transplanted.color _
  · intro other _ notRoot
    exact transplanted.parent (some other) notRoot.symm
  · intro other isRoot
    rw [← isRoot]
    exact transplanted.parentRoot

theorem transplant_child {color : Color}
    {near far : ColorTree Addr} (sentinel : nodes.color none = .black)
    (located : Located nodes context (branch side near color address far)) :
    Focused (transplant (some address) near.root nodes) context near := by
  have apart := located.apart
  have surrounds := located.surrounds
  rw [root_branch] at surrounds
  have transplanted := transplant_spec surrounds located.holds.parent
    located.distinct_context apart.notContext apart.nearContext
  have ofNear := (represents_branch.mp located.represents).2.1
  refine ⟨⟨transplanted.surrounds, transplanted.represents ofNear
    apart.distinctNear apart.nearContext, ?_⟩, transplanted.parentRoot,
    (congrFun transplanted.color none).trans sentinel⟩
  rw [List.nodup_append]
  refine ⟨apart.distinctNear, located.distinct_context, ?_⟩
  rintro other inNear _ inContext rfl
  exact apart.nearContext other inNear inContext

/-! ## The least node -/

theorem minimum_spec (represents : Represents nodes above tree) (notNil : tree ≠ nil)
    (enough : tree.toList.length < turns + 1) :
    ∃ path color least right, tree = plug path (node nil color least right) ∧ before path = [] ∧
      minimum nodes turns tree.root = some (some least) := by
  induction tree generalizing turns above with
  | nil => exact absurd rfl notNil
  | node left color value right ofLeft ofRight =>
    obtain ⟨holds, leftRepresents, _⟩ := represents
    simp only [toList, List.length_append, List.length_cons] at enough
    obtain ⟨fewer, rfl⟩ : ∃ fewer, turns = fewer + 1 := Nat.exists_eq_succ_of_ne_zero (by omega)
    change ∃ path color least right, _ ∧ _ ∧
      minimum nodes (fewer + 1) (some value) = some (some least)
    rw [minimum, holds.near]
    by_cases isNil : left = nil
    · subst isNil
      exact ⟨[], color, value, right, rfl, rfl, if_neg (not_not_intro rfl)⟩
    · obtain ⟨path, leastColor, least, leastRight, isPlug, noneBefore,
        isLeast⟩ := @ofLeft fewer _ leftRepresents isNil (by omega)
      have notNone : left.root ≠ none := fun isNone =>
        isNil (root_eq_none.mp isNone)
      rw [if_pos notNone]
      refine ⟨path ++ [⟨.left, color, value, right⟩], leastColor, least,
        leastRight, ?_, ?_, isLeast⟩
      · rw [plug_append, ← isPlug]
        rfl
      · rw [before_append, noneBefore]
        rfl

/-! ## Taking a node out -/

section Replace

variable {color : Color} {n y : Ref} {a b : Addr} {left right : ColorTree Addr}

/-- What has to hold of the nodes when `y` takes the place of `n`: the right
subtree is already below `y`. -/
structure Ready (nodes : TreeNodes) (context : Context Addr) (color : Color)
    (a b : Addr) (left right : ColorTree Addr) : Prop where
  surrounds : Surrounds nodes context (some a)
  parent : nodes.parent (some a) = upper context
  colorA : nodes.color (some a) = color
  childA : nodes.child .left (some a) = left.root
  childB : nodes.child .right (some b) = right.root
  ofLeft : Represents nodes (some a) left
  ofRight : Represents nodes (some b) right
  distinct : (a :: b :: (left.toList ++ right.toList ++ values context)).Nodup
  notNil : left ≠ nil

theorem settle_spec (ready : Ready nodes context color a b left right) :
    Located (settle (some a) (some b) nodes) context (node left color b right) ∧
      SameSentinel nodes (settle (some a) (some b) nodes) := by
  have distinct := ready.distinct
  simp only [List.nodup_cons, List.mem_cons, List.mem_append, not_or, List.nodup_append] at distinct
  obtain ⟨⟨apart, ⟨aNotLeft, aNotRight⟩, aNotContext⟩, ⟨⟨bNotLeft, bNotRight⟩, bNotContext⟩,
    ⟨distinctLeft, distinctRight, sides⟩, distinctContext, outside⟩ := distinct
  have leftContext : ∀ v ∈ left.toList, v ∉ values context :=
    fun v inLeft inContext => outside v (.inl inLeft) v inContext rfl
  have rightContext : ∀ v ∈ right.toList, v ∉ values context :=
    fun v inRight inContext => outside v (.inr inRight) v inContext rfl
  obtain ⟨l, x, r, isBranch⟩ := exists_branch .left ready.notNil
  have leftRoot : left.root = some x := by rw [isBranch, root_branch]
  have inLeft : x ∈ left.toList := mem_of_root leftRoot
  have xNotB : x ≠ b := fun same => bNotLeft (same ▸ inLeft)
  have single : ∀ v ∈ (node nil .black b nil : ColorTree Addr).toList, v ∉ values context := by
    intro v member
    simp only [toList, List.nil_append, List.mem_singleton] at member
    rw [member]
    exact bNotContext
  -- the node alone stands for the tree that is transplanted
  have transplanted := transplant_spec ready.surrounds ready.parent distinctContext
    aNotContext single
  change Transplanted nodes context (node nil .black b nil)
    (transplant (some a) (some b) nodes) at transplanted
  rw [settle]
  generalize transplant (some a) (some b) nodes = middle at transplanted ⊢
  have childA : middle.child .left (some a) = some x := by
    rw [transplanted.child .left a (notMem_upper aNotContext), ready.childA, leftRoot]
  have colorA : middle.color (some a) = color := (congrFun transplanted.color _).trans ready.colorA
  simp only [childA, setChild_child_self, setParent_color, setChild_color, colorA]
  -- the fields elsewhere
  have childElsewhere : ∀ v, v ≠ b → v ∉ values context → ∀ given,
      (middle.setChild .left (some b) (some x)).child given (some v) =
        nodes.child given (some v) := by
    intro v notB notContext given
    rw [setChild_child_of_ne _ (some_ne_some notB),
      transplanted.child given v (notMem_upper notContext)]
  set final := ((middle.setChild .left (some b) (some x)).setParent (some x)
    (some b)).setColor (some b) color
  have parentElsewhere : ∀ ref, ref ≠ some b → ref ≠ some x →
      final.parent ref = nodes.parent ref := by
    intro ref notB notX
    exact (setParent_parent_of_ne _ notX).trans (transplanted.parent ref notB)
  have colorElsewhere : ∀ ref, ref ≠ some b → final.color ref = nodes.color ref := by
    intro ref notB
    exact (setColor_color_of_ne _ notB).trans (congrFun transplanted.color _)
  constructor
  · refine ⟨?_, ⟨⟨?_, ?_, ?_, setColor_color_self color⟩, ?_, ?_⟩, ?_⟩
    · refine transplanted.surrounds.congr (show _ = middle.root from rfl) ?_
      intro v member
      have notB : v ≠ b := fun same => bNotContext (same ▸ member)
      have notX : v ≠ x := fun same => leftContext x inLeft (same ▸ member)
      exact ⟨fun given => setChild_child_of_ne _ (some_ne_some notB),
        setParent_parent_of_ne _ (some_ne_some notX), setColor_color_of_ne _ (some_ne_some notB)⟩
    · rw [leftRoot]
      exact setChild_child_self _
    · have notWritten : (middle.setChild .left (some b) (some x)).child .right
          (some b) = middle.child .right (some b) :=
        setChild_child_of_side_ne _ (Side.other_ne .left)
      exact notWritten.trans ((transplanted.child .right b
        (notMem_upper bNotContext)).trans ready.childB)
    · refine (setParent_parent_of_ne _ (some_ne_some xNotB.symm)).trans ?_
      exact transplanted.parentRoot
    · have notB : ∀ v ∈ left.toList, v ≠ b := fun v member same => bNotLeft (same ▸ member)
      apply ready.ofLeft.reparent distinctLeft
      · intro v member given
        exact childElsewhere v (notB v member) (leftContext v member) given
      · intro v member
        exact colorElsewhere _ (some_ne_some (notB v member))
      · intro v member notRoot
        exact parentElsewhere _ (some_ne_some (notB v member)) (leftRoot ▸ notRoot.symm)
      · intro v isRoot
        obtain rfl : x = v := Option.some.inj (leftRoot.symm.trans isRoot)
        exact setParent_parent_self _
    · apply ready.ofRight.congr
      intro v member
      have notB : v ≠ b := fun same => bNotRight (same ▸ member)
      have notX : v ≠ x := fun same => sides x inLeft x (same ▸ member) rfl
      exact ⟨childElsewhere v notB (rightContext v member),
        parentElsewhere _ (some_ne_some notB) (some_ne_some notX),
        colorElsewhere _ (some_ne_some notB)⟩
    · have perm : ((node left color b right).toList ++ values context).Perm
          (b :: (left.toList ++ right.toList ++ values context)) :=
        List.Perm.append_right (values context) List.perm_middle
      rw [perm.nodup_iff]
      exact (List.nodup_cons.mp ready.distinct).2
  · exact ⟨parentElsewhere none (Option.some_ne_none b).symm (Option.some_ne_none x).symm,
      colorElsewhere none (Option.some_ne_none b).symm⟩

variable {inner : ColorTree Addr} {leastColor : Color}

theorem ready_of_setParent (ready : Located nodes context
      (branch .left left color a right)) {b : Addr}
     (ofInner : Represents nodes above inner) (childB : nodes.child .right (some b) = inner.root)
    (distinct : (a :: b :: (left.toList ++ inner.toList ++
      values context)).Nodup) (notNil : left ≠ nil) :
    Ready (nodes.setParent inner.root (some b)) context color a b left inner := by
  have apart := distinct
  simp only [List.nodup_cons, List.mem_cons, List.mem_append, not_or, List.nodup_append] at apart
  obtain ⟨⟨_, ⟨_, aNotInner⟩, _⟩, _, ⟨_, distinctInner, sides⟩, _, outside⟩ := apart
  obtain ⟨holds, ofLeft, _⟩ := represents_branch.mp ready.represents
  have surrounds := ready.surrounds
  rw [root_branch] at surrounds
  have sameAt : ∀ v, v ∉ inner.toList → SameAt nodes (nodes.setParent inner.root (some b)) v := by
    intro v notInner
    refine ⟨fun _ => rfl, setParent_parent_of_ne _ ?_, rfl⟩
    intro isRoot
    exact notInner (mem_of_root isRoot.symm)
  refine ⟨?_, ?_, holds.color, holds.near, childB, ?_, ?_, distinct, notNil⟩
  · refine surrounds.congr (show _ = nodes.root from rfl) ?_
    intro v member
    exact sameAt v fun inInner => outside v (.inr inInner) v member rfl
  · exact (sameAt a aNotInner).parent.trans holds.parent
  · apply ofLeft.congr
    intro v member
    exact sameAt v fun inInner => sides v member v inInner rfl
  · apply ofInner.reparent distinctInner
    · intro v _ given
      rfl
    · intro v _
      rfl
    · intro v _ notRoot
      exact setParent_parent_of_ne _ notRoot.symm
    · intro v isRoot
      rw [← isRoot]
      exact setParent_parent_self _

theorem replace_near
    (sentinel : nodes.color none = .black) (notNil : left ≠ nil) (located : Located nodes context
      (branch .left left color a (branch .left nil leastColor b inner))) :
    Focused (replace (some a) (some b) nodes) (⟨.right, color, b, left⟩ :: context) inner := by
  obtain ⟨holdsA, ofLeft, ofRight⟩ := represents_branch.mp located.represents
  obtain ⟨holdsB, _, ofInner⟩ := represents_branch.mp ofRight
  have distinct : (a :: b :: (left.toList ++ inner.toList ++ values context)).Nodup := by
    have whole := located.distinct
    have perm : ((branch .left left color a
        (branch .left nil leastColor b inner)).toList ++ values context).Perm
          (a :: b :: (left.toList ++ inner.toList ++ values context)) := by
      change ((left.toList ++ a :: ([] ++ b :: inner.toList)) ++ values context).Perm _
      rw [List.nil_append, ← List.cons_append, ← List.cons_append]
      apply List.Perm.append_right
      exact List.perm_middle.trans (List.Perm.cons a List.perm_middle)
    exact perm.nodup_iff.mp whole
  have ready := ready_of_setParent located ofInner holdsB.far distinct notNil
  have computes : replace (some a) (some b) nodes =
      settle (some a) (some b) (nodes.setParent inner.root (some b)) := by
    have childB : nodes.child .right (some b) = inner.root := holdsB.far
    rw [replace, if_pos holdsB.parent, childB]
  obtain ⟨settled, same⟩ := settle_spec ready
  rw [computes]
  have below : Located (settle (some a) (some b) (nodes.setParent inner.root (some b)))
      (⟨.right, color, b, left⟩ :: context) inner :=
    Located.down (show Located _ _ (branch .right inner color b left) from settled)
  refine ⟨below, ?_, same.color.trans sentinel⟩
  by_cases isNil : inner = nil
  · subst isNil
    exact same.parent.trans (setParent_parent_self _)
  · exact parent_of_located below isNil

theorem perm_plug_remove (path : Context Addr) :
    (plug path (branch .left nil leastColor b inner)).toList.Perm
      (b :: (plug path inner).toList) := by
  calc
    (plug path (branch .left nil leastColor b inner)).toList.Perm
      (b :: inner.toList ++ values path) := perm_plug
    _ = b :: (inner.toList ++ values path) := rfl
    List.Perm _ (b :: (plug path inner).toList) := List.Perm.cons b perm_plug.symm

theorem replace_far
    {path : Context Addr} (sentinel : nodes.color none = .black) (notNil : left ≠ nil)
    (located : Located nodes context (branch .left left color a
      (plug (frame :: path) (branch .left nil leastColor b inner)))) :
    Focused (replace (some a) (some b) nodes)
      ((frame :: path) ++ ⟨.right, color, b, left⟩ :: context) inner := by
  have deep : Located nodes ((frame :: path) ++ ⟨.right, color, a, left⟩ ::
    context) (branch .right inner leastColor b nil) := located_append.mpr located.swap.down
  have taken := transplant_child sentinel deep
  have childB : nodes.child .right (some b) = inner.root := deep.holds.near
  have parentB : nodes.parent (some b) = some frame.value := deep.holds.parent
  -- the right subtree without its least node
  have rest : Located (transplant (some b) inner.root nodes) context
      (branch .left left color a (plug (frame :: path) inner)) :=
    (located_append.mp taken.located).up
  obtain ⟨top, _, isTop⟩ := root_plug_cons frame path inner
  have distinct : (a :: b :: (left.toList ++
      (plug (frame :: path) inner).toList ++ values context)).Nodup := by
    have perm : ((branch .left left color a (plug (frame :: path)
        (branch .left nil leastColor b inner))).toList ++ values context).Perm
          (a :: b :: (left.toList ++ (plug (frame :: path) inner).toList ++ values context)) := by
      rw [← List.cons_append, ← List.cons_append]
      apply List.Perm.append_right
      refine List.perm_middle.trans (List.Perm.cons a ?_)
      exact (List.Perm.append_left _ (perm_plug_remove (frame :: path))).trans List.perm_middle
    exact perm.nodup_iff.mp located.distinct
  have notA : some frame.value ≠ (some a : Ref) := by
    apply some_ne_some
    rintro rfl
    apply located.apart.notFar
    rw [perm_plug.mem_iff]
    simp [values]
  have computes : replace (some a) (some b) nodes = settle (some a) (some b)
      (((transplant (some b) inner.root nodes).setChild .right (some b)
        ((transplant (some b) inner.root nodes).child .right (some a))).setParent
        ((transplant (some b) inner.root nodes).child .right (some a)) (some b)) := by
    rw [replace, parentB, if_neg notA, childB]
    simp only [setChild_child_self]
  rw [computes]
  generalize transplant (some b) inner.root nodes = middle at taken rest ⊢
  have childA : middle.child .right (some a) = (plug (frame :: path) inner).root := rest.holds.far
  have written : Located (middle.setChild .right (some b) (plug (frame :: path) inner).root) context
      (branch .left left color a (plug (frame :: path) inner)) := by
    refine rest.congr (show _ = middle.root from rfl) ?_
    intro v member
    have notB : v ≠ b := by
      rintro rfl
      have outside := (List.nodup_cons.mp distinct).2
      have notMember := (List.nodup_cons.mp outside).1
      simp only [branch, toList, List.mem_append, List.mem_cons] at member
      simp only [List.mem_append, not_or] at notMember
      rcases member with (inLeft | isA | inPath) | inContext
      · exact notMember.1.1 inLeft
      · apply (List.nodup_cons.mp distinct).1
        rw [isA]
        exact List.mem_cons_self
      · exact notMember.1.2 inPath
      · exact notMember.2 inContext
    exact ⟨fun given => setChild_child_of_ne _ (some_ne_some notB), rfl, rfl⟩
  have ready := ready_of_setParent written
    (represents_branch.mp written.represents).2.2 (setChild_child_self _) distinct notNil
  obtain ⟨settled, same⟩ := settle_spec ready
  rw [childA]
  have below := located_append.mpr (Located.down (show Located _ _
    (branch .right (plug (frame :: path) inner) color b left) from settled))
  have sentinelParent := same.parent
  rw [isTop, setParent_parent_of_ne _ (Option.some_ne_none top).symm,
    setChild_parent] at sentinelParent
  refine ⟨below, ?_, same.color.trans taken.sentinel⟩
  by_cases isNil : inner = nil
  · subst isNil
    rw [isTop]
    exact sentinelParent.trans taken.parent
  · exact parent_of_located below isNil

end Replace

/-! ## Taking out -/

theorem length_le_values (context : Context Addr) : context.length ≤ (values context).length := by
  induction context with
  | nil => exact Nat.le_refl 0
  | cons frame rest ih =>
    rw [values, List.length_cons, List.length_cons, List.length_append]
    omega

theorem length_le_plug (context : Context Addr) (tree : ColorTree Addr) :
    context.length ≤ (plug context tree).toList.length := by
  rw [perm_plug.length_eq, List.length_append]
  have bound := length_le_values context
  omega

/-- What `mln_rbtree_delete` has done when it calls `rbtree_delete_fixup`. -/
structure TakenOut (before after : List Addr)
    (result : Ref × Color × TreeNodes) (context : Context Addr) (tree : ColorTree Addr) : Prop where
  isRoot : result.1 = tree.root
  focused : Focused result.2.2 context tree
  list : (plug context tree).toList = before ++ after
  underfull : result.2.1 = .black → Underfull context tree
  whole : result.2.1 = .red → Whole (plug context tree)

/-- A tree from which a red node is taken is a red-black tree, one from which a
black node is taken lacks it. -/
theorem remove_hole {color : Color} {value : Addr} {near : ColorTree Addr} {height : ℕ}
    (redBlack : RedBlack (branch side near color value nil) height)
    (hole : Hole context color height) {found : Color} (isFound : found = color) :
    (found = .black → Underfull context near) ∧ (found = .red → Whole (plug context near)) := by
  subst isFound
  constructor
  · rintro rfl
    obtain ⟨_, below, isHeight, ofNear, _⟩ := redBlack_branch.mp redBlack
    rw [isHeight] at hole
    exact Underfull.of_redBlack ofNear hole
  · rintro rfl
    obtain ⟨nearBlack, _, ofNear, _⟩ := redBlack.red
    apply whole_plug.mpr
    refine ⟨height, ofNear, ?_⟩
    rw [nearBlack]
    exact hole.black

section

variable {color : Color} {a : Addr} {left right : ColorTree Addr}
  (located : Located nodes context (node left color a right))
  (whole : Whole (plug context (node left color a right))) (sentinel : nodes.color none = .black)

include located whole sentinel

theorem takeOut_spec (enough : right.toList.length < turns + 1) :
    ∃ result newContext tree, takeOut turns (some a) nodes = some result ∧
      TakenOut (before context ++ left.toList) (right.toList ++ after context)
        result newContext tree := by
  have atLeft : Located nodes context (branch .left left color a right) := located
  have atRight : Located nodes context (branch .right right color a left) := located
  have holds := atLeft.holds
  have childRight : nodes.child .right (some a) = right.root := holds.far
  obtain ⟨height, redBlack, hole⟩ := whole_plug.mp whole
  rw [takeOut, holds.near, childRight]
  by_cases leftNil : left = nil
  · subst leftNil
    have removed := @remove_hole context .right color a right height redBlack hole _ holds.color
    refine ⟨_, context, right, if_pos rfl, rfl, transplant_child sentinel atRight, ?_, removed.1,
      removed.2⟩
    rw [toList_plug]
    simp [toList]
  · have leftSome : left.root ≠ none := fun isNone =>
      leftNil (root_eq_none.mp isNone)
    rw [if_neg leftSome]
    by_cases rightNil : right = nil
    · subst rightNil
      have removed := @remove_hole context .left color a left height redBlack hole _ holds.color
      refine ⟨_, context, left, if_pos rfl, rfl, transplant_child sentinel atLeft, ?_, removed.1,
        removed.2⟩
      rw [toList_plug]
      simp [toList]
    · have rightSome : right.root ≠ none := fun isNone =>
        rightNil (root_eq_none.mp isNone)
      rw [if_neg rightSome]
      obtain ⟨path, leastColor, b, inner, isPlug, noneBefore, isLeast⟩ :=
        minimum_spec (represents_branch.mp atLeft.represents).2.2 rightNil enough
      rw [isLeast]
      have deep : Located nodes (path ++ ⟨.right, color, a, left⟩ :: context)
          (branch .right inner leastColor b nil) := by
        apply located_append.mpr
        have below := atRight.down
        rw [isPlug] at below
        exact below
      have holdsB := deep.holds
      have childB : nodes.child .right (some b) = inner.root := holdsB.near
      have deepWhole : Whole (plug (path ++ ⟨.right, color, a, left⟩ :: context)
          (branch .right inner leastColor b nil)) := by
        rw [plug_append]
        change Whole (plug (⟨.right, color, a, left⟩ :: context)
          (plug path (node nil leastColor b inner)))
        rw [← isPlug]
        exact whole
      obtain ⟨deepHeight, deepRedBlack, deepHole⟩ := whole_plug.mp deepWhole
      rw [color_branch] at deepHole
      have removed := remove_hole deepRedBlack
        (@Hole.revalue _ context path _ .right color left a b _ deepHole) holdsB.color
      have focused : Focused (replace (some a) (some b) nodes)
          (path ++ ⟨.right, color, b, left⟩ :: context) inner := by
        rw [isPlug] at atLeft
        cases path with
        | nil => exact replace_near sentinel leftNil atLeft
        | cons frame rest => exact replace_far sentinel leftNil atLeft
      refine ⟨_, path ++ ⟨.right, color, b, left⟩ :: context, inner, rfl, childB,
        focused, ?_, removed.1, removed.2⟩
      rw [toList_plug, before_append, after_append, noneBefore, isPlug, toList_plug, noneBefore]
      simp [before, after, toList]

theorem removeNode_spec
    (enough : (plug context (node left color a right)).toList.length ≤ turns) :
    ∃ after newTree, removeNode turns (some a) nodes = some after ∧
      Tracks after newTree ∧ after.color none = .black ∧ Whole newTree ∧
      newTree.toList = before context ++ left.toList ++
        (right.toList ++ Context.after context) := by
  have lengths := enough
  rw [toList_plug] at lengths
  simp only [toList, List.length_append, List.length_cons] at lengths
  obtain ⟨result, newContext, tree, isResult, taken⟩ :=
    @takeOut_spec nodes context (turns + 1) color a left right located whole sentinel (by omega)
  by_cases isBlack : result.2.1 = .black
  · have shorter := length_le_plug newContext tree
    rw [taken.list] at shorter
    simp only [List.length_append] at shorter
    obtain ⟨after, newTree, isAfter, tracks, black, list, isWhole⟩ :=
      @deleteFixup_spec result.2.2 newContext tree (turns + 2) taken.focused
        (taken.underfull isBlack) (by omega) (fun _ => by omega)
    refine ⟨after, newTree, ?_, tracks, black, isWhole, list.trans taken.list⟩
    rw [removeNode, isResult, some_bind, if_pos isBlack, taken.isRoot]
    exact isAfter
  · have isRed : result.2.1 = .red := by
      cases isColor : result.2.1 with
      | red => rfl
      | black => exact absurd isColor isBlack
    refine ⟨result.2.2, plug newContext tree, ?_,
      tracks_plug.mpr taken.focused.located, taken.focused.sentinel, taken.whole isRed, taken.list⟩
    rw [removeNode, isResult, some_bind, if_neg isBlack]

end

end Skyc.Melon.Rbtree
