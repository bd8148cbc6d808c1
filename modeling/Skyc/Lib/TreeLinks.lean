import Skyc.Lib.ColorTree
import Skyc.Lib.LinkedHeap

/-!
# Trees in memory

Nodes point to their children and to their parent.  A sentinel stands for every
empty tree; it is a node like the others.  `Represents` says what is found below a
pointer, `Surrounds` what is found above it.
-/

namespace Skyc.Lib

abbrev Ref := Option Addr

/-- The fields that make nodes a tree, at every node and at the sentinel, and
the pointer to the root. -/
structure TreeNodes where
  child : Side → Ref → Ref
  parent : Ref → Ref
  color : Ref → Color
  root : Ref

namespace TreeNodes

def setChild (nodes : TreeNodes) (side : Side) (node target : Ref) : TreeNodes :=
  { nodes with
    child := fun given ref =>
      if given = side ∧ ref = node then target else nodes.child given ref }

def setParent (nodes : TreeNodes) (node target : Ref) : TreeNodes :=
  { nodes with
    parent := fun ref => if ref = node then target else nodes.parent ref }

def setColor (nodes : TreeNodes) (node : Ref) (color : Color) : TreeNodes :=
  { nodes with
    color := fun ref => if ref = node then color else nodes.color ref }

section Fields

variable {nodes : TreeNodes} {side given : Side} {node ref : Ref}

section

variable (target : Ref)
include target

@[simp]
theorem setChild_child_self :
    (nodes.setChild side node target).child side node = target := if_pos ⟨rfl, rfl⟩

theorem setChild_child_of_ne (apart : ref ≠ node) :
    (nodes.setChild side node target).child given ref = nodes.child given ref :=
  if_neg fun both => apart both.2

theorem setChild_child_of_side_ne (apart : given ≠ side) :
    (nodes.setChild side node target).child given ref = nodes.child given ref :=
  if_neg fun both => apart both.1

@[simp]
theorem setChild_parent : (nodes.setChild side node target).parent = nodes.parent := rfl

@[simp]
theorem setChild_color : (nodes.setChild side node target).color = nodes.color := rfl

@[simp]
theorem setParent_parent_self : (nodes.setParent node target).parent node = target := if_pos rfl

theorem setParent_parent_of_ne (apart : ref ≠ node) :
    (nodes.setParent node target).parent ref = nodes.parent ref := if_neg apart

@[simp]
theorem setParent_child : (nodes.setParent node target).child = nodes.child := rfl

@[simp]
theorem setParent_color : (nodes.setParent node target).color = nodes.color := rfl

end

@[simp]
theorem setColor_color_self (color : Color) :
    (nodes.setColor node color).color node = color := if_pos rfl

theorem setColor_color_of_ne (color : Color) (apart : ref ≠ node) :
    (nodes.setColor node color).color ref = nodes.color ref := if_neg apart

@[simp]
theorem setColor_child (color : Color) : (nodes.setColor node color).child = nodes.child := rfl

@[simp]
theorem setColor_parent (color : Color) : (nodes.setColor node color).parent = nodes.parent := rfl

theorem some_ne_some {a b : Addr} (apart : a ≠ b) :
    (some a : Ref) ≠ some b := fun same => apart (Option.some.inj same)

end Fields

structure SameAt (nodes other : TreeNodes) (address : Addr) : Prop where
  child : ∀ side, other.child side (some address) = nodes.child side (some address)
  parent : other.parent (some address) = nodes.parent (some address)
  color : other.color (some address) = nodes.color (some address)

structure Holds (nodes : TreeNodes) (address : Addr) (above : Ref) (side : Side)
    (near : Ref) (color : Color) (far : Ref) : Prop where
  near : nodes.child side (some address) = near
  far : nodes.child side.other (some address) = far
  parent : nodes.parent (some address) = above
  color : nodes.color (some address) = color

theorem Holds.same {nodes other : TreeNodes} {address : Addr} {above : Ref}
    {side : Side} {near far : Ref} {color : Color}
    (holds : Holds nodes address above side near color far) (same : SameAt nodes other address) :
    Holds other address above side near color far :=
  ⟨(same.child side).trans holds.near, (same.child side.other).trans holds.far,
    same.parent.trans holds.parent, same.color.trans holds.color⟩

theorem Holds.swap {nodes : TreeNodes} {address : Addr} {above : Ref}
    {side : Side} {near far : Ref} {color : Color}
    (holds : Holds nodes address above side near color far) :
    Holds nodes address above side.other far color near := by
  refine ⟨holds.far, ?_, holds.parent, holds.color⟩
  rw [Side.other_other]
  exact holds.near

end TreeNodes

open TreeNodes

def ColorTree.root : ColorTree Addr → Ref
  | .nil => none
  | .node _ _ address _ => some address

namespace ColorTree

@[simp]
theorem root_branch {side : Side} {near far : ColorTree Addr} {color : Color} {address : Addr} :
    (branch side near color address far).root = some address := by
  cases side with
  | left => rfl
  | right => rfl

theorem mem_of_root {tree : ColorTree Addr} {address : Addr}
    (isRoot : tree.root = some address) : address ∈ tree.toList := by
  cases tree with
  | nil => cases isRoot
  | node left color value right =>
    cases isRoot
    simp [toList]

theorem root_eq_none {tree : ColorTree Addr} : tree.root = none ↔ tree = nil := by
  cases tree with
  | nil => exact iff_of_true rfl rfl
  | node left color value right =>
    exact iff_of_false (fun impossible => by cases impossible)
      (fun impossible => by cases impossible)

theorem branch_ne_nil {side : Side} {near far : ColorTree Addr} {color : Color}
    {address : Addr} : branch side near color address far ≠ nil := by
  intro isNil
  have isRoot := congrArg root isNil
  rw [root_branch] at isRoot
  cases isRoot

end ColorTree

/-- The tree below a pointer whose parent is given. -/
def Represents (nodes : TreeNodes) : Ref → ColorTree Addr → Prop
  | _, .nil => True
  | above, .node left color address right =>
    Holds nodes address above .left left.root color right.root ∧
      Represents nodes (some address) left ∧
      Represents nodes (some address) right

def Context.upper : Context Addr → Ref
  | [] => none
  | frame :: _ => some frame.value

/-- The nodes above a hole that points to a given node. -/
def Surrounds (nodes : TreeNodes) : Context Addr → Ref → Prop
  | [], hole => nodes.root = hole
  | frame :: context, hole =>
    Holds nodes frame.value (Context.upper context) frame.side hole frame.color frame.sibling.root ∧
      Represents nodes (some frame.value) frame.sibling ∧
      Surrounds nodes context (some frame.value)

open ColorTree Context

variable {nodes other : TreeNodes} {above : Ref} {tree : ColorTree Addr}
  {context : Context Addr} {side : Side} {near far : ColorTree Addr}
  {color : Color} {address : Addr}

theorem represents_branch :
    Represents nodes above (branch side near color address far) ↔
      Holds nodes address above side near.root color far.root ∧
        Represents nodes (some address) near ∧ Represents nodes (some address) far := by
  cases side with
  | left => exact Iff.rfl
  | right =>
    constructor
    · rintro ⟨holds, ofFar, ofNear⟩
      exact ⟨holds.swap, ofNear, ofFar⟩
    · rintro ⟨holds, ofNear, ofFar⟩
      exact ⟨holds.swap, ofFar, ofNear⟩

namespace Represents

section

variable (represents : Represents nodes above tree)
include represents

theorem congr (same : ∀ address ∈ tree.toList, SameAt nodes other address) :
    Represents other above tree := by
  induction tree generalizing above with
  | nil => trivial
  | node left color value right ofLeft ofRight =>
    obtain ⟨holds, leftHolds, rightHolds⟩ := represents
    refine ⟨holds.same (same value (by simp [toList])), ?_, ?_⟩
    · apply ofLeft leftHolds
      intro address member
      exact same address (by simp [toList, member])
    · apply ofRight rightHolds
      intro address member
      exact same address (by simp [toList, member])

theorem reparent {newAbove : Ref}
    (distinct : tree.toList.Nodup) (children : ∀ address ∈ tree.toList, ∀ side,
      other.child side (some address) = nodes.child side (some address))
    (colors : ∀ address ∈ tree.toList, other.color (some address) = nodes.color (some address))
    (parents : ∀ address ∈ tree.toList, tree.root ≠ some address →
      other.parent (some address) = nodes.parent (some address))
    (atRoot : ∀ address, tree.root = some address →
      other.parent (some address) = newAbove) : Represents other newAbove tree := by
  cases tree with
  | nil => trivial
  | node left color value right =>
    obtain ⟨holds, leftHolds, rightHolds⟩ := represents
    have here : value ∈ (node left color value right).toList := by simp [toList]
    have apart : ∀ address, address ∈ left.toList ∨ address ∈ right.toList →
        SameAt nodes other address := by
      intro address member
      have inside : address ∈ (node left color value right).toList := by
        rcases member with inLeft | inRight
        · simp [toList, inLeft]
        · simp [toList, inRight]
      have different : address ≠ value := by
        rintro rfl
        have notMember := (List.nodup_middle.mp distinct).notMem
        exact notMember (List.mem_append.mpr member)
      refine ⟨children address inside, parents address inside ?_, colors address inside⟩
      intro isRoot
      cases isRoot
      exact different rfl
    refine ⟨⟨(children value here _).trans holds.near,
      (children value here _).trans holds.far, atRoot value rfl,
      (colors value here).trans holds.color⟩, ?_, ?_⟩
    · exact leftHolds.congr fun address member =>
        apart address (.inl member)
    · exact rightHolds.congr fun address member =>
        apart address (.inr member)

theorem parent_root (notNil : tree ≠ nil) : nodes.parent tree.root = above := by
  cases tree with
  | nil => exact absurd rfl notNil
  | node left color value right => exact represents.1.parent

theorem color_root (sentinel : nodes.color none = .black) : nodes.color tree.root = tree.color := by
  cases tree with
  | nil => exact sentinel
  | node left color value right => exact represents.1.color

end

end Represents

namespace Surrounds

variable {hole target : Ref}

theorem congr (surrounds : Surrounds nodes context hole) (sameRoot : other.root = nodes.root)
    (same : ∀ address ∈ (values context), SameAt nodes other address) :
    Surrounds other context hole := by
  induction context generalizing hole with
  | nil => exact sameRoot.trans surrounds
  | cons frame context ih =>
    obtain ⟨holds, ofSibling, rest⟩ := surrounds
    refine ⟨holds.same (same frame.value (by simp [values])), ?_, ?_⟩
    · apply ofSibling.congr
      intro address member
      exact same address (by simp [values, member])
    · apply ih rest
      intro address member
      exact same address (by simp [values, member])

theorem redirect (surrounds : Surrounds nodes context hole) (distinct : (values context).Nodup)
    (atRoot : context = [] → other.root = target) (atFrame : ∀ frame rest, context = frame :: rest →
      other.root = nodes.root ∧
        Holds other frame.value (upper rest) frame.side target frame.color frame.sibling.root)
    (same : ∀ address ∈ (values context), (upper context) ≠ some address →
      SameAt nodes other address) : Surrounds other context target := by
  cases context with
  | nil => exact atRoot rfl
  | cons frame context =>
    obtain ⟨holds, ofSibling, rest⟩ := surrounds
    obtain ⟨sameRoot, newHolds⟩ := atFrame frame context rfl
    have apart := (List.nodup_cons.mp distinct).1
    have others : ∀ address ∈ frame.sibling.toList ++ (values context),
        SameAt nodes other address := by
      intro address member
      apply same address (List.mem_cons_of_mem _ member)
      intro isAbove
      cases isAbove
      exact apart member
    refine ⟨newHolds, ?_, ?_⟩
    · exact ofSibling.congr fun address member =>
        others address (List.mem_append_left _ member)
    · exact rest.congr sameRoot fun address member =>
        others address (List.mem_append_right _ member)

end Surrounds

/-! ## Trees in their contexts -/

/-- The nodes of a tree, which are all different. -/
structure Tracks (nodes : TreeNodes) (tree : ColorTree Addr) : Prop where
  root : nodes.root = tree.root
  represents : Represents nodes none tree
  distinct : tree.toList.Nodup

theorem Tracks.congr (tracks : Tracks nodes tree) (sameRoot : other.root = nodes.root)
    (same : ∀ address ∈ tree.toList, SameAt nodes other address) :
    Tracks other tree := ⟨sameRoot.trans tracks.root, tracks.represents.congr same, tracks.distinct⟩

theorem represents_plug :
    Surrounds nodes [] (plug context tree).root ∧ Represents nodes none (plug context tree) ↔
      Surrounds nodes context tree.root ∧ Represents nodes (upper context) tree := by
  induction context generalizing tree with
  | nil => exact Iff.rfl
  | cons frame context ih =>
    rw [plug, ih, represents_branch, root_branch]
    constructor
    · rintro ⟨rest, holds, ofTree, ofSibling⟩
      exact ⟨⟨holds, ofSibling, rest⟩, ofTree⟩
    · rintro ⟨⟨holds, ofSibling, rest⟩, ofTree⟩
      exact ⟨rest, holds, ofTree, ofSibling⟩

/-- The nodes of a tree in a context, all of which are different. -/
structure Located (nodes : TreeNodes) (context : Context Addr) (tree : ColorTree Addr) : Prop where
  surrounds : Surrounds nodes context tree.root
  represents : Represents nodes (upper context) tree
  distinct : (tree.toList ++ (values context)).Nodup

theorem tracks_plug : Tracks nodes (plug context tree) ↔ Located nodes context tree := by
  constructor
  · rintro ⟨root, represents, distinct⟩
    obtain ⟨surrounds, below⟩ := represents_plug.mp ⟨root, represents⟩
    exact ⟨surrounds, below, perm_plug.nodup_iff.mp distinct⟩
  · rintro ⟨surrounds, below, distinct⟩
    obtain ⟨root, represents⟩ := represents_plug.mpr ⟨surrounds, below⟩
    exact ⟨root, represents, perm_plug.nodup_iff.mpr distinct⟩

theorem located_append {lower rest : Context Addr} :
    Located nodes (lower ++ rest) tree ↔ Located nodes rest (plug lower tree) := by
  rw [← tracks_plug, ← tracks_plug, plug_append]

namespace Located

theorem congr (located : Located nodes context tree) (sameRoot : other.root = nodes.root)
    (same : ∀ address, address ∈ tree.toList ∨ address ∈ values context →
      SameAt nodes other address) :
    Located other context tree := ⟨located.surrounds.congr sameRoot fun address member =>
      same address (.inr member),
    located.represents.congr fun address member =>
      same address (.inl member),
    located.distinct⟩

theorem up {frame : Frame Addr} (located : Located nodes (frame :: context) tree) :
    Located nodes context (branch frame.side tree frame.color frame.value frame.sibling) := by
  have tracks : Tracks nodes (plug (frame :: context) tree) := tracks_plug.mpr located
  exact tracks_plug.mp tracks

variable (located : Located nodes context (branch side near color address far))

include located in
theorem down :
    Located nodes (⟨side, color, address, far⟩ :: context) near := by
  have tracks : Tracks nodes (plug context (branch side near color address far)) :=
    tracks_plug.mpr located
  exact tracks_plug.mp tracks

theorem distinct_context (located : Located nodes context tree) :
    (values context).Nodup := located.distinct.of_append_right

theorem notMem_context (located : Located nodes context tree)
    (member : address ∈ tree.toList) : address ∉ (values context) :=
  fun inContext => (List.disjoint_of_nodup_append located.distinct) member inContext

include located in
theorem holds :
    Holds nodes address (upper context) side near.root color far.root :=
  (represents_branch.mp located.represents).1

theorem mem_above_values
    (isAbove : (upper context) = some address) : address ∈ (values context) := by
  cases context with
  | nil => cases isAbove
  | cons frame rest =>
    cases isAbove
    simp [values]

/-- The parts of a located tree are apart. -/
structure Apart (context : Context Addr) (near : ColorTree Addr)
    (address : Addr) (far : ColorTree Addr) : Prop where
  notNear : address ∉ near.toList
  notFar : address ∉ far.toList
  notContext : address ∉ values context
  sides : ∀ other ∈ near.toList, other ∉ far.toList
  nearContext : ∀ other ∈ near.toList, other ∉ values context
  farContext : ∀ other ∈ far.toList, other ∉ values context
  distinctNear : near.toList.Nodup
  distinctFar : far.toList.Nodup

include located in
theorem apart :
    Apart context near address far := by
  have distinct := located.distinct
  have perm : ((branch side near color address far).toList ++ (values context)).Perm
    (address :: (near.toList ++ far.toList) ++ (values context)) := perm_branch.append_right _
  rw [perm.nodup_iff] at distinct
  simp only [List.cons_append, List.nodup_cons, List.mem_append,
    List.nodup_append, not_or] at distinct
  obtain ⟨⟨⟨notNear, notFar⟩, notContext⟩, ⟨distinctNear, distinctFar, sides⟩, _,
    outside⟩ := distinct
  refine ⟨notNear, notFar, notContext, ?_, ?_, ?_, distinctNear, distinctFar⟩
  · intro other inNear inFar
    exact sides other inNear other inFar rfl
  · intro other inNear inContext
    exact outside other (.inl inNear) other inContext rfl
  · intro other inFar inContext
    exact outside other (.inr inFar) other inContext rfl

include located in
theorem setColor (newColor : Color) :
    Located (nodes.setColor (some address) newColor) context
      (branch side near newColor address far) := by
  have apart := located.apart
  have sameElsewhere : ∀ other, other ≠ address →
      SameAt nodes (nodes.setColor (some address) newColor) other := by
    intro other different
    exact ⟨fun _ => rfl, rfl, setColor_color_of_ne newColor (some_ne_some different)⟩
  obtain ⟨holds, ofNear, ofFar⟩ := represents_branch.mp located.represents
  have surrounds := located.surrounds
  rw [root_branch] at surrounds
  refine ⟨?_, represents_branch.mpr ⟨⟨holds.near, holds.far, holds.parent,
    setColor_color_self newColor⟩, ?_, ?_⟩, ?_⟩
  · rw [root_branch]
    refine surrounds.congr (show _ = nodes.root from rfl) ?_
    intro other member
    apply sameElsewhere
    rintro rfl
    exact apart.notContext member
  · apply ofNear.congr
    intro other member
    apply sameElsewhere
    rintro rfl
    exact apart.notNear member
  · apply ofFar.congr
    intro other member
    apply sameElsewhere
    rintro rfl
    exact apart.notFar member
  · have same : (branch side near newColor address far).toList =
      (branch side near color address far).toList := toList_branch_congr rfl rfl
    rw [same]
    exact located.distinct

theorem paint (located : Located nodes context tree) (color : Color) :
    tree.root = none ∨ Located (nodes.setColor tree.root color) context (tree.paint color) := by
  cases tree with
  | nil => exact .inl rfl
  | node left oldColor address right =>
    exact .inr (@Located.setColor nodes context .left left right oldColor address located color)

section

variable (located : Located nodes context (branch side near color address far))
include located

theorem paint_near (notNil : near ≠ nil) (newColor : Color) :
    Located (nodes.setColor near.root newColor) context
      (branch side (near.paint newColor) color address far) := by
  rcases located.down.paint newColor with isNil | painted
  · exact absurd (root_eq_none.mp isNil) notNil
  · exact painted.up

theorem swap : Located nodes context (branch side.other far color address near) := by
  rw [branch_other]
  exact located

theorem paint_far (notNil : far ≠ nil) (newColor : Color) :
    Located (nodes.setColor far.root newColor) context
      (branch side near color address (far.paint newColor)) := by
  have painted := located.swap.paint_near notNil newColor
  rwa [branch_other] at painted

end

end Located

end Skyc.Lib
