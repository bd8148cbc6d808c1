import Skyc.Melon.Rbtree.Rotation

/-!
# Repairs after an insertion

`rbtree_insert_fixup` follows the red nodes up.  A turn either recolours three
nodes and goes on two levels higher, or rotates and is done.
-/

namespace Skyc.Melon.Rbtree

open Skyc.Lib
open Skyc.Lib.TreeNodes
open Skyc.Lib.ColorTree
open Skyc.Lib.Context

variable {nodes : TreeNodes} {context : Context Addr} {side : Side}
  {tree : ColorTree Addr} {parent grand : Frame Addr}

theorem parent_of_located (located : Located nodes context tree)
    (notNil : tree ≠ nil) : nodes.parent tree.root = upper context :=
  located.represents.parent_root notNil

theorem holds_frame (located : Located nodes (parent :: context) tree) :
    Holds nodes parent.value (upper context) parent.side tree.root parent.color
      parent.sibling.root := located.surrounds.1

theorem sibling_root_ne (located : Located nodes (parent :: context) tree)
    (notNil : tree ≠ nil) : parent.sibling.root ≠ tree.root := by
  intro same
  obtain ⟨near, value, far, isBranch⟩ := exists_branch .left notNil
  have isRoot : tree.root = some value := by rw [isBranch, root_branch]
  have inTree := mem_of_root isRoot
  have inSibling := mem_of_root (same.trans isRoot)
  apply located.notMem_context inTree
  simp [values, inSibling]

/-- The parent and its own parent change their colours, and the parent goes
up. -/
theorem raiseParent_spec {p g : Addr} {c d : Color}
    {sibling uncle : ColorTree Addr} (notNil : tree ≠ nil) (located : Located nodes
      (⟨side, c, p, sibling⟩ :: ⟨side, d, g, uncle⟩ :: context) tree) :
    Located (raiseParent side tree.root nodes) context
        (branch side tree .black p (branch side sibling .red g uncle)) ∧
      SameSentinel nodes (raiseParent side tree.root nodes) := by
  have parentN : nodes.parent tree.root = some p := parent_of_located located notNil
  have parentP : nodes.parent (some p) = some g := (holds_frame located).parent
  have painted := (located.up.setColor .black).up.setColor .red
  have flipped := painted.swap
  have inner : branch side tree .black p sibling =
    branch side.other sibling .black p tree := branch_other.symm
  rw [inner] at flipped
  obtain ⟨rotated, sentinel⟩ := rotate_spec flipped
  have computes : raiseParent side tree.root nodes = rotate side.other (some g)
      ((nodes.setColor (some p) .black).setColor (some g) .red) := by
    simp only [raiseParent, parentN, setColor_parent, parentP]
  rw [computes]
  rw [branch_other, branch_other] at rotated
  exact ⟨rotated, ((sameSentinel_setColor p .black).trans
    (sameSentinel_setColor g .red)).trans sentinel⟩

/-- What a turn of the loop leaves: the node to go on with, or a tree that is
repaired. -/
structure Turned (nodes : TreeNodes) (context : Context Addr)
    (tree : ColorTree Addr) (next : Ref × TreeNodes)
    (newContext : Context Addr) (newTree : ColorTree Addr) : Prop where
  located : Located next.2 newContext newTree
  isRoot : next.1 = newTree.root
  sentinel : SameSentinel nodes next.2
  sameList : (plug newContext newTree).toList = (plug context tree).toList
  shorter : newContext.length < context.length
  goesOn : Overfull newContext newTree ∨ newTree ≠ nil ∧ Whole (plug newContext newTree) ∧
    ∃ frame rest, newContext = frame :: rest ∧ frame.color = .black

theorem outer_turn {p g : Addr} {sibling uncle : ColorTree Addr} (located : Located nodes
      (⟨side, .red, p, sibling⟩ :: ⟨side, .black, g, uncle⟩ :: context) tree) (overfull : Overfull
      (⟨side, .red, p, sibling⟩ :: ⟨side, .black, g, uncle⟩ :: context) tree)
    (uncleBlack : uncle.color = .black) :
    ∃ newContext newTree, Turned nodes
      (⟨side, .red, p, sibling⟩ :: ⟨side, .black, g, uncle⟩ :: context) tree
      (tree.root, raiseParent side tree.root nodes) newContext newTree := by
  have notNil := ne_nil_of_color_eq_red overfull.isRed
  obtain ⟨raised, sentinel⟩ := raiseParent_spec notNil located
  refine ⟨⟨side, .black, p, branch side sibling .red g uncle⟩ :: context, tree,
    raised.down, rfl, sentinel, ?_, lt_add_one _,
    Or.inr ⟨notNil, overfull.outer uncleBlack, _, _, rfl, rfl⟩⟩
  change (plug context (branch side tree .black p
    (branch side sibling .red g uncle))).toList = (plug context
      (branch side (branch side tree .red p sibling) .black g uncle)).toList
  apply toList_plug_congr
  exact (toList_rotate side tree sibling uncle p g .red .black .black .red).symm

theorem insertFixupTurn_spec (located : Located nodes (parent :: grand :: context) tree)
    (overfull : Overfull (parent :: grand :: context) tree)
    (sentinel : nodes.color none = .black) (parentRed : parent.color = .red) :
    ∃ newContext newTree, Turned nodes (parent :: grand :: context) tree
      (insertFixupTurn grand.side tree.root nodes) newContext newTree := by
  have notNil := ne_nil_of_color_eq_red overfull.isRed
  have parentN : nodes.parent tree.root = some parent.value := parent_of_located located notNil
  have holdsParent := holds_frame located
  have parentP : nodes.parent (some parent.value) = some grand.value := holdsParent.parent
  have holdsGrand := holds_frame located.up
  have uncleColor : nodes.color grand.sibling.root = grand.sibling.color :=
    (located.surrounds.2.2.2.1).color_root sentinel
  obtain ⟨height, redBlack, hole⟩ := overfull.fits
  obtain ⟨grand', rest', isGrand, grandBlack⟩ := Overfull.grand_black hole parentRed
  cases isGrand
  rw [insertFixupTurn, parentN, parentP, holdsGrand.far, uncleColor]
  by_cases uncleRed : grand.sibling.color = .red
  · rw [if_pos uncleRed]
    have painted := (((located.up.setColor .black).up.paint_far
      (ne_nil_of_color_eq_red uncleRed) .black).setColor .red)
    obtain ⟨near, value, far, isBranch⟩ := exists_branch .left (ne_nil_of_color_eq_red uncleRed)
    have uncleRoot : grand.sibling.root = some value := by rw [isBranch, root_branch]
    refine ⟨context, _, painted, root_branch.symm, ?_, ?_, ?_,
      Or.inl (overfull.recolor parentRed uncleRed)⟩
    · rw [uncleRoot]
      exact ((sameSentinel_setColor _ _).trans
        (sameSentinel_setColor _ _)).trans (sameSentinel_setColor _ _)
    · change _ = (plug context (branch grand.side (branch parent.side tree
        parent.color parent.value parent.sibling) grand.color grand.value grand.sibling)).toList
      apply toList_plug_congr
      exact toList_branch_congr (toList_branch_congr rfl rfl) (toList_paint _ _)
    · rw [List.length_cons, List.length_cons]
      omega
  · have uncleBlack := Color.eq_black_of_ne_red uncleRed
    rw [if_neg uncleRed]
    obtain ⟨parentSide, parentColor, p, sibling⟩ := parent
    obtain ⟨grandSide, grandColor, g, uncle⟩ := grand
    simp only at parentRed grandBlack holdsParent
    subst parentRed grandBlack
    change ∃ newContext newTree, Turned nodes _ tree
      (if tree.root = nodes.child grandSide.other (some p) then _ else _) newContext newTree
    rcases Side.eq_or_eq_other parentSide grandSide with same | differs
    · subst same
      have notInner : tree.root ≠ nodes.child parentSide.other (some p) := by
        rw [holdsParent.far]
        exact (sibling_root_ne located notNil).symm
      rw [if_neg notInner]
      exact outer_turn located overfull uncleBlack
    · subst differs
      have isInner : tree.root = nodes.child grandSide.other (some p) := holdsParent.near.symm
      rw [if_pos isInner]
      -- the tree on the inner side goes up first
      obtain ⟨near, a, far, isBranch⟩ := exists_branch grandSide notNil
      rw [overfull.isRed] at isBranch
      rw [isBranch] at located overfull ⊢
      have lifted := located.up
      simp only at lifted
      rw [branch_other] at lifted
      obtain ⟨rotated, rotatedSentinel⟩ := rotate_spec lifted
      obtain ⟨newContext, newTree, turned⟩ := outer_turn rotated.down overfull.inner uncleBlack
      rw [root_branch] at turned
      refine ⟨newContext, newTree, turned.located, turned.isRoot,
        rotatedSentinel.trans turned.sentinel, ?_, turned.shorter, turned.goesOn⟩
      rw [turned.sameList]
      apply @toList_plug_congr _ (⟨grandSide, .black, g, uncle⟩ :: context)
      change (branch grandSide (branch grandSide sibling .red p near) .red a
        far).toList = (branch grandSide.other (branch grandSide near .red a far)
          .red p sibling).toList
      rw [branch_other]
      exact toList_rotate grandSide sibling near far p a .red .red .red .red

theorem insertFixup_side (located : Located nodes (parent :: grand :: context) tree) :
    (if (some parent.value : Ref) = nodes.child .left (some grand.value) then
      insertFixupTurn .left tree.root nodes
    else insertFixupTurn .right tree.root nodes) = insertFixupTurn grand.side tree.root nodes := by
  have holdsGrand := holds_frame located.up
  rw [root_branch] at holdsGrand
  cases isSide : grand.side with
  | left =>
    rw [isSide] at holdsGrand
    rw [if_pos holdsGrand.near.symm]
  | right =>
    rw [isSide] at holdsGrand
    have isUncle : nodes.child .left (some grand.value) = grand.sibling.root := holdsGrand.far
    have differs := sibling_root_ne located.up branch_ne_nil
    rw [root_branch] at differs
    rw [isUncle, if_neg differs.symm]

/-- What the loop of `rbtree_insert_fixup` leaves. -/
structure Repaired (nodes : TreeNodes) (tree : ColorTree Addr)
    (after : TreeNodes) (newTree : ColorTree Addr) : Prop where
  tracks : Tracks after newTree
  sentinel : SameSentinel nodes after
  sameList : newTree.toList = tree.toList
  whole : Whole (newTree.paint .black)

theorem Whole.paint_black (whole : Whole tree) : tree.paint .black = tree := by
  cases tree with
  | nil => rfl
  | node left color value right =>
    have isBlack : color = .black := whole.1
    rw [isBlack, paint]

section

variable (located : Located nodes context tree) (sentinel : nodes.color none = .black)
include located sentinel

theorem insertFixupLoop_done (notNil : tree ≠ nil) (turns : ℕ)
    (parentBlack : ∀ frame rest, context = frame :: rest → frame.color = .black) :
    insertFixupLoop (turns + 1) tree.root nodes = some nodes := by
  have parentN := parent_of_located located notNil
  have isBlack : nodes.color (upper context) = .black := by
    cases context with
    | nil => exact sentinel
    | cons frame rest => exact (holds_frame located).color.trans (parentBlack frame rest rfl)
  have notRed : nodes.color (nodes.parent tree.root) ≠ .red := by
    rw [parentN, isBlack]
    decide
  rw [insertFixupLoop]
  exact if_neg notRed

/-- The loop of `rbtree_insert_fixup` ends, and leaves a red-black tree but for
the colour of its root. -/
theorem insertFixupLoop_spec {turns : ℕ} (overfull : Overfull context tree)
    (enough : context.length < turns) :
    ∃ after newTree, insertFixupLoop turns tree.root nodes = some after ∧
      Repaired nodes (plug context tree) after newTree := by
  induction turns generalizing nodes context tree with
  | zero => cases enough
  | succ turns ih =>
    have notNil := ne_nil_of_color_eq_red overfull.isRed
    by_cases parentBlack : ∀ frame rest, context = frame :: rest → frame.color = .black
    · exact ⟨nodes, plug context tree,
        insertFixupLoop_done located sentinel notNil turns parentBlack,
        tracks_plug.mpr located, ⟨rfl, rfl⟩, rfl, overfull.done parentBlack⟩
    · push Not at parentBlack
      obtain ⟨parent, above, isContext, notBlack⟩ := parentBlack
      subst isContext
      have parentRed : parent.color = .red := by
        cases isColor : parent.color with
        | red => rfl
        | black => exact absurd isColor notBlack
      obtain ⟨height, redBlack, hole⟩ := overfull.fits
      obtain ⟨grand, rest, isAbove, _⟩ := Overfull.grand_black hole parentRed
      subst isAbove
      obtain ⟨newContext, newTree, turned⟩ :=
        insertFixupTurn_spec located overfull sentinel parentRed
      have parentN : nodes.parent tree.root = some parent.value := parent_of_located located notNil
      have parentP : nodes.parent (some parent.value) = some grand.value :=
        (holds_frame located).parent
      have isRed : nodes.color (some parent.value) = .red :=
        (holds_frame located).color.trans parentRed
      have step : insertFixupLoop (turns + 1) tree.root nodes = insertFixupLoop turns
          (insertFixupTurn grand.side tree.root nodes).1
          (insertFixupTurn grand.side tree.root nodes).2 := by
        rw [insertFixupLoop]
        simp only [parentN, parentP]
        rw [if_pos isRed, insertFixup_side located]
      rw [step]
      generalize insertFixupTurn grand.side tree.root nodes = next at turned
      have nextSentinel : next.2.color none = .black := turned.sentinel.color.trans sentinel
      have shorter := turned.shorter
      rw [turned.isRoot]
      rcases turned.goesOn with more | ⟨newNotNil, whole, frame, remaining, isNew, frameBlack⟩
      · obtain ⟨after, finalTree, isAfter, repaired⟩ :=
          ih turned.located nextSentinel more (by omega)
        exact ⟨after, finalTree, isAfter, repaired.tracks, turned.sentinel.trans repaired.sentinel,
          repaired.sameList.trans turned.sameList, repaired.whole⟩
      · obtain ⟨fewer, rfl⟩ : ∃ fewer, turns = fewer + 1 := by
          cases turns with
          | zero =>
            omega
          | succ fewer => exact ⟨fewer, rfl⟩
        refine ⟨next.2, plug newContext newTree, ?_,
          tracks_plug.mpr turned.located, turned.sentinel, turned.sameList, ?_⟩
        · apply insertFixupLoop_done turned.located nextSentinel newNotNil
          intro given others same
          rw [isNew] at same
          cases same
          exact frameBlack
        · rw [Whole.paint_black whole]
          exact whole

theorem insertFixup_spec {turns : ℕ} (overfull : Overfull context tree)
    (enough : context.length < turns) :
    ∃ after newTree, insertFixup turns tree.root nodes = some after ∧
      Tracks after newTree ∧ after.color none = .black ∧
      newTree.toList = (plug context tree).toList ∧ Whole newTree := by
  obtain ⟨after, newTree, isAfter, repaired⟩ :=
    insertFixupLoop_spec located sentinel overfull enough
  have rootIs := repaired.tracks.root
  have atRoot : Located after [] newTree := tracks_plug.mp repaired.tracks
  rw [insertFixup, isAfter]
  refine ⟨_, newTree.paint .black, rfl, ?_, ?_, ?_, repaired.whole⟩
  · rw [rootIs]
    rcases atRoot.paint .black with isNone | painted
    · have isNil := root_eq_none.mp isNone
      have sameList := repaired.sameList
      rw [isNil, toList_plug] at sameList
      have empty : tree.toList = [] := by
        simp only [toList, List.nil_eq, List.append_eq_nil_iff] at sameList
        exact sameList.1.2
      have notNil := ne_nil_of_color_eq_red overfull.isRed
      cases tree with
      | nil => exact absurd rfl notNil
      | node left color value right => simp [toList] at empty
    · exact tracks_plug.mpr painted
  · have isBlack : after.color none = .black := repaired.sentinel.color.trans sentinel
    by_cases isSentinel : (none : Ref) = after.root
    · rw [isSentinel, setColor_color_self]
    · rw [setColor_color_of_ne _ isSentinel]
      exact isBlack
  · rw [toList_paint]
    exact repaired.sameList

end

end Skyc.Melon.Rbtree
