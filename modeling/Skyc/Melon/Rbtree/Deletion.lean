import Skyc.Melon.Rbtree.Insertion

/-!
# Repairs after a deletion

`rbtree_delete_fixup` starts at a node, or at the sentinel, below which one black
node is missing.  A turn reads the parent of the sentinel; no rotation changes it.
-/

namespace Skyc.Melon.Rbtree

open Skyc.Lib
open Skyc.Lib.TreeNodes
open Skyc.Lib.ColorTree
open Skyc.Lib.Context

variable {nodes : TreeNodes} {context : Context Addr} {side : Side}
  {tree : ColorTree Addr} {frame : Frame Addr}

/-- A located tree whose root, or the sentinel in its place, points to the node
above it. -/
structure Focused (nodes : TreeNodes) (context : Context Addr) (tree : ColorTree Addr) : Prop where
  located : Located nodes context tree
  parent : nodes.parent tree.root = upper context
  sentinel : nodes.color none = .black

namespace Focused

theorem color_root (focused : Focused nodes context tree) :
    nodes.color tree.root = tree.color := focused.located.represents.color_root focused.sentinel

theorem move {other : TreeNodes} {newContext : Context Addr} (focused : Focused nodes context tree)
    (located : Located other newContext tree) (same : SameSentinel nodes other)
    (sameUpper : upper newContext = upper context) : Focused other newContext tree := by
  refine ⟨located, ?_, same.color.trans focused.sentinel⟩
  by_cases isNil : tree = nil
  · have parent := focused.parent
    rw [isNil] at parent ⊢
    exact same.parent.trans (parent.trans sameUpper.symm)
  · exact parent_of_located located isNil

section

variable (focused : Focused nodes (frame :: context) tree)
include focused

theorem sibling_color :
    nodes.color frame.sibling.root = frame.sibling.color :=
  focused.located.surrounds.2.1.color_root focused.sentinel

theorem child_other :
    nodes.child frame.side.other (nodes.parent tree.root) = frame.sibling.root := by
  rw [focused.parent]
  exact (holds_frame focused.located).far

theorem sibling_root_ne (notNil : frame.sibling ≠ nil) : frame.sibling.root ≠ tree.root := by
  by_cases isNil : tree = nil
  · intro same
    rw [isNil] at same
    exact notNil (root_eq_none.mp same)
  · exact Rbtree.sibling_root_ne focused.located isNil

end

end Focused

theorem root_plug_cons (frame : Frame Addr) (context : Context Addr) (tree : ColorTree Addr) :
    ∃ value ∈ values (frame :: context), (plug (frame :: context) tree).root = some value := by
  induction context generalizing frame tree with
  | nil => exact ⟨frame.value, by simp [values], root_branch⟩
  | cons next rest ih =>
    obtain ⟨value, member, isRoot⟩ := ih next
      (branch frame.side tree frame.color frame.value frame.sibling)
    exact ⟨value, List.mem_cons_of_mem _ (List.mem_append_right _ member), isRoot⟩

theorem root_ne_of_located (located : Located nodes (frame :: context) tree) :
    tree.root ≠ nodes.root := by
  obtain ⟨value, member, isRoot⟩ := root_plug_cons frame context tree
  rw [(tracks_plug.mpr located).root, isRoot]
  intro same
  exact located.notMem_context (mem_of_root same) member

/-! ## The steps of a turn -/

theorem liftSibling_spec (focused : Focused nodes (frame :: context) tree)
    (underfull : Underfull (frame :: context) tree) (isBlack : tree.color = .black) :
    ∃ color sibling rest, Focused (liftSibling frame.side tree.root nodes)
          (⟨frame.side, color, frame.value, sibling⟩ :: rest) tree ∧
        Underfull (⟨frame.side, color, frame.value, sibling⟩ :: rest) tree ∧
        sibling.color = .black ∧
        (plug (⟨frame.side, color, frame.value, sibling⟩ :: rest) tree).toList =
          (plug (frame :: context) tree).toList ∧
        (rest.length = context.length ∨ color = .red ∧ rest.length = context.length + 1) := by
  have computes : liftSibling frame.side tree.root nodes = if frame.sibling.color = .red then
        rotate frame.side (some frame.value) ((nodes.setColor
          frame.sibling.root .black).setColor (some frame.value) .red)
      else nodes := by
    have parentIs : nodes.parent tree.root = some frame.value := focused.parent
    rw [liftSibling, focused.child_other, focused.sibling_color]
    simp only [setColor_parent, parentIs]
  rw [computes]
  obtain ⟨side, color, a, sibling⟩ := frame
  by_cases isRed : sibling.color = .red
  · obtain ⟨near, b, far, isBranch⟩ := exists_branch side (ne_nil_of_color_eq_red isRed)
    rw [isRed] at isBranch
    subst isBranch
    have painted := (focused.located.up.paint_far branch_ne_nil .black).setColor .red
    simp only [root_branch, paint_branch] at painted
    obtain ⟨rotated, sentinel⟩ := rotate_spec painted
    obtain ⟨_, nearBlack, lifted⟩ := underfull.red_sibling isBlack
    have sameSentinel := ((sameSentinel_setColor b .black).trans
      (sameSentinel_setColor a .red)).trans sentinel
    have moved := focused.move rotated.down.down sameSentinel rfl
    rw [if_pos isRed]
    refine ⟨.red, near, ⟨side, .black, b, far⟩ :: context, ?_, lifted, nearBlack,
      ?_, .inr ⟨rfl, rfl⟩⟩
    · rw [root_branch]
      exact moved
    · change (plug context (branch side (branch side tree .red a near) .black b
        far)).toList = (plug context (branch side tree color a
          (branch side near .red b far))).toList
      exact toList_plug_congr (toList_rotate side tree near far a b _ _ _ _)
  · rw [if_neg isRed]
    exact ⟨color, sibling, context, focused, underfull,
      Color.eq_black_of_ne_red isRed, rfl, .inl rfl⟩

section BlackSibling

variable {color : Color} {a b : Addr} {near far : ColorTree Addr}

section

variable (focused : Focused nodes (⟨side, color, a, branch side near .black b far⟩ :: context) tree)
include focused

theorem sibling_children :
    nodes.child side.other (nodes.parent tree.root) = some b ∧
      Holds nodes b (some a) side near.root .black far.root ∧ nodes.color near.root = near.color ∧
      nodes.color far.root = far.color := by
  have ofSibling := focused.located.surrounds.2.1
  obtain ⟨holds, ofNear, ofFar⟩ := represents_branch.mp ofSibling
  refine ⟨?_, holds, ofNear.color_root focused.sentinel, ofFar.color_root focused.sentinel⟩
  have isChild := focused.child_other
  rwa [root_branch] at isChild

theorem paint_sibling :
    Focused (nodes.setColor (some b) .red) context
      (branch side tree color a (branch side near .red b far)) := by
  have painted := focused.located.up.paint_far branch_ne_nil .red
  simp only [root_branch, paint_branch] at painted
  refine ⟨painted, parent_of_located painted branch_ne_nil, ?_⟩
  exact (sameSentinel_setColor b .red).color.trans focused.sentinel

theorem turnSibling_spec (underfull : Underfull
      (⟨side, color, a, branch side near .black b far⟩ :: context) tree)
    (isBlack : tree.color = .black) (oneRed : ¬ (near.color = .black ∧ far.color = .black)) :
    ∃ newB newNear newFar, Focused (turnSibling side tree.root nodes)
          (⟨side, color, a, branch side newNear .black newB newFar⟩ :: context) tree ∧
        Underfull (⟨side, color, a, branch side newNear .black newB newFar⟩ :: context) tree ∧
        newFar.color = .red ∧ (branch side newNear .black newB newFar).toList =
          (branch side near .black b far).toList := by
  obtain ⟨isSibling, holds, nearColor, farColor⟩ := sibling_children focused
  rw [turnSibling, isSibling, holds.far, holds.near, farColor]
  by_cases farBlack : far.color = .black
  · have nearRed : near.color = .red := by
      cases isColor : near.color with
      | red => rfl
      | black => exact absurd ⟨isColor, farBlack⟩ oneRed
    obtain ⟨x, d, y, isBranch⟩ := exists_branch side (ne_nil_of_color_eq_red nearRed)
    rw [nearRed] at isBranch
    subst isBranch
    -- the sibling is located below the same node, on the other side
    have atSibling := focused.located.up.swap.down
    have painted := (atSibling.paint_near branch_ne_nil .black).setColor .red
    simp only [root_branch, paint_branch] at painted
    have flipped := painted.swap
    have inner : branch side x .black d y = branch side.other y .black d x := branch_other.symm
    rw [inner] at flipped
    obtain ⟨rotated, sentinel⟩ := rotate_spec flipped
    rw [branch_other, branch_other] at rotated
    have back := rotated.up.swap
    simp only [Side.other_other] at back
    have sameSentinel := ((sameSentinel_setColor d .black).trans
      (sameSentinel_setColor b .red)).trans sentinel
    rw [if_pos farBlack, root_branch]
    refine ⟨d, x, branch side y .red b far, focused.move back.down sameSentinel rfl,
      underfull.near_red isBlack farBlack, color_branch, ?_⟩
    exact (toList_rotate side x y far d b _ _ _ _).symm
  · rw [if_neg farBlack]
    refine ⟨b, near, far, focused, underfull, ?_, rfl⟩
    cases isColor : far.color with
    | red => rfl
    | black => exact absurd isColor farBlack

theorem finish_spec (farRed : far.color = .red) :
    Located (rotate side (some a) (((nodes.setColor (some b) color).setColor
        (some a) .black).setColor far.root .black)) context
        (branch side (branch side tree .black a near) color b (far.paint .black)) ∧
      (rotate side (some a) (((nodes.setColor (some b) color).setColor
        (some a) .black).setColor far.root .black)).color none = .black := by
  have notNil := ne_nil_of_color_eq_red farRed
  obtain ⟨x, d, y, isBranch⟩ := exists_branch side notNil
  have farRoot : far.root = some d := by rw [isBranch, root_branch]
  have painted := (focused.located.up.paint_far branch_ne_nil color).setColor .black
  simp only [root_branch, paint_branch] at painted
  have atSibling := (painted.swap.down.paint_far notNil .black).up.swap
  simp only [Side.other_other] at atSibling
  obtain ⟨rotated, sentinel⟩ := rotate_spec atSibling
  refine ⟨rotated, sentinel.color.trans ?_⟩
  rw [farRoot]
  exact (((sameSentinel_setColor b color).trans (sameSentinel_setColor a .black)).trans
    (sameSentinel_setColor d .black)).color.trans focused.sentinel

end

end BlackSibling

/-! ## The loop -/

/-- What a turn of the loop of `rbtree_delete_fixup` leaves. -/
inductive DeleteTurned (context : Context Addr) (tree : ColorTree Addr)
    (next : Ref × TreeNodes) : Prop
  | goesOn (newContext : Context Addr) (newTree : ColorTree Addr)
    (focused : Focused next.2 newContext newTree) (isRoot : next.1 = newTree.root)
    (underfull : Underfull newContext newTree) (sameList : (plug newContext newTree).toList =
      (plug context tree).toList)
    (shorter : newTree.color = .black → newContext.length < context.length)
  | done (newTree : ColorTree Addr) (tracks : Tracks next.2 newTree)
    (isRoot : next.1 = newTree.root) (whole : Whole newTree)
    (sameList : newTree.toList = (plug context tree).toList)
    (sentinel : next.2.color none = .black)

theorem deleteFixupTurn_spec (focused : Focused nodes (frame :: context) tree)
    (underfull : Underfull (frame :: context) tree) (isBlack : tree.color = .black) :
    DeleteTurned (frame :: context) tree (deleteFixupTurn frame.side tree.root nodes) := by
  obtain ⟨color, sibling, rest, lifted, stillUnderfull, siblingBlack, sameList,
    length⟩ := liftSibling_spec focused underfull isBlack
  rw [deleteFixupTurn]
  generalize liftSibling frame.side tree.root nodes = nodes at lifted ⊢
  generalize frame.side = side at lifted stillUnderfull sameList ⊢
  generalize frame.value = a at lifted stillUnderfull sameList ⊢
  obtain ⟨near, b, far, isBranch⟩ := exists_branch side (stillUnderfull.sibling_ne_nil isBlack)
  change sibling = _ at isBranch
  rw [siblingBlack] at isBranch
  subst isBranch
  obtain ⟨isSibling, holds, nearColor, farColor⟩ := sibling_children lifted
  simp only [isSibling, holds.near, holds.far, nearColor, farColor]
  by_cases bothBlack : near.color = .black ∧ far.color = .black
  · rw [if_pos bothBlack]
    have painted := paint_sibling lifted
    have above := stillUnderfull.black_children isBlack bothBlack.1 bothBlack.2
    refine .goesOn rest _ painted ?_ above ?_ ?_
    · rw [root_branch]
      exact lifted.parent
    · rw [← sameList]
      change _ = (plug rest (branch side tree color a (branch side near .black b far))).toList
      exact toList_plug_congr (toList_branch_congr rfl (toList_branch_congr rfl rfl))
    · intro newBlack
      rw [color_branch] at newBlack
      rcases length with same | ⟨isRed, _⟩
      · rw [same, List.length_cons]
        exact lt_add_one _
      · rw [newBlack] at isRed
        cases isRed
  · rw [if_neg bothBlack]
    obtain ⟨newB, newNear, newFar, turned, farUnderfull, farRed, siblingList⟩ :=
      turnSibling_spec lifted stillUnderfull isBlack bothBlack
    generalize turnSibling side tree.root nodes = nodes at turned ⊢
    obtain ⟨isNewSibling, newHolds, _, _⟩ := sibling_children turned
    have parentIs : nodes.parent tree.root = some a := turned.parent
    have parentColor : nodes.color (some a) = color := (holds_frame turned.located).color
    rw [parentIs] at isNewSibling
    simp only [setColor_parent, setColor_child, parentIs, isNewSibling, parentColor, newHolds.far]
    obtain ⟨finished, sentinel⟩ := finish_spec turned farRed
    have tracks := tracks_plug.mpr finished
    refine .done _ tracks tracks.root (farUnderfull.far_red isBlack farRed) ?_ sentinel
    rw [← sameList]
    change _ = (plug rest (branch side tree color a (branch side near .black b far))).toList
    apply toList_plug_congr
    rw [toList_rotate side tree newNear (newFar.paint .black) a newB .black color .black color]
    apply toList_branch_congr rfl
    rw [← siblingList]
    exact toList_branch_congr rfl (toList_paint _ _)

theorem deleteFixup_side (focused : Focused nodes (frame :: context) tree)
    (notNil : frame.sibling ≠ nil) :
    (if tree.root = nodes.child .left (nodes.parent tree.root) then
      deleteFixupTurn .left tree.root nodes
    else deleteFixupTurn .right tree.root nodes) = deleteFixupTurn frame.side tree.root nodes := by
  have holds := holds_frame focused.located
  have parentIs : nodes.parent tree.root = some frame.value := focused.parent
  cases isSide : frame.side with
  | left =>
    rw [isSide] at holds
    rw [parentIs, if_pos holds.near.symm]
  | right =>
    rw [isSide] at holds
    have isSibling : nodes.child .left (some frame.value) = frame.sibling.root := holds.far
    rw [parentIs, isSibling, if_neg (focused.sibling_root_ne notNil).symm]

theorem deleteFixup_done (focused : Focused nodes context tree)
    (underfull : Underfull context tree) (turns : ℕ) (stops : context = [] ∨ tree.color = .red) :
    ∃ after newTree, deleteFixup (turns + 1) tree.root nodes = some after ∧
      Tracks after newTree ∧ after.color none = .black ∧
      newTree.toList = (plug context tree).toList ∧ Whole newTree := by
  have test : ¬ (tree.root ≠ nodes.root ∧ nodes.color tree.root = .black) := by
    rintro ⟨notRoot, isBlack⟩
    rcases stops with isNil | isRed
    · subst isNil
      exact notRoot focused.located.surrounds.symm
    · rw [focused.color_root, isRed] at isBlack
      cases isBlack
  rw [deleteFixup, if_neg test]
  have sentinel : (nodes.setColor tree.root .black).color none = .black := by
    by_cases isSentinel : (none : Ref) = tree.root
    · rw [isSentinel, setColor_color_self]
    · rw [setColor_color_of_ne _ isSentinel]
      exact focused.sentinel
  have whole : Whole (plug context (tree.paint .black)) := by
    by_cases isRed : tree.color = .red
    · exact underfull.done_red isRed
    · have isBlack := Color.eq_black_of_ne_red isRed
      rcases stops with isNil | impossible
      · subst isNil
        have wholeTree := underfull.done_root isBlack
        change Whole (tree.paint .black)
        rw [Whole.paint_black wholeTree]
        exact wholeTree
      · exact absurd impossible isRed
  refine ⟨_, plug context (tree.paint .black), rfl, ?_, sentinel,
    toList_plug_congr (toList_paint _ _), whole⟩
  apply tracks_plug.mpr
  rcases focused.located.paint .black with isNone | painted
  · have isNil := root_eq_none.mp isNone
    subst isNil
    have located := focused.located
    refine ⟨?_, trivial, located.distinct⟩
    refine located.surrounds.congr (show _ = nodes.root from rfl) ?_
    intro address _
    exact ⟨fun _ => rfl, rfl, setColor_color_of_ne _ (Option.some_ne_none address)⟩
  · exact painted

theorem deleteFixup_spec {turns : ℕ} (focused : Focused nodes context tree)
    (underfull : Underfull context tree) (positive : 0 < turns)
    (enough : tree.color = .black → context.length + 1 < turns) :
    ∃ after newTree, deleteFixup turns tree.root nodes = some after ∧
      Tracks after newTree ∧ after.color none = .black ∧
      newTree.toList = (plug context tree).toList ∧ Whole newTree := by
  induction turns generalizing nodes context tree with
  | zero => cases positive
  | succ turns ih =>
    by_cases isRed : tree.color = .red
    · exact deleteFixup_done focused underfull turns (.inr isRed)
    · have isBlack := Color.eq_black_of_ne_red isRed
      have moreTurns := enough isBlack
      cases context with
      | nil => exact deleteFixup_done focused underfull turns (.inl rfl)
      | cons frame rest =>
        rw [List.length_cons] at moreTurns
        have test : tree.root ≠ nodes.root ∧
          nodes.color tree.root = .black := ⟨root_ne_of_located focused.located,
          focused.color_root.trans isBlack⟩
        have step : deleteFixup (turns + 1) tree.root nodes = deleteFixup turns
            (deleteFixupTurn frame.side tree.root nodes).1
            (deleteFixupTurn frame.side tree.root nodes).2 := by
          rw [deleteFixup, if_pos test, deleteFixup_side focused (underfull.sibling_ne_nil isBlack)]
        have turned := deleteFixupTurn_spec focused underfull isBlack
        rw [step]
        generalize deleteFixupTurn frame.side tree.root nodes = next at turned ⊢
        cases turned with
        | goesOn newContext newTree newFocused isRoot newUnderfull sameList shorter =>
          rw [isRoot]
          have newEnough : newTree.color = .black → newContext.length + 1 < turns := by
            intro newBlack
            have less := shorter newBlack
            rw [List.length_cons] at less
            omega
          obtain ⟨after, finalTree, isAfter, tracks, sentinel, list,
            whole⟩ := ih newFocused newUnderfull (by omega) newEnough
          exact ⟨after, finalTree, isAfter, tracks, sentinel, list.trans sameList, whole⟩
        | done newTree tracks isRoot whole sameList sentinel =>
          obtain ⟨fewer, rfl⟩ : ∃ fewer, turns = fewer + 1 :=
            Nat.exists_eq_succ_of_ne_zero (by omega)
          have test : ¬ (next.1 ≠ next.2.root ∧
            next.2.color next.1 = .black) := fun both => both.1 (isRoot.trans tracks.root.symm)
          rw [deleteFixup, if_neg test, isRoot]
          have located : Located next.2 [] newTree := tracks_plug.mp tracks
          refine ⟨_, newTree, rfl, ?_, ?_, sameList, whole⟩
          · rcases located.paint .black with isNone | painted
            · have isNil := root_eq_none.mp isNone
              subst isNil
              exact ⟨tracks.root, trivial, tracks.distinct⟩
            · rw [Whole.paint_black whole] at painted
              exact tracks_plug.mpr painted
          · by_cases isSentinel : (none : Ref) = newTree.root
            · rw [isSentinel, setColor_color_self]
            · rw [setColor_color_of_ne _ isSentinel]
              exact sentinel

end Skyc.Melon.Rbtree
