import Mathlib

/-!
# Red-black trees with a hole

A context has the frames from a hole up to the root.  What a red-black tree requires
is split at the hole, so that each repair is a statement about one or two frames and
the tree in the hole.
-/

namespace Skyc.Lib

universe u

inductive Side where
  | left
  | right
  deriving DecidableEq, Repr

namespace Side

def other : Side → Side
  | left => right
  | right => left

@[simp]
theorem other_other (side : Side) : side.other.other = side := by
  cases side with
  | left => rfl
  | right => rfl

@[simp]
theorem other_ne (side : Side) : side.other ≠ side := by
  cases side with
  | left | right => decide

@[simp]
theorem ne_other (side : Side) : side ≠ side.other := (other_ne side).symm

theorem eq_or_eq_other (side given : Side) : side = given ∨ side = given.other := by
  cases side with
  | left =>
    cases given with
    | left => exact .inl rfl
    | right => exact .inr rfl
  | right =>
    cases given with
    | left => exact .inr rfl
    | right => exact .inl rfl

end Side

inductive Color where
  | red
  | black
  deriving DecidableEq, Repr

namespace Color

def weight : Color → ℕ
  | red => 0
  | black => 1

theorem eq_black_of_ne_red {color : Color} (notRed : color ≠ .red) : color = .black := by
  cases color with
  | red => exact absurd rfl notRed
  | black => rfl

end Color

inductive ColorTree (α : Type u) where
  | nil
  | node (left : ColorTree α) (color : Color) (value : α) (right : ColorTree α)
  deriving Repr

namespace ColorTree

variable {α : Type u}

def color : ColorTree α → Color
  | nil => .black
  | node _ color _ _ => color

def toList : ColorTree α → List α
  | nil => []
  | node left _ value right => left.toList ++ value :: right.toList

def paint (color : Color) : ColorTree α → ColorTree α
  | nil => nil
  | node left _ value right => node left color value right

/-- A node with `near` on one side and `far` on the other one. -/
def branch (side : Side) (near : ColorTree α) (color : Color) (value : α)
    (far : ColorTree α) : ColorTree α :=
  match side with
  | .left => node near color value far
  | .right => node far color value near

variable {side : Side} {near far : ColorTree α} {color : Color} {value : α}

theorem branch_other :
    branch side.other near color value far = branch side far color value near := by
  cases side with
  | left => rfl
  | right => rfl

@[simp]
theorem color_branch : (branch side near color value far).color = color := by
  cases side with
  | left => rfl
  | right => rfl

@[simp]
theorem paint_branch (other : Color) :
    (branch side near color value far).paint other = branch side near other value far := by
  cases side with
  | left => rfl
  | right => rfl

@[simp]
theorem toList_paint (tree : ColorTree α) (other : Color) :
    (tree.paint other).toList = tree.toList := by
  cases tree with
  | nil | node => rfl

variable {tree : ColorTree α}

theorem exists_branch (side : Side) (notNil : tree ≠ nil) :
    ∃ near value far, tree = branch side near tree.color value far := by
  cases tree with
  | nil => exact absurd rfl notNil
  | node left color value right =>
    cases side with
    | left => exact ⟨left, value, right, rfl⟩
    | right => exact ⟨right, value, left, rfl⟩

theorem ne_nil_of_color_eq_red (isRed : tree.color = .red) : tree ≠ nil := by
  rintro rfl
  cases isRed

theorem perm_branch :
    (branch side near color value far).toList.Perm (value :: (near.toList ++ far.toList)) := by
  cases side with
  | left => exact List.perm_middle
  | right => exact List.perm_middle.trans (List.Perm.cons value List.perm_append_comm)

theorem toList_branch :
    (branch side near color value far).toList = match side with
      | .left => near.toList ++ value :: far.toList
      | .right => far.toList ++ value :: near.toList := by
  cases side with
  | left => rfl
  | right => rfl

theorem toList_rotate (side : Side) (x y z : ColorTree α) (a b : α) (c d c' d' : Color) :
    (branch side (branch side x c a y) d b z).toList =
      (branch side x c' a (branch side y d' b z)).toList := by
  cases side with
  | left | right => simp [branch, toList]

theorem toList_branch_congr {near' far' : ColorTree α} {color' : Color}
    (sameNear : near'.toList = near.toList) (sameFar : far'.toList = far.toList) :
    (branch side near' color' value far').toList = (branch side near color value far).toList := by
  rw [toList_branch, toList_branch, sameNear, sameFar]

/-! ## Red-black trees -/

/-- No red node has a red child, and every path from the root to an empty tree
passes the given number of black nodes. -/
def RedBlack : ColorTree α → ℕ → Prop
  | nil, height => height = 0
  | node left color _ right, height =>
    (color = .red → left.color = .black ∧ right.color = .black) ∧
      ∃ below, height = below + color.weight ∧ RedBlack left below ∧ RedBlack right below

variable {height : ℕ}

theorem redBlack_branch :
    RedBlack (branch side near color value far) height ↔
      (color = .red → near.color = .black ∧ far.color = .black) ∧
        ∃ below, height = below + color.weight ∧ RedBlack near below ∧ RedBlack far below := by
  cases side with
  | left => exact Iff.rfl
  | right =>
    rw [branch, RedBlack]
    constructor
    · rintro ⟨colors, below, isHeight, ofFar, ofNear⟩
      exact ⟨fun isRed => (colors isRed).symm, below, isHeight, ofNear, ofFar⟩
    · rintro ⟨colors, below, isHeight, ofNear, ofFar⟩
      exact ⟨fun isRed => (colors isRed).symm, below, isHeight, ofFar, ofNear⟩

theorem RedBlack.red (redBlack : RedBlack (branch side near .red value far) height) :
    near.color = .black ∧ far.color = .black ∧ RedBlack near height ∧ RedBlack far height := by
  obtain ⟨colors, below, isHeight, ofNear, ofFar⟩ := redBlack_branch.mp redBlack
  have same : height = below := isHeight
  rw [same]
  exact ⟨(colors rfl).1, (colors rfl).2, ofNear, ofFar⟩

theorem RedBlack.black (redBlack : RedBlack (branch side near .black value far) (height + 1)) :
    RedBlack near height ∧ RedBlack far height := by
  obtain ⟨_, below, isHeight, ofNear, ofFar⟩ := redBlack_branch.mp redBlack
  have same : height = below := Nat.succ.inj isHeight
  rw [same]
  exact ⟨ofNear, ofFar⟩

theorem redBlack_red (nearBlack : near.color = .black)
    (farBlack : far.color = .black) (ofNear : RedBlack near height) (ofFar : RedBlack far height) :
    RedBlack (branch side near .red value far) height :=
  redBlack_branch.mpr ⟨fun _ => ⟨nearBlack, farBlack⟩, height, rfl, ofNear, ofFar⟩

theorem redBlack_black (ofNear : RedBlack near height) (ofFar : RedBlack far height) :
    RedBlack (branch side near .black value far) (height + 1) :=
  redBlack_branch.mpr ⟨(fun impossible => by cases impossible), height, rfl, ofNear, ofFar⟩

theorem RedBlack.ne_nil (redBlack : RedBlack tree (height + 1)) : tree ≠ nil := by
  rintro rfl
  cases redBlack

theorem RedBlack.paint_black (redBlack : RedBlack tree height) (isRed : tree.color = .red) :
    RedBlack (tree.paint .black) (height + 1) := by
  obtain ⟨near, value, far, isBranch⟩ := exists_branch .left (ne_nil_of_color_eq_red isRed)
  rw [isRed] at isBranch
  rw [isBranch] at redBlack ⊢
  rw [paint_branch]
  exact redBlack_black redBlack.red.2.2.1 redBlack.red.2.2.2

/-! ## How deep a tree is -/

def depth : ColorTree α → ℕ
  | nil => 0
  | node left _ _ right => max left.depth right.depth + 1

theorem depth_le_length : tree.depth ≤ tree.toList.length := by
  induction tree with
  | nil => exact Nat.zero_le _
  | node left _ _ right ofLeft ofRight =>
    simp only [depth, toList, List.length_append, List.length_cons]
    omega

/-- A way has at most as many red nodes as black ones, and one more below a red root. -/
theorem RedBlack.depth_le (redBlack : RedBlack tree height) :
    tree.depth + tree.color.weight ≤ 2 * height + 1 := by
  induction tree generalizing height with
  | nil => exact Nat.le_add_left 1 _
  | node left color _ right ofLeft ofRight =>
    obtain ⟨colors, below, rfl, leftBelow, rightBelow⟩ := redBlack
    have leftDepth := ofLeft leftBelow
    have rightDepth := ofRight rightBelow
    cases color with
    | red =>
      rw [(colors rfl).1] at leftDepth
      rw [(colors rfl).2] at rightDepth
      simp only [depth, ColorTree.color, Color.weight] at *
      omega
    | black =>
      simp only [depth, ColorTree.color, Color.weight]
      omega

theorem RedBlack.two_pow_le (redBlack : RedBlack tree height) :
    2 ^ height ≤ tree.toList.length + 1 := by
  induction tree generalizing height with
  | nil =>
    rw [show height = 0 from redBlack]
    rfl
  | node left color _ right ofLeft ofRight =>
    obtain ⟨_, below, rfl, leftBelow, rightBelow⟩ := redBlack
    have leftSize := ofLeft leftBelow
    have rightSize := ofRight rightBelow
    have double : 2 ^ (below + color.weight) ≤ 2 ^ (below + 1) :=
      Nat.pow_le_pow_right two_pos (by cases color <;> simp [Color.weight])
    simp only [toList, List.length_append, List.length_cons]
    omega

end ColorTree

/-! ## Contexts -/

structure Frame (α : Type u) where
  side : Side
  color : Color
  value : α
  sibling : ColorTree α
  deriving Repr

abbrev Context (α : Type u) := List (Frame α)

namespace Context

open ColorTree List

variable {α : Type u}

def plug : Context α → ColorTree α → ColorTree α
  | [], tree => tree
  | frame :: context, tree =>
    plug context (branch frame.side tree frame.color frame.value frame.sibling)

def before : Context α → List α
  | [] => []
  | frame :: context =>
    before context ++ match frame.side with
      | .left => []
      | .right => frame.sibling.toList ++ [frame.value]

def after : Context α → List α
  | [] => []
  | frame :: context =>
    (match frame.side with
      | .left => frame.value :: frame.sibling.toList
      | .right => []) ++ after context

def values : Context α → List α
  | [] => []
  | frame :: context => frame.value :: (frame.sibling.toList ++ values context)

variable {context : Context α} {frame : Frame α} {tree tree' : ColorTree α}

theorem toList_plug :
    (plug context tree).toList = before context ++ tree.toList ++ after context := by
  induction context generalizing tree with
  | nil => simp [plug, before, after]
  | cons frame context ih =>
    rw [plug, ih, toList_branch, before, after]
    cases frame.side with
    | left | right => simp

theorem toList_plug_congr (same : tree'.toList = tree.toList) :
    (plug context tree').toList = (plug context tree).toList := by
  rw [toList_plug, toList_plug, same]

theorem perm_plug : (plug context tree).toList.Perm (tree.toList ++ values context) := by
  induction context generalizing tree with
  | nil => simp [plug, values]
  | cons frame context ih =>
    rw [plug, values]
    refine ih.trans ?_
    refine (Perm.append_right _ perm_branch).trans ?_
    rw [cons_append, append_assoc]
    exact perm_middle.symm

variable {lower upper : Context α} {height : ℕ}

theorem plug_append : plug (lower ++ upper) tree = plug upper (plug lower tree) := by
  induction lower generalizing tree with
  | nil => rfl
  | cons frame lower ih => exact ih

theorem before_append : before (lower ++ upper) = before upper ++ before lower := by
  induction lower with
  | nil => simp [before]
  | cons frame lower ih => rw [cons_append, before, before, ih, append_assoc]

theorem after_append : after (lower ++ upper) = after lower ++ after upper := by
  induction lower with
  | nil => rfl
  | cons frame lower ih => rw [cons_append, after, after, ih, append_assoc]

/-- What the nodes above a hole say about their own values holds on their sides of a
list in order. -/
theorem steered {relation : α → α → Prop} {left right : α → Prop}
    (sorted : (before context ++ after context).Pairwise relation)
    (leftClosed : ∀ a b, relation a b → left b → left a)
    (rightClosed : ∀ a b, relation a b → right a → right b) (atFrames : ∀ frame ∈ context,
      (frame.side = .right → left frame.value) ∧ (frame.side = .left → right frame.value)) :
    (∀ a ∈ before context, left a) ∧ ∀ a ∈ after context, right a := by
  induction context with
  | nil => simp [before, after]
  | cons frame context ih =>
    obtain ⟨ofRight, ofLeft⟩ := atFrames frame mem_cons_self
    have above : (before context ++ after context).Pairwise relation := by
      refine Pairwise.sublist ?_ sorted
      rw [before, after, append_assoc]
      exact (Sublist.refl _).append ((sublist_append_right _ _).trans (sublist_append_right _ _))
    obtain ⟨lefts, rights⟩ := ih above (forall_mem_cons.mp atFrames).2
    rw [before, after] at sorted ⊢
    cases isSide : frame.side with
    | left =>
      simp only [isSide, append_nil] at sorted ⊢
      have siblings := (pairwise_append.mp sorted).2.1
      refine ⟨lefts, ?_⟩
      intro a member
      rcases mem_append.mp member with near | far
      · rcases mem_cons.mp near with isValue | inSibling
        · rw [isValue]
          exact ofLeft isSide
        · have later := (pairwise_cons.mp siblings).1 a (mem_append_left _ inSibling)
          exact rightClosed _ _ later (ofLeft isSide)
      · exact rights a far
    | right =>
      simp only [isSide, nil_append] at sorted ⊢
      refine ⟨?_, rights⟩
      intro a member
      rcases mem_append.mp member with far | near
      · exact lefts a far
      · rcases mem_append.mp near with inSibling | isValue
        · have toTheLeft := (pairwise_append.mp sorted).1
          have siblings := (pairwise_append.mp toTheLeft).2.1
          have earlier := (pairwise_append.mp siblings).2.2 a inSibling frame.value mem_cons_self
          exact leftClosed _ _ earlier (ofRight isSide)
        · rw [mem_singleton.mp isValue]
          exact ofRight isSide

/-- What a context requires of the tree in its hole: a root of a colour that
the node above allows, and a black height.  The root of the whole tree is
black. -/
def Hole : Context α → Color → ℕ → Prop
  | [], color, _ => color = .black
  | frame :: context, color, height =>
    (frame.color = .red → color = .black ∧ frame.sibling.color = .black) ∧
      RedBlack frame.sibling height ∧
      Hole context frame.color (height + frame.color.weight)

theorem Hole.black {color : Color}
    (hole : Hole context color height) : Hole context .black height := by
  cases context with
  | nil => rfl
  | cons frame context => exact ⟨fun isRed => ⟨rfl, (hole.1 isRed).2⟩, hole.2.1, hole.2.2⟩

theorem Hole.revalue {side : Side} {frameColor : Color}
    {sibling : ColorTree α} {value value' : α} {color : Color}
    (hole : Hole (lower ++ ⟨side, frameColor, value, sibling⟩ :: context) color height) :
    Hole (lower ++ ⟨side, frameColor, value', sibling⟩ :: context) color height := by
  induction lower generalizing color height with
  | nil => exact hole
  | cons frame lower ih => exact ⟨hole.1, hole.2.1, ih hole.2.2⟩

def Whole (tree : ColorTree α) : Prop :=
  tree.color = .black ∧ ∃ height, RedBlack tree height

theorem whole_plug :
    Whole (plug context tree) ↔
      ∃ height, RedBlack tree height ∧ Hole context tree.color height := by
  induction context generalizing tree with
  | nil =>
    constructor
    · rintro ⟨isBlack, height, redBlack⟩
      exact ⟨height, redBlack, isBlack⟩
    · rintro ⟨height, redBlack, isBlack⟩
      exact ⟨isBlack, height, redBlack⟩
  | cons frame context ih =>
    rw [plug, ih, color_branch]
    constructor
    · rintro ⟨height, redBlack, hole⟩
      obtain ⟨colors, below, isHeight, ofTree, ofSibling⟩ := redBlack_branch.mp redBlack
      rw [isHeight] at hole
      exact ⟨below, ofTree, colors, ofSibling, hole⟩
    · rintro ⟨below, ofTree, colors, ofSibling, hole⟩
      exact ⟨below + frame.color.weight,
        redBlack_branch.mpr ⟨colors, below, rfl, ofTree, ofSibling⟩, hole⟩

/-! ## Repairs after an insertion -/

/-- A red tree that fits into its hole, but for a red node above it. -/
structure Overfull (context : Context α) (tree : ColorTree α) : Prop where
  isRed : tree.color = .red
  fits : ∃ height, RedBlack tree height ∧ Hole context .black height

namespace Overfull

variable {parent grand : Frame α}

theorem grand_black (hole : Hole (parent :: context) .black height) (isRed : parent.color = .red) :
    ∃ grand rest, context = grand :: rest ∧ grand.color = .black := by
  obtain ⟨_, _, above⟩ := hole
  rw [isRed] at above
  cases context with
  | nil => cases above
  | cons grand rest =>
    refine ⟨grand, rest, rfl, Color.eq_black_of_ne_red fun grandRed => ?_⟩
    cases (above.1 grandRed).1

/-- Without a red node above it the tree fits, once its root is black when it
is the root of the whole. -/
theorem done (overfull : Overfull context tree)
    (parentBlack : ∀ parent rest, context = parent :: rest →
      parent.color = .black) : Whole ((plug context tree).paint .black) := by
  obtain ⟨height, redBlack, hole⟩ := overfull.fits
  cases context with
  | nil =>
    refine ⟨?_, height + 1, redBlack.paint_black overfull.isRed⟩
    obtain ⟨near, value, far, isBranch⟩ :=
      exists_branch .left (ne_nil_of_color_eq_red overfull.isRed)
    change (tree.paint .black).color = .black
    rw [isBranch, paint_branch, color_branch]
  | cons parent rest =>
    have isBlack := parentBlack parent rest rfl
    have fits : Hole (parent :: rest) tree.color _ := ⟨by simp [isBlack], hole.2⟩
    have whole := whole_plug.mpr ⟨height, redBlack, fits⟩
    have same : (plug (parent :: rest) tree).paint .black = plug (parent :: rest) tree := by
      generalize plug (parent :: rest) tree = result at whole
      cases result with
      | nil => rfl
      | node left color value right =>
        have isBlack : color = .black := whole.1
        rw [isBlack, paint]
    rw [same]
    exact whole

/-- The node above and its sibling are red: they become black, and the node
above them red. -/
theorem recolor (overfull : Overfull (parent :: grand :: context) tree)
    (parentRed : parent.color = .red) (uncleRed : grand.sibling.color = .red) :
    Overfull context (branch grand.side
      (branch parent.side tree .black parent.value parent.sibling) .red
      grand.value (grand.sibling.paint .black)) := by
  obtain ⟨height, redBlack, hole⟩ := overfull.fits
  obtain ⟨_, ofSibling, above⟩ := hole
  rw [parentRed] at above
  obtain ⟨_, ofUncle, rest⟩ := above
  change RedBlack grand.sibling height at ofUncle
  have grandBlack : grand.color = .black := by
    apply Color.eq_black_of_ne_red
    intro grandRed
    obtain ⟨grand', rest', same, isBlack⟩ := grand_black overfull.fits.choose_spec.2 parentRed
    cases same
    rw [isBlack] at grandRed
    cases grandRed
  rw [grandBlack] at rest
  have uncleBlack : (grand.sibling.paint .black).color = .black := by
    obtain ⟨near, value, far, isBranch⟩ := exists_branch .left (ne_nil_of_color_eq_red uncleRed)
    rw [isBranch, paint_branch, color_branch]
  exact ⟨color_branch, height + 1, redBlack_red color_branch uncleBlack
    (redBlack_black redBlack ofSibling) (ofUncle.paint_black uncleRed), rest⟩

/-- The tree is on the inner side: a rotation brings it to the outer side. -/
theorem inner {side : Side} {near far sibling : ColorTree α} {value p : α}
    (overfull : Overfull (⟨side.other, .red, p, sibling⟩ :: context)
      (branch side near .red value far)) :
    Overfull (⟨side, .red, value, far⟩ :: context) (branch side sibling .red p near) := by
  obtain ⟨height, redBlack, colors, ofSibling, above⟩ := overfull.fits
  obtain ⟨nearBlack, farBlack, ofNear, ofFar⟩ := redBlack.red
  exact ⟨color_branch, height, redBlack_red (colors rfl).2 nearBlack ofSibling ofNear,
    fun _ => ⟨rfl, farBlack⟩, ofFar, above⟩

/-- The tree is on the outer side: a rotation ends the repair. -/
theorem outer {side : Side} {sibling uncle : ColorTree α} {p g : α}
    (overfull : Overfull (⟨side, .red, p, sibling⟩ :: ⟨side, .black, g, uncle⟩ :: context) tree)
    (uncleBlack : uncle.color = .black) :
    Whole (plug context (branch side tree .black p (branch side sibling .red g uncle))) := by
  obtain ⟨height, redBlack, colors, ofSibling, _, ofUncle, rest⟩ := overfull.fits
  apply whole_plug.mpr
  refine ⟨height + 1, redBlack_black redBlack
    (redBlack_red (colors rfl).2 uncleBlack ofSibling ofUncle), ?_⟩
  rw [color_branch]
  exact rest

end Overfull

/-! ## Repairs after a deletion -/

/-- A tree that is one too low for its hole unless its root is red, and then
fits once the root is black. -/
def Underfull (context : Context α) (tree : ColorTree α) : Prop :=
  ∃ height, Hole context .black (height + 1) ∧ (tree.color = .black ∧ RedBlack tree height ∨
    tree.color = .red ∧ RedBlack (tree.paint .black) (height + 1))

namespace Underfull

variable {side : Side} {value sibValue : α} {color : Color} {sibNear sibFar : ColorTree α}

theorem of_redBlack (redBlack : RedBlack tree height) (hole : Hole context .black (height + 1)) :
    Underfull context tree := by
  refine ⟨height, hole, ?_⟩
  by_cases isRed : tree.color = .red
  · exact .inr ⟨isRed, redBlack.paint_black isRed⟩
  · exact .inl ⟨Color.eq_black_of_ne_red isRed, redBlack⟩

theorem done_red (underfull : Underfull context tree) (isRed : tree.color = .red) :
    Whole (plug context (tree.paint .black)) := by
  obtain ⟨height, hole, ⟨isBlack, _⟩ | ⟨_, redBlack⟩⟩ := underfull
  · rw [isRed] at isBlack
    cases isBlack
  · apply whole_plug.mpr
    refine ⟨height + 1, redBlack, ?_⟩
    obtain ⟨near, value, far, isBranch⟩ := exists_branch .left (ne_nil_of_color_eq_red isRed)
    rw [isBranch, paint_branch, color_branch]
    exact hole

section

variable (isBlack : tree.color = .black)
include isBlack

theorem done_root (underfull : Underfull [] tree) : Whole tree := by
  obtain ⟨height, _, ⟨_, redBlack⟩ | ⟨isRed, _⟩⟩ := underfull
  · exact ⟨isBlack, height, redBlack⟩
  · rw [isBlack] at isRed
    cases isRed

theorem redBlack (underfull : Underfull context tree) :
    ∃ height, RedBlack tree height ∧ Hole context .black (height + 1) := by
  obtain ⟨height, hole, ⟨_, redBlack⟩ | ⟨isRed, _⟩⟩ := underfull
  · exact ⟨height, redBlack, hole⟩
  · rw [isBlack] at isRed
    cases isRed

theorem sibling_ne_nil (underfull : Underfull (frame :: context) tree) : frame.sibling ≠ .nil := by
  obtain ⟨height, _, _, ofSibling, _⟩ := underfull.redBlack isBlack
  exact ofSibling.ne_nil

/-- A red sibling goes up, and one of its children becomes the sibling. -/
theorem red_sibling (underfull : Underfull
      (⟨side, color, value, branch side sibNear .red sibValue sibFar⟩ :: context) tree) :
    color = .black ∧ sibNear.color = .black ∧ Underfull (⟨side, .red, value, sibNear⟩ ::
      ⟨side, .black, sibValue, sibFar⟩ :: context) tree := by
  obtain ⟨height, redBlack, colors, ofSibling, above⟩ := underfull.redBlack isBlack
  have parentBlack : color = .black := by
    apply Color.eq_black_of_ne_red
    intro isRed
    have sibling := (colors isRed).2
    rw [color_branch] at sibling
    cases sibling
  obtain ⟨nearBlack, _, ofNear, ofFar⟩ := ofSibling.red
  change Hole context color _ at above
  rw [parentBlack] at above
  refine ⟨parentBlack, nearBlack, height, ?_, .inl ⟨isBlack, redBlack⟩⟩
  exact ⟨fun _ => ⟨rfl, nearBlack⟩, ofNear, (fun impossible => by cases impossible), ofFar, above⟩

variable (underfull : Underfull
  (⟨side, color, value, branch side sibNear .black sibValue sibFar⟩ :: context) tree)

include underfull in
/-- A black sibling with black children becomes red, and the tree above is too
low. -/
theorem black_children (nearBlack : sibNear.color = .black) (farBlack : sibFar.color = .black) :
    Underfull context (branch side tree color value
      (branch side sibNear .red sibValue sibFar)) := by
  obtain ⟨height, redBlack, _, ofSibling, above⟩ := underfull.redBlack isBlack
  have painted : RedBlack (branch side sibNear .red sibValue sibFar) height :=
    redBlack_red nearBlack farBlack ofSibling.black.1 ofSibling.black.2
  cases color with
  | red =>
    refine ⟨height, above.black, .inr ⟨color_branch, ?_⟩⟩
    rw [paint_branch]
    exact redBlack_black redBlack painted
  | black => exact ⟨height + 1, above, .inl ⟨color_branch, redBlack_black redBlack painted⟩⟩

/-- The near child of a black sibling is red: a rotation brings the red child
to the far side. -/
theorem near_red {x y : ColorTree α} {nearValue : α} (underfull : Underfull
      (⟨side, color, value, branch side (branch side x .red nearValue y) .black
        sibValue sibFar⟩ :: context) tree)
    (farBlack : sibFar.color = .black) :
    Underfull (⟨side, color, value, branch side x .black nearValue
      (branch side y .red sibValue sibFar)⟩ :: context) tree := by
  obtain ⟨height, redBlack, colors, ofSibling, above⟩ := underfull.redBlack isBlack
  obtain ⟨ofNear, ofFar⟩ := RedBlack.black ofSibling
  obtain ⟨_, yBlack, ofX, ofY⟩ := RedBlack.red ofNear
  refine ⟨height, ?_, .inl ⟨isBlack, redBlack⟩⟩
  refine ⟨fun isRed => ⟨rfl, color_branch⟩, ?_, above⟩
  exact redBlack_black ofX (redBlack_red yBlack farBlack ofY ofFar)

include underfull in
/-- The far child of a black sibling is red: a rotation ends the repair. -/
theorem far_red (farRed : sibFar.color = .red) :
    Whole (plug context (branch side (branch side tree .black value sibNear)
      color sibValue (sibFar.paint .black))) := by
  obtain ⟨height, redBlack, _, ofSibling, above⟩ := underfull.redBlack isBlack
  obtain ⟨ofNear, ofFar⟩ := RedBlack.black ofSibling
  have painted := ofFar.paint_black farRed
  apply whole_plug.mpr
  refine ⟨height + 1 + color.weight, redBlack_branch.mpr ⟨?_, height + 1, rfl,
    redBlack_black redBlack ofNear, painted⟩, ?_⟩
  · intro _
    refine ⟨color_branch, ?_⟩
    obtain ⟨near, value, far, isBranch⟩ := exists_branch .left (ne_nil_of_color_eq_red farRed)
    rw [isBranch, paint_branch, color_branch]
  · rw [color_branch]
    exact above

end

end Underfull

end Context

end Skyc.Lib
