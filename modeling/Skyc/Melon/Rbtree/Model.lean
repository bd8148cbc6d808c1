import Skyc.Lib.DoublyLinked
import Skyc.Lib.TreeLinks

/-!
# The red-black tree

The tree of `mln_rbtree.c`, with a sentinel `nil` in its own record, a pointer to
the least node, and a chain of the nodes in the order of their insertion.

The pointer `none` of the tree stands for `&(t->nil)`, that of the chain for `NULL`.
The fields of the tree are in `nodes`, those of the chain and the data in `cells`.
The functions for the two sides are one function of the side.  There is no result
when a loop's number of turns is used up, or when `NULL` or memory that is not a
node is read.
-/

namespace Skyc.Melon

open Skyc.Lib

/-- `mln_rbtree_t`, with the memory of the nodes; `nodes.root` is its root. -/
structure Rbtree (Data : Type) where
  nodes : TreeNodes
  cells : Cells Data
  min : Ref
  head : Option Addr
  tail : Option Addr
  iter : Option Addr
  nrNode : ℕ
  del : Bool

namespace Rbtree

variable {Data : Type}

/-- `mln_rbtree_new` in a memory; only the sentinel is written. -/
def new (memory : TreeNodes) (cells : Cells Data) : Rbtree Data where
  nodes :=
    { child := fun side ref => if ref = none then none else memory.child side ref
      parent := fun ref => if ref = none then none else memory.parent ref
      color := fun ref => if ref = none then .black else memory.color ref
      root := none }
  cells := cells
  min := none
  head := none
  tail := none
  iter := none
  nrNode := 0
  del := false

/-! ## Rotations -/

/-- Let the parent of `n`, or the tree, point to `target` instead.  The pointer
on the given side is tested first. -/
def relink (side : Side) (n target : Ref) (nodes : TreeNodes) : TreeNodes :=
  if nodes.parent n = none then
    { nodes with root := target }
  else if n = nodes.child side (nodes.parent n) then
    nodes.setChild side (nodes.parent n) target
  else
    nodes.setChild side.other (nodes.parent n) target

def rotate (side : Side) (n : Ref) (nodes : TreeNodes) : TreeNodes :=
  let tmp := nodes.child side.other n
  if tmp = none then
    nodes
  else
    let nodes := nodes.setChild side.other n (nodes.child side tmp)
    let nodes :=
      if nodes.child side tmp ≠ none then
        nodes.setParent (nodes.child side tmp) n
      else
        nodes
    let nodes := nodes.setParent tmp (nodes.parent n)
    let nodes := relink side n tmp nodes
    let nodes := nodes.setChild side tmp n
    nodes.setParent n tmp

/-- `mln_rbtree_left_rotate` -/
def leftRotate : Ref → TreeNodes → TreeNodes :=
  rotate .left

/-- `mln_rbtree_right_rotate` -/
def rightRotate : Ref → TreeNodes → TreeNodes :=
  rotate .right

/-! ## Insertion -/

/-- The end of a turn of the loop of `rbtree_insert_fixup`: the parent of `n`
goes up in place of its own parent. -/
def raiseParent (side : Side) (n : Ref) (nodes : TreeNodes) : TreeNodes :=
  let nodes := nodes.setColor (nodes.parent n) .black
  let nodes := nodes.setColor (nodes.parent (nodes.parent n)) .red
  rotate side.other (nodes.parent (nodes.parent n)) nodes

/-- A turn of the loop of `rbtree_insert_fixup` when the parent of `n` is on the
given side of its own parent: the next `n` and the nodes. -/
def insertFixupTurn (side : Side) (n : Ref) (nodes : TreeNodes) : Ref × TreeNodes :=
  let parent := nodes.parent n
  let grand := nodes.parent parent
  let tmp := nodes.child side.other grand
  if nodes.color tmp = .red then
    (grand, ((nodes.setColor parent .black).setColor tmp .black).setColor grand .red)
  else if n = nodes.child side.other parent then
    (parent, raiseParent side parent (rotate side parent nodes))
  else
    (n, raiseParent side n nodes)

/-- The loop of `rbtree_insert_fixup`. -/
def insertFixupLoop : ℕ → Ref → TreeNodes → Option TreeNodes
  | 0, _, _ => none
  | turns + 1, n, nodes =>
    let parent := nodes.parent n
    if nodes.color parent = .red then
      let next :=
        if parent = nodes.child .left (nodes.parent parent) then
          insertFixupTurn .left n nodes
        else
          insertFixupTurn .right n nodes
      insertFixupLoop turns next.1 next.2
    else
      some nodes

/-- `rbtree_insert_fixup` -/
def insertFixup (turns : ℕ) (n : Ref) (nodes : TreeNodes) : Option TreeNodes := do
  let nodes ← insertFixupLoop turns n nodes
  return nodes.setColor nodes.root .black

/-- The node becomes a red child of `y`, or the root. -/
def attach (node : Addr) (y : Ref) (side : Side) (nodes : TreeNodes) : TreeNodes :=
  let nodes := nodes.setParent (some node) y
  let nodes :=
    if y = none then
      { nodes with root := some node }
    else
      nodes.setChild side y (some node)
  let nodes := nodes.setChild .right (some node) none
  let nodes := nodes.setChild .left (some node) none
  nodes.setColor (some node) .red

/-- The branches of `mln_rbtree_chain_add`: the last node, if there is one,
points at the node. -/
def linkTail (node : Addr) (t : Rbtree Data) (cells : Cells Data) : Option (Cells Data) :=
  if t.head = none then
    some cells
  else
    t.tail.bind fun tail => cells.setNext tail (some node)

/-- `mln_rbtree_chain_add` -/
def chainAdd (node : Addr) (t : Rbtree Data) : Option (Rbtree Data) := do
  let cells ← t.cells.setNext node none
  let cells ← linkTail node t cells
  let cells ← cells.setPrev node t.tail
  return { t with
    cells := cells
    head := if t.head = none then some node else t.head
    tail := some node }

/-- The branches of `mln_rbtree_chain_del`, for a node whose pointers are
`next` and `prev`. -/
def bypass (node : Addr) (next prev : Option Addr) (t : Rbtree Data) : Option (Rbtree Data) :=
  if t.head = some node then
    if t.tail = some node then
      some { t with head := none, tail := none }
    else do
      let next ← next
      let cells ← t.cells.setPrev next none
      return { t with cells := cells, head := some next }
  else if t.tail = some node then do
    let prev ← prev
    let cells ← t.cells.setNext prev none
    return { t with cells := cells, tail := some prev }
  else do
    let before ← prev
    let cells ← t.cells.setNext before next
    let after ← next
    let cells ← cells.setPrev after prev
    return { t with cells := cells }

/-- `mln_rbtree_chain_del` -/
def chainDel (node : Addr) (t : Rbtree Data) : Option (Rbtree Data) := do
  let cell ← t.cells node
  let t ← bypass node cell.next cell.prev t
  let cells ← t.cells.setNext node none
  let cells ← cells.setPrev node none
  return { t with cells := cells }

section Compare

variable (cmp : Data → Data → ℤ)

/-- The loop of `mln_rbtree_insert` that goes down from `x`; the result is the
last `y`. -/
def descend (t : Rbtree Data) (data : Data) : ℕ → Ref → Ref → Option Ref
  | 0, _, _ => none
  | _ + 1, none, y => some y
  | turns + 1, some x, _ => do
    let found ← t.cells.dataAt x
    descend t data turns (if cmp data found < 0 then t.nodes.child .left (some x)
      else t.nodes.child .right (some x)) (some x)

/-- The side of `y` on which the node belongs; the root has none. -/
def sideOf (t : Rbtree Data) (data : Data) : Ref → Option Side
  | none => some .left
  | some y => do
    let other ← t.cells.dataAt y
    return if cmp data other < 0 then .left else .right

/-- The next `min` of `mln_rbtree_insert`. -/
def minAfterInsert (t : Rbtree Data) (node : Addr) (data : Data) : Option Ref :=
  match t.min with
  | none => some (some node)
  | some least => do
    let other ← t.cells.dataAt least
    some (if cmp data other < 0 then some node else t.min)

/-- `mln_rbtree_insert`, and `mln_rbtree_inline_insert` with its comparison. -/
def insert (node : Addr) (t : Rbtree Data) : Option (Rbtree Data) := do
  let data ← t.cells.dataAt node
  let y ← descend cmp t data (t.nrNode + 1) t.nodes.root none
  let side ← sideOf cmp t data y
  let nodes ← insertFixup (t.nrNode + 1) (some node) (attach node y side t.nodes)
  let min ← minAfterInsert cmp t node data
  chainAdd node { t with nodes := nodes, min := min, nrNode := t.nrNode + 1 }

/-- The loop of `mln_rbtree_search`. -/
def searchLoop (t : Rbtree Data) (key : Data) : ℕ → Ref → Option Ref
  | 0, _ => none
  | _ + 1, none => some none
  | turns + 1, some found => do
    let data ← t.cells.dataAt found
    if cmp key data = 0 then
      some (some found)
    else
      searchLoop t key turns (if cmp key data < 0 then t.nodes.child .left (some found)
        else t.nodes.child .right (some found))

/-- `mln_rbtree_search`, and `mln_rbtree_inline_search` with its comparison. -/
def search (t : Rbtree Data) (key : Data) : Option Ref :=
  searchLoop cmp t key (t.nrNode + 1) t.nodes.root

end Compare

/-! ## Deletion -/

/-- `rbtree_minimum` -/
def minimum (nodes : TreeNodes) : ℕ → Ref → Option Ref
  | 0, _ => none
  | turns + 1, n =>
    if nodes.child .left n ≠ none then
      minimum nodes turns (nodes.child .left n)
    else
      some n

/-- The loop of `mln_rbtree_successor`. -/
def successorLoop (nodes : TreeNodes) : ℕ → Ref → Ref → Option Ref
  | 0, _, _ => none
  | turns + 1, n, tmp =>
    if tmp ≠ none ∧ n = nodes.child .right tmp then
      successorLoop nodes turns tmp (nodes.parent tmp)
    else
      some tmp

/-- `mln_rbtree_successor` -/
def successor (nodes : TreeNodes) (turns : ℕ) (n : Ref) : Option Ref :=
  if n ≠ none ∧ nodes.child .right n ≠ none then
    minimum nodes turns (nodes.child .right n)
  else
    successorLoop nodes turns n (nodes.parent n)

/-- `rbtree_transplant` -/
def transplant (u v : Ref) (nodes : TreeNodes) : TreeNodes :=
  (relink .left u v nodes).setParent v (nodes.parent u)

/-- The last writes of `mln_rbtree_delete` for a node `n` with two children,
whose place `y` takes. -/
def settle (n y : Ref) (nodes : TreeNodes) : TreeNodes :=
  let nodes := transplant n y nodes
  let nodes := nodes.setChild .left y (nodes.child .left n)
  let nodes := nodes.setParent (nodes.child .left y) y
  nodes.setColor y (nodes.color n)

/-- The node `y` takes the place of `n`, which has two children, in
`mln_rbtree_delete`. -/
def replace (n y : Ref) (nodes : TreeNodes) : TreeNodes :=
  if nodes.parent y = n then
    settle n y (nodes.setParent (nodes.child .right y) y)
  else
    let nodes := transplant y (nodes.child .right y) nodes
    let nodes := nodes.setChild .right y (nodes.child .right n)
    settle n y (nodes.setParent (nodes.child .right y) y)

/-- What `mln_rbtree_delete` does before it calls `rbtree_delete_fixup`: the
node `x`, the colour `y_original_color` and the nodes. -/
def takeOut (turns : ℕ) (n : Ref) (nodes : TreeNodes) : Option (Ref × Color × TreeNodes) :=
  if nodes.child .left n = none then
    some (nodes.child .right n, nodes.color n, transplant n (nodes.child .right n) nodes)
  else if nodes.child .right n = none then
    some (nodes.child .left n, nodes.color n, transplant n (nodes.child .left n) nodes)
  else do
    let y ← minimum nodes turns (nodes.child .right n)
    return (nodes.child .right y, nodes.color y, replace n y nodes)

/-- The first `if` of the loop of `rbtree_delete_fixup`: a red sibling goes
up. -/
def liftSibling (side : Side) (n : Ref) (nodes : TreeNodes) : TreeNodes :=
  let tmp := nodes.child side.other (nodes.parent n)
  if nodes.color tmp = .red then
    let nodes := nodes.setColor tmp .black
    let nodes := nodes.setColor (nodes.parent n) .red
    rotate side (nodes.parent n) nodes
  else
    nodes

/-- The second `else if` of the loop of `rbtree_delete_fixup`: a red child of
the sibling comes to its far side. -/
def turnSibling (side : Side) (n : Ref) (nodes : TreeNodes) : TreeNodes :=
  let tmp := nodes.child side.other (nodes.parent n)
  if nodes.color (nodes.child side.other tmp) = .black then
    let nodes := nodes.setColor (nodes.child side tmp) .black
    let nodes := nodes.setColor tmp .red
    rotate side.other tmp nodes
  else
    nodes

/-- A turn of the loop of `rbtree_delete_fixup` when `n` is on the given side of
its parent: the next `n` and the nodes. -/
def deleteFixupTurn (side : Side) (n : Ref) (nodes : TreeNodes) : Ref × TreeNodes :=
  let nodes := liftSibling side n nodes
  let tmp := nodes.child side.other (nodes.parent n)
  if nodes.color (nodes.child side tmp) = .black ∧
      nodes.color (nodes.child side.other tmp) = .black then
    (nodes.parent n, nodes.setColor tmp .red)
  else
    let nodes := turnSibling side n nodes
    let tmp := nodes.child side.other (nodes.parent n)
    let nodes := nodes.setColor tmp (nodes.color (nodes.parent n))
    let nodes := nodes.setColor (nodes.parent n) .black
    let nodes := nodes.setColor (nodes.child side.other tmp) .black
    let nodes := rotate side (nodes.parent n) nodes
    (nodes.root, nodes)

/-- `rbtree_delete_fixup` -/
def deleteFixup : ℕ → Ref → TreeNodes → Option TreeNodes
  | 0, _, _ => none
  | turns + 1, n, nodes =>
    if n ≠ nodes.root ∧ nodes.color n = .black then
      let next :=
        if n = nodes.child .left (nodes.parent n) then
          deleteFixupTurn .left n nodes
        else
          deleteFixupTurn .right n nodes
      deleteFixup turns next.1 next.2
    else
      some (nodes.setColor n .black)

/-- The next `min` of `mln_rbtree_delete`. -/
def minAfterDelete (t : Rbtree Data) (n : Ref) : Option Ref :=
  if n = t.min then successor t.nodes (t.nrNode + 1) n else some t.min

/-- `mln_rbtree_delete` from `y = n` to its call of `rbtree_delete_fixup`. -/
def removeNode (turns : ℕ) (n : Ref) (nodes : TreeNodes) : Option TreeNodes := do
  let taken ← takeOut (turns + 1) n nodes
  if taken.2.1 = .black then
    deleteFixup (turns + 2) taken.1 taken.2.2
  else
    some taken.2.2

/-- `mln_rbtree_delete` -/
def delete (node : Addr) (t : Rbtree Data) : Option (Rbtree Data) := do
  let n := some node
  let min ← minAfterDelete t n
  let nodes ← removeNode t.nrNode n t.nodes
  let nodes := nodes.setChild .right n none
  let nodes := nodes.setChild .left n none
  let nodes := nodes.setParent n none
  let cell ← t.cells node
  chainDel node { t with
    nodes := nodes
    min := min
    nrNode := t.nrNode - 1
    iter := if t.iter = some node then cell.next else t.iter
    del := if t.iter = some node then true else t.del }

/-! ## Calls -/

/-- What a node holds when it is given to the tree. -/
structure Contents (Data : Type) where
  data : Data
  prev : Option Addr
  next : Option Addr
  child : Side → Ref
  parent : Ref
  color : Color

def store (node : Addr) (contents : Contents Data) (t : Rbtree Data) : Rbtree Data :=
  { t with
    cells := Function.update t.cells node
      (some ⟨contents.next, contents.prev, contents.data⟩)
    nodes := { t.nodes with
      child := fun side ref =>
        if ref = some node then contents.child side else t.nodes.child side ref
      parent := fun ref =>
        if ref = some node then contents.parent else t.nodes.parent ref
      color := fun ref =>
        if ref = some node then contents.color else t.nodes.color ref } }

inductive Call (Data : Type) where
  | insert (node : Addr) (contents : Contents Data)
  | delete (node : Addr)

/-- A call; the caller has written the node that it inserts. -/
def call (cmp : Data → Data → ℤ) (t : Rbtree Data) : Call Data → Option (Rbtree Data)
  | .insert node contents => insert cmp node (store node contents t)
  | .delete node => delete node t

def calls (cmp : Data → Data → ℤ) (t : Rbtree Data) : List (Call Data) → Option (Rbtree Data)
  | [] => some t
  | first :: rest => do
    let t ← call cmp t first
    calls cmp t rest

end Rbtree

end Skyc.Melon
