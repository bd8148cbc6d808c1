import Skyc.Lib.DoublyLinked

/-!
# The doubly linked list

`list.c` links nodes that its callers own.  A result is missing when the code
dereferences a pointer that is not a node.  The reference is a double-ended queue of
node addresses: only nodes that are not in the list are appended, and only nodes of
the list are removed.
-/

namespace Skyc.Utils.LinkedList

open Skyc.Lib List Option Cells

universe u

/-- `list_t` with the memory that holds the nodes. -/
structure ListT (Data : Type u) where
  cells : Cells Data
  head : Option Addr
  tail : Option Addr

variable {Data : Type u}

/-! ## The functions -/

def listInit (cells : Cells Data) : ListT Data where
  cells := cells
  head := none
  tail := none

def listAppend (list : ListT Data) (node : Addr) : Option (ListT Data) := do
  let cells ← list.cells.setPrev node list.tail
  let cells ← cells.setNext node none
  let cells ← cells.linkNext list.tail (some node)
  return { cells, tail := some node, head := list.head.or (some node) }

def listAppendleft (list : ListT Data) (node : Addr) : Option (ListT Data) := do
  let cells ← list.cells.setPrev node none
  let cells ← cells.setNext node list.head
  let cells ← cells.linkPrev list.head (some node)
  return { cells, head := some node, tail := list.tail.or (some node) }

/-- The return code and what `*node` is afterwards. -/
structure Popped where
  code : Int
  node : Option Addr
deriving DecidableEq, Repr

def listPop (list : ListT Data) (node : Option Addr) : Option (ListT Data × Popped) :=
  match list.tail with
  | none => some (list, ⟨-1, node⟩)
  | some last => do
    let cell ← list.cells last
    let cells ← list.cells.linkNext cell.prev none
    return (
      { cells, tail := cell.prev
        head := if cell.prev = none then none else list.head }, ⟨0, some last⟩)

def listPopleft (list : ListT Data) (node : Option Addr) : Option (ListT Data × Popped) :=
  match list.head with
  | none => some (list, ⟨-1, node⟩)
  | some first => do
    let cell ← list.cells first
    let cells ← list.cells.linkPrev cell.next none
    return (
      { cells, head := cell.next
        tail := if cell.next = none then none else list.tail }, ⟨0, some first⟩)

def listRemoveNode (list : ListT Data) (node : Addr) : Option (ListT Data) := do
  let cell ← list.cells node
  match cell.prev, cell.next with
  | none, next =>
    let cells ← list.cells.linkPrev next none
    return { cells, head := next
             tail := if next = none then none else list.tail }
  | some prev, none =>
    let cells ← list.cells.setNext prev none
    return { cells, head := list.head, tail := some prev }
  | some prev, some next =>
    let cells ← list.cells.setPrev next (some prev)
    let cells ← cells.setNext prev (some next)
    return { list with cells }

/-! ## Well-formed lists -/

/-- The pointers of the list and of its nodes are those of a doubly linked
list of the given nodes. -/
structure WellFormed (list : ListT Data) (nodes : List Addr) : Prop where
  head : list.head = nodes.head?
  tail : list.tail = nodes.getLast?
  links : Segment list.cells none nodes none

variable {list : ListT Data} {nodes first second : List Addr} {node : Addr}

/-- A result of an operation on the list: its nodes, and the memory with
other pointers only. -/
structure Result (list after : ListT Data) (nodes : List Addr) : Prop where
  wellFormed : WellFormed after nodes
  data : ∀ address, after.cells.dataAt address = list.cells.dataAt address

theorem exists_prepared (cells : Cells Data) {cell : Cell Data}
    (present : cells node = some cell) (prev next : Option Addr) :
    ∃ first second, cells.setPrev node prev = some first ∧ first.setNext node next = some second ∧
      second node = some ⟨next, prev, cell.data⟩ ∧ Cells.Relinked [node] cells second := by
  have wrotePrev := modify_eq_some present fun cell => { cell with prev }
  have wroteNext := modify_eq_some (Function.update_self node (some { cell with prev }) cells)
    fun cell => { cell with next }
  refine ⟨_, _, wrotePrev, wroteNext, Function.update_self .., ?_⟩
  exact (relinked_modify wrotePrev fun _ => rfl).trans (relinked_modify wroteNext fun _ => rfl)

theorem WellFormed.apart (fresh : node ∉ nodes) : ∀ address ∈ nodes, address ∉ [node] := by
  intro address member isNode
  rw [mem_singleton] at isNode
  exact fresh (isNode ▸ member)

section

variable (wellFormed : WellFormed list nodes) (fresh : node ∉ nodes)
  (present : (list.cells node).isSome = true)

include wellFormed fresh present

theorem listAppend_spec :
    ∃ after, listAppend list node = some after ∧ Result list after (nodes ++ [node]) := by
  obtain ⟨cell, found⟩ := isSome_iff_exists.mp present
  obtain ⟨_, prepared, wrotePrev, wroteNext, atNode, relinked⟩ :=
    exists_prepared list.cells found list.tail none
  have segment := wellFormed.links.frame relinked (WellFormed.apart fresh)
  obtain ⟨linked, wrote, before, relinkedAgain⟩ :=
    segment.linkNext wellFormed.links.nodup (some node)
  rw [← wellFormed.tail] at wrote
  have stillAtNode : linked node = some ⟨none, nodes.getLast?.or none, cell.data⟩ := by
    rw [relinkedAgain.outside node fresh, atNode, wellFormed.tail, or_none]
  refine ⟨⟨linked, list.head.or (some node), some node⟩, ?_, ⟨?_, ?_, ?_⟩, ?_⟩
  · simp only [listAppend, wrotePrev, wroteNext, wrote, some_bind, Option.pure_def]
  · rw [wellFormed.head]
    cases nodes with
    | nil | cons => rfl
  · rw [getLast?_concat]
  · exact segment_append.mpr ⟨before, ⟨cell.data, stillAtNode⟩, trivial⟩
  · intro address
    rw [relinkedAgain.data, relinked.data]

theorem listAppendleft_spec :
    ∃ after, listAppendleft list node = some after ∧ Result list after (node :: nodes) := by
  obtain ⟨cell, found⟩ := isSome_iff_exists.mp present
  obtain ⟨_, prepared, wrotePrev, wroteNext, atNode, relinked⟩ :=
    exists_prepared list.cells found none list.head
  have segment := wellFormed.links.frame relinked (WellFormed.apart fresh)
  obtain ⟨linked, wrote, behind, relinkedAgain⟩ :=
    segment.linkPrev wellFormed.links.nodup (some node)
  rw [← wellFormed.head] at wrote
  have stillAtNode : linked node = some ⟨nodes.head?.or none, none, cell.data⟩ := by
    rw [relinkedAgain.outside node fresh, atNode, wellFormed.head, or_none]
  refine ⟨⟨linked, some node, list.tail.or (some node)⟩, ?_,
    ⟨rfl, ?_, ⟨cell.data, stillAtNode⟩, behind⟩, ?_⟩
  · simp only [listAppendleft, wrotePrev, wroteNext, wrote, some_bind, Option.pure_def]
  · rw [wellFormed.tail]
    cases nodes with
    | nil => rfl
    | cons _ _ => simp [getLast?_cons]
  · intro address
    rw [relinkedAgain.data, relinked.data]

end

theorem listPop_empty (wellFormed : WellFormed list []) (out : Option Addr) :
    listPop list out = some (list, ⟨-1, out⟩) := by
  simp [listPop, wellFormed.tail]

theorem listPop_spec (wellFormed : WellFormed list (nodes ++ [node])) (out : Option Addr) :
    ∃ after, listPop list out = some (after, ⟨0, some node⟩) ∧ Result list after nodes := by
  have tail : list.tail = some node := by rw [wellFormed.tail, getLast?_concat]
  have distinct := wellFormed.links.nodup
  obtain ⟨before, ⟨data, found⟩, -⟩ := segment_append.mp wellFormed.links
  simp only [head?_nil, or_none] at found
  obtain ⟨linked, wrote, segment, relinked⟩ := before.linkNext distinct.of_append_left none
  refine ⟨⟨linked, if nodes.getLast? = none then none else list.head,
    nodes.getLast?⟩, ?_, ⟨?_, rfl, segment⟩, relinked.data⟩
  · simp only [listPop, tail, found, wrote, some_bind, Option.pure_def]
  · rw [wellFormed.head]
    cases nodes with
    | nil => rfl
    | cons _ _ => simp

theorem listPopleft_empty (wellFormed : WellFormed list []) (out : Option Addr) :
    listPopleft list out = some (list, ⟨-1, out⟩) := by
  simp [listPopleft, wellFormed.head]

theorem listPopleft_spec (wellFormed : WellFormed list (node :: nodes)) (out : Option Addr) :
    ∃ after, listPopleft list out = some (after, ⟨0, some node⟩) ∧ Result list after nodes := by
  have distinct := wellFormed.links.nodup
  obtain ⟨⟨data, found⟩, behind⟩ := wellFormed.links
  rw [or_none] at found
  obtain ⟨linked, wrote, segment, relinked⟩ := behind.linkPrev (nodup_cons.mp distinct).2 none
  refine ⟨⟨linked, nodes.head?, if nodes.head? = none then none else list.tail⟩, ?_,
    ⟨rfl, ?_, segment⟩, relinked.data⟩
  · simp only [listPopleft, wellFormed.head, head?_cons, found, wrote, some_bind, Option.pure_def]
  · rw [wellFormed.tail]
    cases nodes with
    | nil => rfl
    | cons _ _ => simp [getLast?_cons]

/-- Both pointers next to a removed node, written in the order of
`list_remove_node`. -/
theorem exists_unlinked (wellFormed : WellFormed list (first ++ node :: second)) :
    ∃ middle linked, list.cells.linkPrev second.head? first.getLast? = some middle ∧
      middle.linkNext first.getLast? second.head? = some linked ∧
      Segment linked none (first ++ second) none ∧
      Cells.Relinked (first ++ second) list.cells linked := by
  obtain ⟨other, linked, wroteNext, wrotePrev, segment, relinked⟩ :=
    wellFormed.links.unlink wellFormed.links.nodup
  simp only [or_none] at wroteNext wrotePrev
  have both := linkNext_linkPrev_comm list.cells first.getLast?
    second.head? second.head? first.getLast?
  rw [wroteNext, bind_some, wrotePrev] at both
  obtain ⟨middle, wrote, rest⟩ := bind_eq_some_iff.mp both
  exact ⟨middle, linked, wrote, rest, segment, relinked⟩

theorem listRemoveNode_spec (wellFormed : WellFormed list (first ++ node :: second)) :
    ∃ after, listRemoveNode list node = some after ∧ Result list after (first ++ second) := by
  obtain ⟨-, ⟨data, found⟩, -⟩ := segment_append.mp wellFormed.links
  simp only [or_none] at found
  obtain ⟨middle, linked, wrotePrev, wroteNext, segment, relinked⟩ := exists_unlinked wellFormed
  have head := wellFormed.head
  have tail := wellFormed.tail
  rcases eq_nil_or_concat first with rfl | ⟨rest, prev, rfl⟩
  · obtain rfl := some.inj wroteNext
    refine ⟨⟨middle, second.head?, if second.head? = none then none else list.tail⟩, ?_,
      ⟨rfl, ?_, segment⟩, relinked.data⟩
    · simp only [listRemoveNode, found, getLast?_nil, bind_eq_bind, bind_some]
      rw [getLast?_nil] at wrotePrev
      rw [wrotePrev]
      rfl
    · rw [tail]
      cases second with
      | nil => rfl
      | cons _ _ => simp [getLast?_cons]
  · rw [concat_eq_append] at *
    rw [getLast?_concat] at found wrotePrev wroteNext
    have sameHead : list.head = (rest ++ [prev] ++ second).head? := by
      rw [head]
      cases rest with
      | nil | cons => rfl
    cases second with
    | nil =>
      cases wrotePrev
      refine ⟨⟨linked, list.head, some prev⟩, ?_, ⟨sameHead, ?_, segment⟩, relinked.data⟩
      · simp only [listRemoveNode, found, head?_nil, bind_eq_bind, bind_some]
        have wrote : list.cells.setNext prev none = some linked := wroteNext
        rw [wrote]
        rfl
      · rw [append_nil, getLast?_concat]
    | cons next remaining =>
      refine ⟨⟨linked, list.head, list.tail⟩, ?_, ⟨sameHead, ?_, segment⟩, relinked.data⟩
      · simp only [listRemoveNode, found, head?_cons, bind_eq_bind, bind_some]
        simp only [head?_cons, linkPrev, linkNext] at wrotePrev wroteNext
        rw [wrotePrev, bind_some, wroteNext]
        rfl
      · rw [tail]
        simp [getLast?_append]

/-! ## Sequences of operations -/

/-- A call, with what `*node` is before a pop. -/
inductive Operation
  | append (node : Addr)
  | appendleft (node : Addr)
  | pop (out : Option Addr)
  | popleft (out : Option Addr)
  | removeNode (node : Addr)
deriving DecidableEq, Repr

/-- The calls of a sequence, with the results of the pops. -/
def perform (list : ListT Data) : Operation → Option (ListT Data × Option Popped)
  | .append node => (listAppend list node).map (·, none)
  | .appendleft node => (listAppendleft list node).map (·, none)
  | .pop out => (listPop list out).map fun (list, popped) => (list, some popped)
  | .popleft out => (listPopleft list out).map fun (list, popped) => (list, some popped)
  | .removeNode node => (listRemoveNode list node).map (·, none)

def performAll (list : ListT Data) : List Operation → Option (ListT Data × List (Option Popped))
  | [] => some (list, [])
  | operation :: rest => do
    let (list, popped) ← perform list operation
    let (list, others) ← performAll list rest
    return (list, popped :: others)

/-- A double-ended queue of nodes under the same operations. -/
def dequeStep (nodes : List Addr) : Operation → List Addr × Option Popped
  | .append node => (nodes ++ [node], none)
  | .appendleft node => (node :: nodes, none)
  | .pop out =>
    match nodes.getLast? with
    | none => (nodes, some ⟨-1, out⟩)
    | some last => (nodes.dropLast, some ⟨0, some last⟩)
  | .popleft out =>
    match nodes.head? with
    | none => (nodes, some ⟨-1, out⟩)
    | some first => (nodes.tail, some ⟨0, some first⟩)
  | .removeNode node => (nodes.erase node, none)

def dequeRun (nodes : List Addr) : List Operation → List Addr × List (Option Popped)
  | [] => (nodes, [])
  | operation :: rest =>
    let (nodes, popped) := dequeStep nodes operation
    let (nodes, others) := dequeRun nodes rest
    (nodes, popped :: others)

/-- A node that is linked is a node in memory that is not in the list, and a
node that is removed is in the list. -/
def Operation.Proper (cells : Cells Data) (nodes : List Addr) : Operation → Prop
  | .append node => node ∉ nodes ∧ (cells node).isSome = true
  | .appendleft node => node ∉ nodes ∧ (cells node).isSome = true
  | .removeNode node => node ∈ nodes
  | _ => True

def ProperRun (cells : Cells Data) : List Addr → List Operation → Prop
  | _, [] => True
  | nodes, operation :: rest =>
    operation.Proper cells nodes ∧ ProperRun cells (dequeStep nodes operation).1 rest

theorem perform_spec {operation : Operation} (wellFormed : WellFormed list nodes)
    (proper : operation.Proper list.cells nodes) :
    ∃ after, perform list operation = some (after, (dequeStep nodes operation).2) ∧
      Result list after (dequeStep nodes operation).1 := by
  cases operation with
  | append node =>
    obtain ⟨after, appended, result⟩ := listAppend_spec wellFormed proper.1 proper.2
    exact ⟨after, by rw [perform, appended]; rfl, result⟩
  | appendleft node =>
    obtain ⟨after, appended, result⟩ := listAppendleft_spec wellFormed proper.1 proper.2
    exact ⟨after, by rw [perform, appended]; rfl, result⟩
  | pop out =>
    rcases eq_nil_or_concat nodes with rfl | ⟨rest, last, rfl⟩
    · refine ⟨list, ?_, wellFormed, fun _ => rfl⟩
      rw [perform, listPop_empty wellFormed out]
      rfl
    · rw [concat_eq_append] at wellFormed ⊢
      obtain ⟨after, popped, result⟩ := listPop_spec wellFormed out
      refine ⟨after, ?_, ?_⟩
      · simp [perform, popped, dequeStep]
      · simpa [dequeStep] using result
  | popleft out =>
    cases nodes with
    | nil =>
      refine ⟨list, ?_, wellFormed, fun _ => rfl⟩
      rw [perform, listPopleft_empty wellFormed out]
      rfl
    | cons first rest =>
      obtain ⟨after, popped, result⟩ := listPopleft_spec wellFormed out
      exact ⟨after, by rw [perform, popped]; rfl, result⟩
  | removeNode node =>
    obtain ⟨first, second, split, notBefore⟩ := eq_append_cons_of_mem proper
    subst split
    obtain ⟨after, removed, result⟩ := listRemoveNode_spec wellFormed
    have erased : (first ++ node :: second).erase node = first ++ second := by
      rw [erase_append_right _ notBefore, erase_cons_head]
    refine ⟨after, by rw [perform, removed]; rfl, ?_⟩
    rw [dequeStep, erased]
    exact result

variable {operations : List Operation}

theorem ProperRun.congr {cells after : Cells Data}
    (data : ∀ address, after.dataAt address = cells.dataAt address)
    (proper : ProperRun cells nodes operations) : ProperRun after nodes operations := by
  induction operations generalizing nodes with
  | nil => trivial
  | cons operation rest ih =>
    refine ⟨?_, ih proper.2⟩
    have here := proper.1
    cases operation with
    | append node | appendleft node =>
      have same := congrArg isSome (data node)
      simp only [dataAt, isSome_map] at same
      exact ⟨here.1, same.trans here.2⟩
    | removeNode node => exact here
    | pop | popleft => trivial

theorem performAll_spec (wellFormed : WellFormed list nodes)
    (proper : ProperRun list.cells nodes operations) :
    ∃ after, performAll list operations = some (after, (dequeRun nodes operations).2) ∧
      WellFormed after (dequeRun nodes operations).1 := by
  induction operations generalizing list nodes with
  | nil => exact ⟨list, rfl, wellFormed⟩
  | cons operation rest ih =>
    obtain ⟨middle, performed, result⟩ := perform_spec wellFormed proper.1
    obtain ⟨after, remaining, final⟩ := ih result.wellFormed (proper.2.congr result.data)
    refine ⟨after, ?_, final⟩
    simp only [performAll, performed, remaining, some_bind, Option.pure_def]
    rfl

/-- A pop that fails exactly on the empty list, and then changes nothing. -/
def FailsOnlyWhenEmpty (pop : ListT Data → Option Addr → Option (ListT Data × Popped))
    (list : ListT Data) (nodes : List Addr) : Prop :=
  ∀ out, ∃ after popped, pop list out = some (after, popped) ∧ (popped.code = -1 ↔ nodes = []) ∧
    (nodes = [] → after = list ∧ popped.node = out)

theorem listPop_failsOnlyWhenEmpty (wellFormed : WellFormed list nodes) :
    FailsOnlyWhenEmpty listPop list nodes := by
  intro out
  rcases eq_nil_or_concat nodes with rfl | ⟨rest, last, rfl⟩
  · exact ⟨list, ⟨-1, out⟩, listPop_empty wellFormed out, by simp, by simp⟩
  · rw [concat_eq_append] at wellFormed ⊢
    obtain ⟨after, popped, -⟩ := listPop_spec wellFormed out
    exact ⟨after, ⟨0, some last⟩, popped, by simp, by simp⟩

theorem listPopleft_failsOnlyWhenEmpty (wellFormed : WellFormed list nodes) :
    FailsOnlyWhenEmpty listPopleft list nodes := by
  intro out
  cases nodes with
  | nil => exact ⟨list, ⟨-1, out⟩, listPopleft_empty wellFormed out, by simp, by simp⟩
  | cons first rest =>
    obtain ⟨after, popped, -⟩ := listPopleft_spec wellFormed out
    exact ⟨after, ⟨0, some first⟩, popped, by simp, by simp⟩

/-- The list is a double-ended queue of its nodes. -/
theorem list_refines_deque (list : ListT Data) (nodes : List Addr) (operations : List Operation)
    (wellFormed : WellFormed list nodes) (proper : ProperRun list.cells nodes operations) :
    ∃ after, performAll list operations = some (after, (dequeRun nodes operations).2) ∧
      WellFormed after (dequeRun nodes operations).1 ∧
      FailsOnlyWhenEmpty listPop after (dequeRun nodes operations).1 ∧
      FailsOnlyWhenEmpty listPopleft after (dequeRun nodes operations).1 := by
  obtain ⟨after, performed, final⟩ := performAll_spec wellFormed proper
  exact ⟨after, performed, final, listPop_failsOnlyWhenEmpty final,
    listPopleft_failsOnlyWhenEmpty final⟩

def threeNodes : Cells Unit :=
  fun address => if address < 3 then some ⟨none, none, ()⟩ else none

/-- Operations at both ends, in the middle, and on the empty list. -/
def mixedOperations : List Operation :=
  [.popleft none, .append 1, .append 2, .appendleft 0, .removeNode 1,
    .pop none, .popleft none, .pop (some 2), .append 1]

theorem list_refines_deque_mixedOperations :
    dequeRun [] mixedOperations = ([1], [some ⟨-1, none⟩, none, none, none, none,
        some ⟨0, some 2⟩, some ⟨0, some 0⟩, some ⟨-1, some 2⟩, none]) ∧
      ∃ after, performAll (listInit threeNodes) mixedOperations =
            some (after, (dequeRun [] mixedOperations).2) ∧
          WellFormed after (dequeRun [] mixedOperations).1 ∧
          FailsOnlyWhenEmpty listPop after (dequeRun [] mixedOperations).1 ∧
          FailsOnlyWhenEmpty listPopleft after (dequeRun [] mixedOperations).1 := ⟨by decide,
    list_refines_deque (listInit threeNodes) [] mixedOperations
      ⟨rfl, rfl, trivial⟩ (by simp [ProperRun, mixedOperations,
        Operation.Proper, dequeStep, threeNodes, listInit])⟩

end Skyc.Utils.LinkedList
