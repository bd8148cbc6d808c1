import Skyc.Lib.NextChain

/-!
# The singly linked list

The `slist` part of `list.c`.  Nodes belong to the caller, and the list is one
pointer to the first of them.  Every address of the model is a valid node;
the loops take fuel, because they do not end on a cyclic list.
-/

namespace Skyc.Utils.SinglyLinked

open Skyc.Lib Skyc.Lib.NextChain Function List Nat Option Path

abbrev Addr := ℕ

structure Slist where
  head : Option Addr
  next : Addr → Option Addr

/-! ## The functions of `list.c` -/

/-- `while (p && p->next) p = p->next;` from a node -/
def lastLoop (next : Addr → Option Addr) : ℕ → Addr → Option Addr
  | 0, _ => none
  | fuel + 1, p =>
    match next p with
    | none => some p
    | some following => lastLoop next fuel following

def slistAppend (fuel : ℕ) (list : Slist) (after : Option Addr) (node : Addr) : Option Slist :=
  match after.or list.head with
  | none => some { head := some node, next := update list.next node none }
  | some p => do
    let last ← lastLoop list.next fuel p
    some { list with
      next := update (update list.next last (some node)) node none }

def slistAppendleft (list : Slist) (node : Addr) : Slist where
  head := some node
  next := update list.next node list.head

/-- The loop of `slist_pop` over `n1` and `n2` -/
def popLoop (next : Addr → Option Addr) : ℕ → Addr → Option Addr → Option (Addr × Option Addr)
  | 0, _, _ => none
  | _ + 1, n1, none => some (n1, none)
  | fuel + 1, n1, some n2 =>
    match next n2 with
    | none => some (n1, some n2)
    | some following => do
      let n1 ← next n1
      popLoop next fuel n1 (some following)

/-- `slist_pop`: the value returned, `*node` and the list; `*node` is NULL
before the call. -/
def slistPop (fuel : ℕ) (list : Slist) (after : Option Addr) :
    Option (Int × Option Addr × Slist) := match list.head with
  | none => some (-1, none, list)
  | some head =>
    if list.next head = none then
      some (0, some head, { list with head := none })
    else do
      let start := after.getD head
      let (n1, n2) ← popLoop list.next fuel start (list.next start)
      some (0, n2, { list with next := update list.next n1 none })

def slistPopleft (list : Slist) : Int × Option Addr × Slist := match list.head with
  | none => (-1, none, list)
  | some head => (0, some head, { list with head := list.next head })

/-- The loop of `slist_remove_node` over `prev` and `cur` -/
def removeLoop (next : Addr → Option Addr) (node : Addr) :
    ℕ → Option Addr → Option Addr → Option (Option Addr × Option Addr)
  | 0, _, _ => none
  | _ + 1, prev, none => some (prev, none)
  | fuel + 1, prev, some cur =>
    if cur = node then some (prev, some cur) else removeLoop next node fuel (some cur) (next cur)

def slistRemoveNode (fuel : ℕ) (list : Slist) (node : Addr) : Option (Int × Slist) := do
  match ← removeLoop list.next node fuel none list.head with
  | (_, none) => some (-1, list)
  | (none, some cur) => some (0, { list with head := list.next cur })
  | (some prev, some cur) => some (0, { list with next := update list.next prev (list.next cur) })

def slistInsertNode (list : Slist) : Option Addr → Addr → Slist
  | none, newNode => slistAppendleft list newNode
  | some after, newNode =>
    { list with
      next := update (update list.next newNode (list.next after)) after (some newNode) }

/-! ## The sequence model -/

inductive Operation
  | append (after : Option Addr) (node : Addr)
  | appendleft (node : Addr)
  | pop (after : Option Addr)
  | popleft
  | insertNode (after : Option Addr) (node : Addr)
  | removeNode (node : Addr)

/-- The value returned, if any, the node returned and the list. -/
def perform (fuel : ℕ) (list : Slist) : Operation → Option (Option Int × Option Addr × Slist)
  | .append after node => (slistAppend fuel list after node).map fun result => (none, none, result)
  | .appendleft node => some (none, none, slistAppendleft list node)
  | .pop after => (slistPop fuel list after).map fun result => (some result.1, result.2)
  | .popleft => some (some (slistPopleft list).1, (slistPopleft list).2)
  | .insertNode after node => some (none, none, slistInsertNode list after node)
  | .removeNode node =>
    (slistRemoveNode fuel list node).map fun result => (some result.1, none, result.2)

/-- The same on a sequence of nodes. -/
def Operation.onSequence (nodes : List Addr) : Operation → Option Int × Option Addr × List Addr
  | .append _ node => (none, none, nodes ++ [node])
  | .appendleft node | .insertNode none node => (none, none, node :: nodes)
  | .pop _ => (some (if nodes = [] then -1 else 0), nodes.getLast?, nodes.dropLast)
  | .popleft => (some (if nodes = [] then -1 else 0), nodes.head?, nodes.tail)
  | .insertNode (some after) node =>
    (none, none, nodes.flatMap fun other => if other = after then [other, node] else [other])
  | .removeNode node => (some (if node ∈ nodes then 0 else -1), none, nodes.erase node)

/-- The `after` argument is NULL or a node of the list. -/
def Operation.Within (nodes : List Addr) : Operation → Prop
  | .append after _ | .pop after | .insertNode after _ => ∀ address ∈ after, address ∈ nodes
  | .appendleft _ | .popleft | .removeNode _ => True

/-- A node that is put in is not in the list yet, and `slist_pop` does not
start at the last of several nodes. -/
def Operation.Kept (nodes : List Addr) : Operation → Prop
  | .append _ node | .appendleft node | .insertNode _ node => node ∉ nodes
  | .pop after => 2 ≤ nodes.length → after = none ∨ after ≠ nodes.getLast?
  | .popleft | .removeNode _ => True

/-- The list is acyclic and has these nodes. -/
def Represents (list : Slist) (nodes : List Addr) : Prop := Path list.next list.head nodes none

/-- A call returns what it does on the sequence and leaves a list with the
nodes the sequence then has; no loop turns more often than there are nodes. -/
def Performs (list : Slist) (nodes : List Addr) (operation : Operation) (result : Slist) : Prop :=
  perform (nodes.length + 1) list operation =
      some ((operation.onSequence nodes).1, (operation.onSequence nodes).2.1, result) ∧
    Represents result (operation.onSequence nodes).2.2

def Follows : Slist → List Addr → List Operation → Prop
  | _, _, [] => True
  | list, nodes, operation :: rest =>
    ∃ result, Performs list nodes operation result ∧
      Follows result (operation.onSequence nodes).2.2 rest

/-- A condition on the operations and the sequences they find. -/
def EachOf (condition : List Addr → Operation → Prop) : List Addr → List Operation → Prop
  | _, [] => True
  | nodes, operation :: rest =>
    condition nodes operation ∧ EachOf condition (operation.onSequence nodes).2.2 rest

/-! ## The loops -/

section Loops

variable {next : Addr → Option Addr} {nodes front back : List Addr} {p prev last node : Addr}
  {start finish : Option Addr} {fuel : ℕ}

theorem exists_start (path : Path next start nodes finish) (notEmpty : nodes ≠ []) :
    ∃ first ∈ nodes, start = some first := by
  cases nodes with
  | nil => exact absurd rfl notEmpty
  | cons first rest => exact ⟨first, mem_cons_self, path.1⟩

theorem lastLoop_spec (path : Path next start (front ++ [last]) none) (member : p ∈ front ++ [last])
    (enough : front.length < fuel) : lastLoop next fuel p = some last := by
  induction front generalizing start p fuel with
  | nil =>
    obtain ⟨fuel, rfl⟩ := exists_eq_add_one_of_ne_zero (ne_zero_of_lt enough)
    have isLast : next last = none := path.2
    rw [mem_singleton.mp member, lastLoop, isLast]
  | cons address rest ih =>
    rcases mem_cons.mp member with rfl | behind
    · obtain ⟨fuel, rfl⟩ := exists_eq_add_one_of_ne_zero (ne_zero_of_lt enough)
      obtain ⟨following, inRest, isNext⟩ := exists_start path.2 (by simp)
      rw [lastLoop, isNext]
      exact ih path.2 inRest (lt_of_succ_lt_succ enough)
    · exact ih path.2 behind (lt_of_succ_lt enough)

theorem popLoop_spec (path : Path next start (front ++ [prev]) (some last))
    (isLast : next last = none) (member : p ∈ front ++ [prev]) (enough : front.length < fuel) :
    popLoop next fuel p (next p) = some (prev, some last) := by
  induction front generalizing start p fuel with
  | nil =>
    obtain ⟨fuel, rfl⟩ := exists_eq_add_one_of_ne_zero (ne_zero_of_lt enough)
    have isNext : next prev = some last := path.2
    rw [mem_singleton.mp member, isNext, popLoop, isLast]
  | cons address rest ih =>
    rcases mem_cons.mp member with rfl | behind
    · obtain ⟨fuel, rfl⟩ := exists_eq_add_one_of_ne_zero (ne_zero_of_lt enough)
      obtain ⟨second, inRest, isNext⟩ := exists_start path.2 (by simp)
      have turn := ih path.2 inRest (lt_of_succ_lt_succ enough)
      rw [isNext, popLoop]
      cases isThird : next second with
      | none =>
        rw [isThird] at turn
        cases fuel with
        | _ => cases turn
      | some third =>
        rw [isThird] at turn
        simpa only [isNext, some_bind] using turn
    · exact ih path.2 behind (lt_of_succ_lt enough)

theorem removeLoop_found (prev : Option Addr) (path : Path next start (front ++ node :: back) none)
    (first : node ∉ front) (enough : front.length < fuel) :
    removeLoop next node fuel prev start = some (front.getLast?.or prev, some node) := by
  induction front generalizing start prev fuel with
  | nil =>
    obtain ⟨fuel, rfl⟩ := exists_eq_add_one_of_ne_zero (ne_zero_of_lt enough)
    cases path.1
    simp only [removeLoop, if_true, getLast?_nil, none_or]
  | cons address rest ih =>
    obtain ⟨fuel, rfl⟩ := exists_eq_add_one_of_ne_zero (ne_zero_of_lt enough)
    obtain ⟨apart, notRest⟩ := not_or.mp (mt mem_cons.mpr first)
    cases path.1
    simp only [removeLoop, if_neg (Ne.symm apart)]
    rw [ih _ path.2 notRest (lt_of_succ_lt_succ enough), getLast?_cons]
    cases rest.getLast? with
    | _ => rfl

theorem removeLoop_absent (prev : Option Addr) (path : Path next start nodes none)
    (absent : node ∉ nodes) (enough : nodes.length < fuel) :
    ∃ last, removeLoop next node fuel prev start = some (last, none) := by
  induction nodes generalizing start prev fuel with
  | nil =>
    obtain ⟨fuel, rfl⟩ := exists_eq_add_one_of_ne_zero (ne_zero_of_lt enough)
    cases path
    exact ⟨prev, rfl⟩
  | cons address rest ih =>
    obtain ⟨fuel, rfl⟩ := exists_eq_add_one_of_ne_zero (ne_zero_of_lt enough)
    obtain ⟨apart, notRest⟩ := not_or.mp (mt mem_cons.mpr absent)
    cases path.1
    simp only [removeLoop, if_neg (Ne.symm apart)]
    exact ih _ path.2 notRest (lt_of_succ_lt_succ enough)

end Loops

/-! ## One operation -/

section Step

variable {list : Slist} {nodes front back : List Addr} {after : Option Addr} {node other : Addr}

theorem append_spec (rep : Represents list nodes)
    (within : ∀ address ∈ after, address ∈ nodes) (new : node ∉ nodes) :
    ∃ result, slistAppend (nodes.length + 1) list after node = some result ∧
      Represents result (nodes ++ [node]) := by
  by_cases empty : nodes = []
  · subst empty
    have noAfter : after = none := eq_none_iff_forall_not_mem.mpr
      fun address member => not_mem_nil (within address member)
    have noHead : list.head = none := rep
    refine ⟨_, by rw [slistAppend, noAfter, noHead, or_none], rfl, ?_⟩
    exact update_self ..
  · obtain ⟨before, last, rfl⟩ := (eq_nil_or_concat' nodes).resolve_left empty
    obtain ⟨p, member, isStart⟩ : ∃ p ∈ before ++ [last], after.or list.head = some p := by
      cases after with
      | none => exact exists_start rep empty
      | some address => exact ⟨address, within address rfl, rfl⟩
    have found := lastLoop_spec rep member
      (lt_succ_of_le (sublist_append_left before [last]).length_le)
    refine ⟨{ list with
      next := update (update list.next last (some node)) node none }, ?_, ?_⟩
    · simp only [slistAppend, isStart, found, some_bind]
    · have apart : node ≠ last := by
        rintro rfl
        exact new (by simp)
      have inserted := insertAfter rep new
      rw [next_last rep, update_comm apart] at inserted
      rw [append_assoc]
      exact inserted

theorem appendleft_spec (rep : Represents list nodes) (new : node ∉ nodes) :
    Represents (slistAppendleft list node) (node :: nodes) := by
  refine ⟨rfl, ?_⟩
  simp only [slistAppendleft, update_self]
  exact rep.update_of_notMem new _

theorem pop_spec (rep : Represents list nodes) (within : ∀ address ∈ after, address ∈ nodes)
    (kept : 2 ≤ nodes.length → after = none ∨ after ≠ nodes.getLast?) :
    ∃ result, slistPop (nodes.length + 1) list after =
        some (if nodes = [] then -1 else 0, nodes.getLast?, result) ∧
      Represents result nodes.dropLast := by
  rcases eq_nil_or_concat' nodes with rfl | ⟨others, last, rfl⟩
  · have noHead : list.head = none := rep
    exact ⟨list, by simp [slistPop, noHead], noHead⟩
  · have isLast := next_last rep
    rw [getLast?_concat, dropLast_concat]
    rcases eq_nil_or_concat' others with rfl | ⟨before, prev, rfl⟩
    · exact ⟨{ list with head := none }, by simp [slistPop, rep.1, isLast], rfl⟩
    · obtain ⟨_, path, rfl, _⟩ := path_append.mp rep
      have found : ∀ p ∈ before ++ [prev],
          popLoop list.next ((before ++ [prev] ++ [last]).length + 1) p (list.next p) =
            some (prev, some last) := fun p member =>
        popLoop_spec path isLast member (by rw [length_append, length_append]; omega)
      obtain ⟨first, inFront, isHead⟩ := exists_start path (by simp)
      have isNext : list.next first ≠ none := by
        intro isNone
        have impossible := found first inFront
        rw [isNone] at impossible
        cases impossible
      have member : after.getD first ∈ before ++ [prev] := by
        cases after with
        | none => exact inFront
        | some address =>
          have notLast := (kept (by simp)).resolve_left nofun
          rw [getLast?_concat] at notLast
          rcases mem_append.mp (within address rfl) with inside | isLast
          · exact inside
          · exact absurd (congrArg some (mem_singleton.mp isLast)) notLast
      refine ⟨{ list with next := update list.next prev none }, ?_, ?_⟩
      · simp only [slistPop, isHead, if_neg isNext, found _ member, some_bind]
        simp
      · rw [append_assoc] at rep
        have removed := removeAfter rep
        rwa [isLast] at removed

theorem flatMap_eq_of_notMem (absent : other ∉ nodes) :
    (nodes.flatMap fun address => if address = other then [address, node] else [address]) =
      nodes := by
  induction nodes with
  | nil => rfl
  | cons address rest ih =>
    obtain ⟨apart, notRest⟩ := not_or.mp (mt mem_cons.mpr absent)
    rw [flatMap_cons, ih notRest, if_neg (Ne.symm apart)]
    rfl

section

variable (rep : Represents list nodes)
include rep

theorem exists_inserted (member : other ∈ nodes) (node : Addr) :
    ∃ front back, nodes = front ++ other :: back ∧
      (nodes.flatMap fun address => if address = other then [address, node] else [address]) =
        front ++ other :: node :: back := by
  obtain ⟨front, back, rfl⟩ := append_of_mem member
  obtain ⟨notBefore, notBehind⟩ := apart rep
  refine ⟨front, back, rfl, ?_⟩
  rw [flatMap_append, flatMap_cons, flatMap_eq_of_notMem notBefore,
    flatMap_eq_of_notMem notBehind, if_pos rfl]
  rfl

theorem removeNode_spec :
    ∃ result, slistRemoveNode (nodes.length + 1) list node =
        some (if node ∈ nodes then 0 else -1, result) ∧
      Represents result (nodes.erase node) := by
  by_cases member : node ∈ nodes
  · obtain ⟨front, back, rfl⟩ := append_of_mem member
    obtain ⟨notBefore, -⟩ := apart rep
    have shorter : front.length < (front ++ node :: back).length + 1 := by
      rw [length_append]
      omega
    have found := removeLoop_found none rep notBefore shorter
    rw [if_pos member, erase_append_right _ notBefore, erase_cons_head]
    rcases eq_nil_or_concat' front with rfl | ⟨before, prev, rfl⟩
    · refine ⟨{ list with head := list.next node }, ?_, rep.2⟩
      simp only [slistRemoveNode, found, some_bind, getLast?_nil, or_none]
    · refine ⟨{ list with next := update list.next prev (list.next node) }, ?_, ?_⟩
      · simp only [slistRemoveNode, found, some_bind, getLast?_concat, some_or]
      · rw [append_assoc] at rep ⊢
        exact removeAfter rep
  · obtain ⟨last, ended⟩ := removeLoop_absent none rep member (lt_succ_self nodes.length)
    rw [if_neg member, erase_of_not_mem member]
    refine ⟨list, ?_, rep⟩
    simp only [slistRemoveNode, ended, some_bind]

theorem perform_spec {operation : Operation}
    (within : operation.Within nodes) (kept : operation.Kept nodes) :
    ∃ result, Performs list nodes operation result := by
  cases operation with
  | append after node =>
    obtain ⟨result, appended, rep'⟩ := append_spec rep within kept
    exact ⟨result, by rw [perform, appended]; rfl, rep'⟩
  | appendleft node => exact ⟨_, rfl, appendleft_spec rep kept⟩
  | pop after =>
    obtain ⟨result, popped, rep'⟩ := pop_spec rep within kept
    exact ⟨result, by rw [perform, popped]; rfl, rep'⟩
  | popleft =>
    cases nodes with
    | nil =>
      have noHead : list.head = none := rep
      refine ⟨list, ?_, rep⟩
      simp only [perform, slistPopleft, noHead]
      rfl
    | cons first rest =>
      obtain ⟨isHead, onward⟩ := rep
      refine ⟨{ list with head := list.next first }, ?_, onward⟩
      simp only [perform, slistPopleft, isHead]
      rfl
  | insertNode after node =>
    cases after with
    | none => exact ⟨_, rfl, appendleft_spec rep kept⟩
    | some after =>
      obtain ⟨front, back, rfl, inserted⟩ := exists_inserted rep (within after rfl) node
      refine ⟨_, rfl, ?_⟩
      rw [Operation.onSequence, inserted]
      exact insertAfter rep kept
  | removeNode node =>
    obtain ⟨result, removed, rep'⟩ := removeNode_spec rep
    exact ⟨result, by rw [perform, removed]; rfl, rep'⟩

/-- A list with a node twice is no path, and a `slist_pop` that starts at the
last node returns no node. -/
theorem kept_of_performs {operation : Operation} {result : Slist} (within : operation.Within nodes)
    (performs : Performs list nodes operation result) :
    operation.Kept nodes := by
  obtain ⟨performed, rep'⟩ := performs
  have nodup := nodup rep'
  cases operation with
  | append after node =>
    have new := (nodup_cons.mp (nodup_middle.mp nodup)).1
    rwa [append_nil] at new
  | appendleft node => exact (nodup_cons.mp nodup).1
  | pop after =>
    intro several
    by_contra lastOnly
    obtain ⟨isSome, isLast⟩ := not_or.mp lastOnly
    match nodes with
    | first :: second :: rest =>
      obtain ⟨before, last, isSplit⟩ :=
        (eq_nil_or_concat' (first :: second :: rest)).resolve_left nofun
      rw [isSplit, getLast?_concat, ne_eq, not_not] at isLast
      subst isLast
      have isHead := rep.1
      have isNext : list.next first ≠ none := by simp [rep.2.1]
      rw [isSplit] at rep
      simp [perform, slistPop, isHead, isNext, next_last rep, popLoop,
        Operation.onSequence, getLast?_cons] at performed
  | popleft | removeNode node => exact trivial
  | insertNode after node =>
    cases after with
    | none => exact (nodup_cons.mp nodup).1
    | some after =>
      obtain ⟨front, back, rfl, inserted⟩ := exists_inserted rep (within after rfl) node
      rw [Operation.onSequence, inserted, append_cons] at nodup
      have new := (nodup_cons.mp (nodup_middle.mp nodup)).1
      rwa [← append_cons] at new

end

end Step

/-- The list follows the sequence exactly as long as no node is put in twice
and `slist_pop` is not told to start at the last of several nodes: then it
returns 0 without a node, and removes nothing. -/
theorem follows_iff_kept (list : Slist) (nodes : List Addr) (acyclic : Represents list nodes)
    (operations : List Operation) (within : EachOf Operation.Within nodes operations) :
    Follows list nodes operations ↔ EachOf Operation.Kept nodes operations := by
  induction operations generalizing list nodes with
  | nil => exact Iff.rfl
  | cons operation rest ih =>
    constructor
    · rintro ⟨result, performs, follows⟩
      exact ⟨kept_of_performs acyclic within.1 performs,
        (ih result _ performs.2 within.2).mp follows⟩
    · rintro ⟨kept, keptRest⟩
      obtain ⟨result, performs⟩ := perform_spec acyclic within.1 kept
      exact ⟨result, performs, (ih result _ performs.2 within.2).mpr keptRest⟩

/-- Two nodes are appended and one is popped. -/
theorem follows_iff_kept_threeCalls :
    Follows ⟨none, fun _ => none⟩ [] [.append none 1, .append (some 1) 2, .pop (some 1)] ↔
      EachOf Operation.Kept [] [.append none 1, .append (some 1) 2, .pop (some 1)] :=
  follows_iff_kept ⟨none, fun _ => none⟩ [] rfl _
    (by simp [EachOf, Operation.Within, Operation.onSequence])

/-- The list of the nodes 1 and 2, and a `slist_pop` after node 2. -/
theorem pop_after_last :
    Represents ⟨some 1, update (fun _ => none) 1 (some 2)⟩ [1, 2] ∧
      (∃ result, slistPop 3 ⟨some 1, update (fun _ => none) 1 (some 2)⟩ (some 2) =
        some (0, none, result) ∧ Represents result [1, 2]) ∧
      ¬Follows ⟨some 1, update (fun _ => none) 1 (some 2)⟩ [1, 2] [.pop (some 2)] := by
  refine ⟨⟨rfl, rfl, rfl⟩, ⟨_, rfl, rfl, rfl, rfl⟩, ?_⟩
  rintro ⟨result, ⟨performed, -⟩, -⟩
  cases performed

end Skyc.Utils.SinglyLinked
