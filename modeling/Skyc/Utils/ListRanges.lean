import Skyc.Utils.LinkedList

/-!
# Ranges of a doubly linked list

The functions of `list.c` that put nodes behind a given node, remove a range
of nodes, and test that two nodes are the ends of a linked range.  The loops
are bounded by `fuel`.
-/

namespace Skyc.Utils.LinkedList

open Skyc.Lib List Option Nat

variable {Data : Type}

/-! ## The functions -/

/-- The loop of `list_find_node`. -/
def listFindNode (cells : Cells Data) (node : Addr) : ℕ → Option Addr → Option (Option Addr)
  | 0, _ => none
  | _ + 1, none => some none
  | fuel + 1, some p =>
    if p = node then
      some (some p)
    else do
      let cell ← cells p
      listFindNode cells node fuel cell.next

/-- The loop of `list_check_links` with the `return` behind it. -/
def checkLoop (cells : Cells Data) :
    ℕ → Option Addr → Option Addr → Option Addr → Option Addr → Option Bool
  | 0, _, _, _, _ => none
  | fuel + 1, some p1, some p2, p1Prev, p2Next =>
    if p1 = p2 then
      some true
    else do
      let first ← cells p1
      let second ← cells p2
      if first.next ≠ second.prev ∧ first.prev = p1Prev ∧ second.next = p2Next then
        checkLoop cells fuel first.next second.prev (some p1) (some p2)
      else
        some (decide (first.next = second.prev))
  | _ + 1, _, _, _, _ => some false

def listCheckLinks (cells : Cells Data) (fuel : ℕ) : Option Addr → Option Addr → Option Bool
  | some p1, some p2 =>
    if p1 = p2 then
      some true
    else do
      let first ← cells p1
      let second ← cells p2
      checkLoop cells fuel (some p1) (some p2) first.prev second.next
  | _, _ => some false

/-- `list_remove_nodes` behind its two tests. -/
def removeRange (list : ListT Data) (start stop : Addr) : Option (ListT Data) := do
  let first ← list.cells start
  let last ← list.cells stop
  match first.prev, last.next with
  | none, next =>
    let cells ← list.cells.linkPrev next none
    return { list with cells, head := next }
  | some prev, none =>
    let cells ← list.cells.setNext prev none
    return { list with cells, tail := some prev }
  | some prev, some next =>
    let cells ← list.cells.setNext prev (some next)
    let cells ← cells.setPrev next (some prev)
    return { list with cells }

def listRemoveNodes (fuel : ℕ) (list : ListT Data) (start stop : Addr) :
    Option (ListT Data × Int) := do
  let found ← listFindNode list.cells start fuel list.head
  if found = none then
    return (list, -1)
  else
    let linked ← listCheckLinks list.cells fuel (some start) (some stop)
    if linked = true then
      let after ← removeRange list start stop
      return (after, 0)
    else
      return (list, -1)

/-- The last three writes of `list_insert_node`. -/
def placeNode (list : ListT Data) (after next : Option Addr)
    (newNode : Addr) : Option (ListT Data) := do
  let cells ← list.cells.setPrev newNode after
  let cells ← cells.setNext newNode next
  let cells ← cells.setPrev (← next) (some newNode)
  return { list with cells }

def listInsertNode (list : ListT Data) (after : Option Addr)
    (newNode : Addr) : Option (ListT Data) :=
  match after with
  | none => placeNode { list with head := some newNode } none list.head newNode
  | some node => do
    let cell ← list.cells node
    let cells ← list.cells.setNext node (some newNode)
    placeNode { list with cells } (some node) cell.next newNode

/-- `list_insert_nodes` behind its test. -/
def insertRange (list : ListT Data) (after : Option Addr)
    (start stop : Addr) : Option (ListT Data) :=
  match list.head, after with
  | none, _ => some { list with head := some start, tail := some stop }
  | some head, none => do
    let cells ← list.cells.setNext stop (some head)
    let cells ← cells.setPrev start none
    return { list with cells, head := some start }
  | some _, some node => do
    let cell ← list.cells node
    let cells ← list.cells.setNext node (some start)
    let cells ← cells.setPrev start (some node)
    let cells ← cells.setNext stop cell.next
    let cells ← cells.linkPrev cell.next (some stop)
    return { list with
      cells, tail := if cell.next = none then some stop
        else list.tail }

def listInsertNodes (fuel : ℕ) (list : ListT Data) (after : Option Addr)
    (start stop : Addr) : Option (ListT Data × Int) := do
  let linked ← listCheckLinks list.cells fuel (some start) (some stop)
  if linked = true then
    let result ← insertRange list after start stop
    return (result, 0)
  else
    return (list, -1)

variable {cells : Cells Data} {list : ListT Data}
  {nodes first second chain range : List Addr} {a b start stop : Addr}
  {after : Option Addr} {i j k fuel : ℕ}

/-! ## Testing the links -/

def before (nodes : List Addr) : ℕ → Option Addr
  | 0 => none
  | i + 1 => nodes[i]?

/-- The two nodes at a distance, of which the second one is in front of
position `k`, are found to be linked. -/
def Accepted (n i k : ℕ) : Prop :=
  i < k ∧ (k - i) % 2 = 1 ∨ i + k = n ∧ 0 < k

instance (n i k : ℕ) : Decidable (Accepted n i k) :=
  inferInstanceAs (Decidable (_ ∨ _))

theorem cell_at (segment : Segment cells none nodes none) (atI : nodes[i]? = some a) :
    ∃ data, cells a = some ⟨nodes[i + 1]?, before nodes i, data⟩ := by
  obtain ⟨below, rfl⟩ := List.getElem?_eq_some_iff.mp atI
  have split : nodes.take i ++ nodes[i] :: nodes.drop (i + 1) = nodes := by simp
  have whole : Segment cells none (nodes.take i ++ nodes[i] :: nodes.drop (i + 1)) none := by
    rw [split]
    exact segment
  obtain ⟨data, found⟩ := whole.cell
  refine ⟨data, ?_⟩
  rw [found, head?_drop, getLast?_take]
  cases i with
  | zero => rfl
  | succ i => simp [before, lt_of_succ_lt below]

/-- Where the two pointers meet between them, or at the ends of the list. -/
theorem next_eq_before_iff (distinct : nodes.Nodup) (iBelow : i < nodes.length)
    (jBelow : j < nodes.length) :
    nodes[i + 1]? = before nodes j ↔ i + 2 = j ∨ i + 1 = nodes.length ∧ j = 0 := by
  cases j with
  | zero =>
    simp only [before, getElem?_eq_none_iff, and_true]
    omega
  | succ j =>
    have same := @getElem?_inj _ j (i + 1) _ (lt_of_succ_lt jBelow) distinct
    rw [before, eq_comm, same]
    omega

theorem checkLoop_spec (segment : Segment cells none nodes none)
    (iBound : i ≤ nodes.length) (kBound : k ≤ nodes.length) (enough : nodes.length < fuel + i) :
    checkLoop cells fuel nodes[i]? (before nodes k) (before nodes i)
      nodes[k]? = some (decide (Accepted nodes.length i k)) := by
  induction fuel generalizing i k with
  | zero => omega
  | succ fuel ih =>
    rcases eq_or_lt_of_le iBound with isEnd | iBelow
    · rw [getElem?_eq_none isEnd.symm.le, checkLoop]
      · have rejected : ¬ Accepted nodes.length i k := by
          simp only [Accepted]
          omega
        rw [decide_eq_false rejected]
      · exact nofun
    · cases k with
      | zero =>
        rw [before, checkLoop]
        · have rejected : ¬ Accepted nodes.length i 0 := by
            simp only [Accepted]
            omega
          rw [decide_eq_false rejected]
        · exact nofun
      | succ j =>
        have jBelow : j < nodes.length := kBound
        have atI := getElem?_eq_getElem iBelow
        have atJ := getElem?_eq_getElem jBelow
        obtain ⟨firstData, foundFirst⟩ := cell_at segment atI
        obtain ⟨secondData, foundSecond⟩ := cell_at segment atJ
        have meets := next_eq_before_iff segment.nodup iBelow jBelow
        rw [before, atI, atJ, checkLoop]
        by_cases same : nodes[i] = nodes[j]
        · have equal := segment.nodup.getElem_inj_iff.mp same
          have accepted : Accepted nodes.length i (j + 1) := by
            simp only [Accepted]
            omega
          rw [if_pos same, decide_eq_true accepted]
        · have different : i ≠ j := fun equal => same (segment.nodup.getElem_inj_iff.mpr equal)
          simp only [if_neg same, foundFirst, foundSecond, some_bind, and_true]
          by_cases met : nodes[i + 1]? = before nodes j
          · have accepted : Accepted nodes.length i (j + 1) := by
              have ends := meets.mp met
              simp only [Accepted]
              omega
            rw [if_neg (not_not.mpr met), decide_eq_true met, decide_eq_true accepted]
          · have apart := mt meets.mpr met
            have further := ih (i := i + 1) (k := j) iBelow jBelow.le (by omega)
            rw [before, atI, atJ] at further
            rw [if_pos met, further]
            congr 2
            simp only [Accepted]
            apply propext
            omega

/-- What `list_check_links` answers for two nodes of a list. -/
theorem listCheckLinks_eq (segment : Segment cells none nodes none)
    (atI : nodes[i]? = some a) (atJ : nodes[j]? = some b) (enough : nodes.length < fuel) :
    listCheckLinks cells fuel (some a) (some b) =
      some (decide (Accepted nodes.length i (j + 1))) := by
  obtain ⟨iBelow, isA⟩ := List.getElem?_eq_some_iff.mp atI
  obtain ⟨jBelow, isB⟩ := List.getElem?_eq_some_iff.mp atJ
  obtain ⟨firstData, foundFirst⟩ := cell_at segment atI
  obtain ⟨secondData, foundSecond⟩ := cell_at segment atJ
  rw [listCheckLinks]
  by_cases same : a = b
  · have equal : i = j := by
      rw [← isA, ← isB] at same
      exact segment.nodup.getElem_inj_iff.mp same
    have accepted : Accepted nodes.length i (j + 1) := by
      simp only [Accepted]
      omega
    rw [if_pos same, decide_eq_true accepted]
  · have looped := checkLoop_spec segment iBelow.le jBelow (Nat.lt_add_right i enough)
    rw [before, atI, atJ] at looped
    simp only [if_neg same, foundFirst, foundSecond, some_bind]
    exact looped

/-- The nodes for which the answer is right: an even distance, or as many
nodes before the range as behind it; and two nodes in the wrong order that
are not at the same distance from the two ends. -/
def RightlyTold (n i j : ℕ) : Prop :=
  i ≤ j ∧ ((j - i) % 2 = 0 ∨ i + j + 1 = n) ∨ j < i ∧ i + j + 1 ≠ n

/-- `list_check_links` returns, and its answer is right exactly under
`RightlyTold`. -/
theorem listCheckLinks_right_iff (list : ListT Data) (nodes : List Addr)
    (i j : ℕ) (a b : Addr) (fuel : ℕ) (wellFormed : WellFormed list nodes)
    (atI : nodes[i]? = some a) (atJ : nodes[j]? = some b) (enough : nodes.length < fuel) :
    ∃ answer, listCheckLinks list.cells fuel (some a) (some b) = some answer ∧
      ((answer = true ↔ i ≤ j) ↔ RightlyTold nodes.length i j) := by
  refine ⟨_, listCheckLinks_eq wellFormed.links atI atJ enough, ?_⟩
  rw [decide_eq_true_iff, RightlyTold, Accepted]
  omega

/-- The nodes `0` to `n - 1` linked in their order, and a node `n` for
itself. -/
def row (n : ℕ) : Cells Unit := fun address =>
  if address < n then
    some ⟨if address + 1 < n then some (address + 1) else none,
      if address = 0 then none else some (address - 1), ()⟩
  else if address = n then
    some ⟨none, none, ()⟩
  else
    none

theorem wellFormed_three : WellFormed ⟨row 3, some 0, some 2⟩ [0, 1, 2] :=
  ⟨rfl, rfl, ⟨(), rfl⟩, ⟨(), rfl⟩, ⟨(), rfl⟩, trivial⟩

theorem listCheckLinks_right_iff_ends :
    RightlyTold 3 0 2 ∧ ∃ answer, listCheckLinks (row 3) 4 (some 0) (some 2) = some answer ∧
      ((answer = true ↔ 0 ≤ 2) ↔ RightlyTold 3 0 2) := ⟨by simp [RightlyTold],
    listCheckLinks_right_iff _ [0, 1, 2] 0 2 0 2 4 wellFormed_three rfl rfl (by decide)⟩

/-- The first two of three nodes are linked, and the answer is `false`. -/
theorem listCheckLinks_neighbours :
    listCheckLinks (row 3) 4 (some 0) (some 1) = some false := by
  decide

/-! ## Removing a range -/

theorem listFindNode_spec {previous : Option Addr} (segment : Segment cells previous nodes none)
    (enough : nodes.length < fuel) :
    listFindNode cells a fuel nodes.head? = some (if a ∈ nodes then some a else none) := by
  induction nodes generalizing previous fuel with
  | nil =>
    cases fuel with
    | zero => cases enough
    | succ fuel => rfl
  | cons p rest ih =>
    cases fuel with
    | zero => cases enough
    | succ fuel =>
      obtain ⟨⟨data, found⟩, remaining⟩ := segment
      have further := ih remaining (lt_of_succ_lt_succ enough)
      rw [head?_cons, listFindNode]
      by_cases same : p = a
      · rw [if_pos same, if_pos (same ▸ mem_cons_self), same]
      · rw [if_neg same, found, some_bind, or_none, further]
        simp only [mem_cons, Ne.symm same, false_or]

theorem range_ends (links : Segment cells none (first ++ (range ++ second)) none)
    (isStart : range.head? = some start) (isStop : range.getLast? = some stop) :
    (∃ cell, cells start = some cell ∧ cell.prev = first.getLast?) ∧
      ∃ cell, cells stop = some cell ∧ cell.next = second.head? := by
  constructor
  · obtain ⟨rest, rfl⟩ := head?_eq_some_iff.mp isStart
    obtain ⟨data, found⟩ := links.cell
    exact ⟨_, found, rfl⟩
  · obtain ⟨rest, rfl⟩ := getLast?_eq_some_iff.mp isStop
    have last : Segment cells none ((first ++ rest) ++ stop :: second) none := by simpa using links
    obtain ⟨data, found⟩ := last.cell
    exact ⟨_, found, rfl⟩

theorem removeRange_spec (wellFormed : WellFormed list (first ++ (range ++ second)))
    (isStart : range.head? = some start)
    (isStop : range.getLast? = some stop) (proper : first ++ second ≠ []) :
    ∃ after, removeRange list start stop = some after ∧ WellFormed after (first ++ second) := by
  obtain ⟨⟨startCell, foundStart, isPrev⟩, stopCell, foundStop, isNext⟩ :=
    range_ends wellFormed.links isStart isStop
  obtain ⟨middle, linked, wroteNext, wrotePrev, segment, -⟩ :=
    wellFormed.links.skip wellFormed.links.nodup
  simp only [or_none] at wroteNext wrotePrev
  have head := wellFormed.head
  have tail := wellFormed.tail
  simp only [head?_append, getLast?_append] at head tail
  simp only [removeRange, foundStart, foundStop, isPrev, isNext, bind_eq_bind, bind_some]
  rcases eq_nil_or_concat first with rfl | ⟨front, prev, rfl⟩
  · obtain rfl := Option.some.inj wroteNext
    refine ⟨⟨linked, second.head?, list.tail⟩, ?_, rfl, ?_, segment⟩
    · rw [getLast?_nil] at wrotePrev
      simp only [getLast?_nil, wrotePrev, Option.bind_some, Option.pure_def]
    · obtain ⟨last, isLast⟩ := Option.isSome_iff_exists.mp (getLast?_isSome.mpr proper)
      rw [nil_append] at isLast ⊢
      rw [tail, isLast]
      rfl
  · rw [concat_eq_append] at *
    rw [getLast?_concat] at wroteNext wrotePrev ⊢
    have sameHead : list.head = (front ++ [prev] ++ second).head? := by
      rw [head]
      simp [head?_append]
    cases second with
    | nil =>
      obtain rfl := Option.some.inj wrotePrev
      refine ⟨⟨middle, list.head, some prev⟩, ?_, sameHead, ?_, segment⟩
      · have wrote : list.cells.setNext prev none = some middle := wroteNext
        simp only [head?_nil, wrote, Option.bind_some, Option.pure_def]
      · rw [append_nil, getLast?_concat]
    | cons next rest =>
      refine ⟨⟨linked, list.head, list.tail⟩, ?_, sameHead, ?_, segment⟩
      · have wroteOne : list.cells.setNext prev (some next) = some middle := wroteNext
        have wroteTwo : middle.setPrev next (some prev) = some linked := wrotePrev
        simp only [head?_cons, wroteOne, wroteTwo, Option.bind_some, Option.pure_def]
      · rw [tail]
        simp [getLast?_append, getLast?_cons]

structure IsRange (nodes : List Addr) (start stop : Addr)
    (first range second : List Addr) : Prop where
  split : nodes = first ++ (range ++ second)
  start : range.head? = some start
  stop : range.getLast? = some stop

/-- The call returns, and when it returns `0` it has removed exactly the
nodes from `start` to `stop`. -/
def RemovesRange (fuel : ℕ) (list : ListT Data) (nodes : List Addr) (start stop : Addr) : Prop :=
  ∃ after code, listRemoveNodes fuel list start stop = some (after, code) ∧
    (code = 0 → ∃ first range second, IsRange nodes start stop first range second ∧
      WellFormed after (first ++ second))

/-- The range is refused, or it is a part of the list and not all of it. -/
def RefusedOrPart (fuel : ℕ) (list : ListT Data) (nodes : List Addr) (start stop : Addr) : Prop :=
  listCheckLinks list.cells fuel (some start) (some stop) = some false ∨
    ∃ first range second, IsRange nodes start stop first range second ∧ first ++ second ≠ []

/-- A call of `list_remove_nodes` on a well-formed list does what it is for
exactly if `start` is not in the list, or `list_check_links` refuses the
range, or the range is a part of the list and not all of it. -/
theorem removesRange_iff (list : ListT Data) (nodes : List Addr)
    (start stop : Addr) (fuel : ℕ) (wellFormed : WellFormed list nodes)
    (enough : nodes.length < fuel) :
    RemovesRange fuel list nodes start stop ↔
      (start ∈ nodes → RefusedOrPart fuel list nodes start stop) := by
  have found := listFindNode_spec (a := start) wellFormed.links enough
  rw [← wellFormed.head] at found
  have unfolded : ∀ linked, listCheckLinks list.cells fuel (some start) (some stop) = linked →
      start ∈ nodes →
      listRemoveNodes fuel list start stop = linked.bind fun linked =>
        if linked = true then
          (removeRange list start stop).bind fun after => some (after, 0)
        else
          some (list, -1) := by
    rintro linked rfl member
    rw [listRemoveNodes, found, if_pos member, some_bind, if_neg (some_ne_none start)]
    rfl
  by_cases member : start ∈ nodes
  · cases linked : listCheckLinks list.cells fuel (some start) (some stop) with
    | none =>
      rw [RemovesRange, unfolded none linked member]
      constructor
      · rintro ⟨after, code, returned, -⟩
        cases returned
      · intro condition
        rcases condition member with refused | ⟨first, range, second, isRange, -⟩
        · rw [linked] at refused
          cases refused
        · have stopMember : stop ∈ nodes := by
            rw [isRange.split]
            simp [mem_of_getLast? isRange.stop]
          obtain ⟨i, atI⟩ := mem_iff_getElem?.mp member
          obtain ⟨j, atJ⟩ := mem_iff_getElem?.mp stopMember
          rw [listCheckLinks_eq wellFormed.links atI atJ enough] at linked
          cases linked
    | some answer =>
      rw [RemovesRange, unfolded (some answer) linked member, bind_some]
      cases answer with
      | false =>
        exact ⟨fun _ _ => .inl linked, fun _ => ⟨list, -1, rfl, fun isZero => by cases isZero⟩⟩
      | true =>
        rw [if_pos rfl]
        constructor
        · rintro ⟨after, code, returned, removed⟩ -
          obtain ⟨_, isAfter, same⟩ := bind_eq_some_iff.mp returned
          cases same
          obtain ⟨first, range, second, isRange, final⟩ := removed rfl
          refine .inr ⟨first, range, second, isRange, ?_⟩
          intro isEmpty
          rw [isEmpty] at final
          obtain ⟨rfl, rfl⟩ := append_eq_nil_iff.mp isEmpty
          have links := wellFormed.links
          rw [isRange.split] at links
          obtain ⟨⟨cell, foundStart, isPrev⟩, -⟩ := range_ends links isRange.start isRange.stop
          have sameTail : after.tail = list.tail := by
            rw [removeRange, foundStart, some_bind, isPrev] at isAfter
            obtain ⟨last, -, isAfter⟩ := bind_eq_some_iff.mp isAfter
            obtain ⟨cells, -, isAfter⟩ := bind_eq_some_iff.mp isAfter
            cases isAfter
            rfl
          have isNone : after.tail = none := final.tail
          rw [sameTail, wellFormed.tail, isRange.split] at isNone
          simp [isRange.stop] at isNone
        · intro condition
          rcases condition member with refused | ⟨first, range, second, isRange, proper⟩
          · rw [linked] at refused
            cases refused
          · have whole := wellFormed
            rw [isRange.split] at whole
            obtain ⟨after, removed, final⟩ :=
              removeRange_spec whole isRange.start isRange.stop proper
            exact ⟨after, 0, by rw [removed]; rfl, fun _ => ⟨first, range, second, isRange, final⟩⟩
  · refine ⟨fun _ isMember => absurd isMember member, fun _ => ⟨list, -1, ?_,
      fun isZero => by cases isZero⟩⟩
    rw [listRemoveNodes, found, if_neg member]
    rfl

theorem removesRange_first :
    RefusedOrPart 4 ⟨row 3, some 0, some 2⟩ [0, 1, 2] 0 0 ∧
      (RemovesRange 4 ⟨row 3, some 0, some 2⟩ [0, 1, 2] 0 0 ↔ (0 ∈ [0, 1, 2] →
        RefusedOrPart 4 ⟨row 3, some 0, some 2⟩ [0, 1, 2] 0 0)) :=
  ⟨.inr ⟨[], [0], [1, 2], ⟨rfl, rfl, rfl⟩, by simp⟩,
    removesRange_iff _ [0, 1, 2] 0 0 4 wellFormed_three (by decide)⟩

/-- All nodes are removed, and `tail` still points to the last one. -/
theorem removeNodes_whole :
    ((listRemoveNodes 4 ⟨row 3, some 0, some 2⟩ 0 2).map fun result =>
      (result.1.head, result.1.tail, result.2)) = some (none, some 2, 0) := by
  decide

/-! ## Inserting -/

/-- The nodes with a chain right behind the node `after`, or in front. -/
def spliced (nodes chain : List Addr) (after : Option Addr) : List Addr :=
  let place := after.elim 0 fun node => nodes.idxOf node + 1
  nodes.take place ++ (chain ++ nodes.drop place)

theorem exists_split (member : ∀ node ∈ after, node ∈ nodes) :
    ∃ first second, nodes = first ++ second ∧ first.getLast? = after ∧
      ∀ chain, spliced nodes chain after = first ++ (chain ++ second) := by
  refine ⟨_, _, (take_append_drop _ nodes).symm, ?_, fun _ => rfl⟩
  cases after with
  | none => rfl
  | some node =>
    have isAt := getElem?_idxOf (member node rfl)
    rw [elim_some, getLast?_take, if_neg (Nat.succ_ne_zero _), Nat.add_sub_cancel, isAt]
    rfl

theorem listInsertNode_eq (wellFormed : WellFormed list (first ++ second)) :
    listInsertNode list first.getLast? a =
      (list.cells.linkNext first.getLast? (some a)).bind fun cells =>
        placeNode
          { list with
            cells, head := if first = [] then some a else list.head }
          first.getLast? second.head? a := by
  rcases eq_nil_or_concat first with rfl | ⟨front, node, rfl⟩
  · have head : list.head = second.head? := wellFormed.head
    rw [getLast?_nil, listInsertNode, head]
    rfl
  · rw [concat_eq_append] at *
    have links := wellFormed.links
    rw [append_assoc] at links
    obtain ⟨data, found⟩ := links.cell
    have nonempty : front ++ [node] ≠ [] := by simp
    rw [getLast?_concat, listInsertNode, found, if_neg nonempty]
    rfl

/-- A node is put behind a node of the list, or in front of it, exactly
unless that place is the end of the list. -/
theorem listInsertNode_inserts_iff (list : ListT Data) (nodes : List Addr)
    (after : Option Addr) (newNode : Addr) (wellFormed : WellFormed list nodes)
    (member : ∀ node ∈ after, node ∈ nodes) (fresh : newNode ∉ nodes)
    (present : (list.cells newNode).isSome = true) :
    (∃ result, listInsertNode list after newNode = some result ∧
      WellFormed result (spliced nodes [newNode] after)) ↔ after ≠ list.tail := by
  obtain ⟨first, second, rfl, rfl, isSpliced⟩ := exists_split member
  obtain ⟨cell, found⟩ := isSome_iff_exists.mp present
  have alone : Segment list.cells cell.prev [newNode] cell.next := ⟨⟨cell.data, found⟩, trivial⟩
  have distinct : (first ++ ([newNode] ++ second)).Nodup := nodup_middle.mpr
    (nodup_cons.mpr ⟨fresh, wellFormed.links.nodup⟩)
  obtain ⟨left, front, back, linked, wroteLeft, wroteFront, wroteBack, wroteSecond, segment, -⟩ :=
    wellFormed.links.splice alone (cons_ne_nil _ _) distinct
  rw [head?_cons] at wroteLeft
  simp only [or_none] at wroteFront wroteBack
  have wrotePrev : left.setPrev newNode first.getLast? = some front := wroteFront
  have wroteNext : front.setNext newNode second.head? = some back := wroteBack
  have head := wellFormed.head
  have tail := wellFormed.tail
  rw [isSpliced, listInsertNode_eq wellFormed, wroteLeft, bind_some]
  simp only [placeNode, wrotePrev, wroteNext, bind_eq_bind, bind_some]
  cases second with
  | nil =>
    rw [append_nil] at tail
    simp [tail]
  | cons next rest =>
    have wrote : back.setPrev next (some newNode) = some linked := wroteSecond
    simp only [head?_cons, Option.bind_some, wrote, Option.pure_def]
    refine ⟨?_, fun _ => ⟨_, rfl, ?_, ?_, segment⟩⟩
    · rintro - isTail
      rw [getLast?_append_cons] at tail
      obtain ⟨last, isLast⟩ := isSome_iff_exists.mp (getLast?_isSome.mpr (cons_ne_nil next rest))
      rw [tail, isLast] at isTail
      exact disjoint_of_nodup_append wellFormed.links.nodup
        (mem_of_getLast? isTail) (mem_of_getLast? isLast)
    · cases first with
      | nil => rfl
      | cons _ _ => exact head
    · simpa [getLast?_append, getLast?_cons] using tail

theorem listInsertNode_inserts_middle :
    ∃ result, listInsertNode ⟨row 3, some 0, some 2⟩ (some 0) 3 = some result ∧
      WellFormed result (spliced [0, 1, 2] [3] (some 0)) :=
  (listInsertNode_inserts_iff ⟨row 3, some 0, some 2⟩ [0, 1, 2] (some 0) 3
    wellFormed_three (by decide) (by decide) rfl).mpr (by decide)

/-- In an empty list, and behind the last node, a null pointer is
dereferenced. -/
theorem listInsertNode_atEnd :
    listInsertNode ⟨row 0, none, none⟩ none 0 = none ∧
      listInsertNode ⟨row 3, some 0, some 2⟩ (some 2) 3 = none := ⟨rfl, rfl⟩

/-- The pointer back from the old head is not written. -/
theorem not_wellFormed_inFront {result : ListT Data} (wellFormed : WellFormed list (a :: second))
    (apart : a ∉ chain) (isStart : chain.head? = some start) (isStop : chain.getLast? = some stop)
    (inserted : insertRange list none start stop = some result) :
    ¬ WellFormed result (chain ++ a :: second) := by
  intro final
  obtain ⟨⟨data, found⟩, -⟩ := wellFormed.links
  obtain ⟨newData, foundAgain⟩ := final.links.cell
  have head : list.head = some a := wellFormed.head
  simp only [insertRange, head] at inserted
  obtain ⟨middle, wroteNext, inserted⟩ := bind_eq_some_iff.mp inserted
  obtain ⟨cells, wrotePrev, same⟩ := bind_eq_some_iff.mp inserted
  cases same
  change cells a = _ at foundAgain
  have relinkedStop := Cells.relinked_modify wroteNext fun _ => rfl
  have relinkedStart := Cells.relinked_modify wrotePrev fun _ => rfl
  have notStop : a ∉ [stop] := by
    rw [mem_singleton]
    exact fun same => apart (same ▸ mem_of_getLast? isStop)
  have notStart : a ∉ [start] := by
    rw [mem_singleton]
    exact fun same => apart (same ▸ mem_of_head? isStart)
  rw [relinkedStart.outside a notStart, relinkedStop.outside a notStop, found, isStop] at foundAgain
  have pointers := congrArg (Option.map Cell.prev) foundAgain
  cases pointers

theorem insertRange_behind (wellFormed : WellFormed list (first ++ [a] ++ second))
    (detached : Segment list.cells none chain none)
    (distinct : (first ++ [a] ++ (chain ++ second)).Nodup) (isStart : chain.head? = some start)
    (isStop : chain.getLast? = some stop) :
    ∃ result, insertRange list (some a) start stop = some result ∧
      WellFormed result (first ++ [a] ++ (chain ++ second)) := by
  have nonempty : chain ≠ [] := by
    rintro rfl
    cases isStart
  have whole := wellFormed.links
  rw [append_assoc] at whole
  obtain ⟨data, found⟩ := whole.cell
  obtain ⟨left, front, back, linked, wroteLeft, wroteFront, wroteBack, wroteSecond, segment, -⟩ :=
    wellFormed.links.splice detached nonempty distinct
  simp only [or_none, getLast?_concat, isStart, isStop,
    Cells.linkNext] at wroteLeft wroteFront wroteBack wroteSecond
  have head := wellFormed.head
  have tail := wellFormed.tail
  simp only [head?_append, getLast?_append] at head tail
  obtain ⟨top, isTop⟩ : ∃ top, list.head = some top := by
    rw [head]
    cases first with
    | nil => exact ⟨a, rfl⟩
    | cons other _ => exact ⟨other, rfl⟩
  refine ⟨⟨linked, list.head, if second.head? = none then some stop else list.tail⟩, ?_, ?_, ?_,
    segment⟩
  · have wrotePrev : left.setPrev start (some a) = some front := wroteFront
    have next : ([].append second).head? = second.head? := rfl
    simp only [insertRange, isTop, found, next, wroteLeft, wrotePrev,
      wroteBack, wroteSecond, some_bind, Option.pure_def]
  · rw [head]
    cases first with
    | nil | cons => rfl
  · cases second with
    | nil =>
      rw [head?_nil, if_pos rfl, append_nil, getLast?_append, isStop]
      rfl
    | cons _ _ => simpa [getLast?_append, getLast?_cons] using tail

/-- A detached chain is spliced in exactly unless it is put in front of a
list that is not empty. -/
theorem listInsertNodes_inserts_iff (list : ListT Data)
    (nodes chain : List Addr) (after : Option Addr) (start stop : Addr)
    (fuel : ℕ) (wellFormed : WellFormed list nodes) (member : ∀ node ∈ after, node ∈ nodes)
    (detached : Segment list.cells none chain none)
    (apart : chain.Disjoint nodes) (isStart : chain.head? = some start)
    (isStop : chain.getLast? = some stop) (enough : chain.length < fuel) :
    (∃ result, listInsertNodes fuel list after start stop = some (result, 0) ∧
        WellFormed result (spliced nodes chain after)) ↔
      (after = none → nodes = []) := by
  obtain ⟨first, second, rfl, rfl, isSpliced⟩ := exists_split member
  have accepted : listCheckLinks list.cells fuel (some start) (some stop) = some true := by
    rw [head?_eq_getElem?] at isStart
    rw [getLast?_eq_getElem?] at isStop
    rw [listCheckLinks_eq detached isStart isStop enough]
    obtain ⟨below, -⟩ := List.getElem?_eq_some_iff.mp isStart
    have accepted : Accepted chain.length 0 (chain.length - 1 + 1) := by
      simp only [Accepted]
      omega
    rw [decide_eq_true accepted]
  have unfolded : listInsertNodes fuel list first.getLast? start stop =
      (insertRange list first.getLast? start stop).bind fun result =>
        some (result, 0) := by
    rw [listInsertNodes, accepted]
    rfl
  rw [unfolded, isSpliced]
  rcases eq_nil_or_concat first with rfl | ⟨front, node, rfl⟩
  · cases second with
    | nil =>
      have head : list.head = none := wellFormed.head
      refine ⟨fun _ _ => rfl, fun _ => ⟨⟨list.cells, some start, some stop⟩, ?_, ?_, ?_, ?_⟩⟩
      · simp only [insertRange, head, bind_some]
      · simp [isStart]
      · simp [isStop]
      · simpa using detached
    | cons old rest =>
      refine iff_of_false ?_ fun condition => by cases condition rfl
      rintro ⟨result, returned, final⟩
      obtain ⟨_, inserted, same⟩ := bind_eq_some_iff.mp returned
      cases same
      exact not_wellFormed_inFront wellFormed
        (fun inChain => apart inChain mem_cons_self) isStart isStop inserted final
  · rw [concat_eq_append] at *
    rw [getLast?_concat]
    refine iff_of_true ?_ fun isNone => by cases isNone
    have distinct : (front ++ [node] ++ (chain ++ second)).Nodup := by
      have nodup := wellFormed.links.nodup
      have chainNodup := detached.nodup
      have disjoint := disjoint_append_right.mp apart
      have behind := chainNodup.append nodup.of_append_right disjoint.2
      exact nodup.of_append_left.append behind (disjoint_append_right.mpr
        ⟨fun _ inFirst inChain => disjoint.1 inChain inFirst, disjoint_of_nodup_append nodup⟩)
    obtain ⟨result, inserted, final⟩ :=
      insertRange_behind wellFormed detached distinct isStart isStop
    exact ⟨result, by rw [inserted]; rfl, final⟩

theorem listInsertNodes_inserts_last :
    ∃ result, listInsertNodes 4 ⟨row 3, some 0, some 2⟩ (some 2) 3 3 = some (result, 0) ∧
      WellFormed result (spliced [0, 1, 2] [3] (some 2)) :=
  (listInsertNodes_inserts_iff ⟨row 3, some 0, some 2⟩ [0, 1, 2] [3]
    (some 2) 3 3 4 wellFormed_three (by decide) ⟨⟨(), rfl⟩, trivial⟩
    (by simp) rfl rfl (by decide)).mpr (by decide)

/-- Node `3` is put in front: the node behind it does not point back. -/
theorem listInsertNodes_inFront :
    ((listInsertNodes 4 ⟨row 3, some 0, some 2⟩ none 3 3).map fun result =>
      (result.1.head, (result.1.cells 3).map Cell.next,
        (result.1.cells 0).map Cell.prev, result.2)) =
      some (some 3, some (some 0), some none, 0) := by
  decide

end Skyc.Utils.LinkedList
