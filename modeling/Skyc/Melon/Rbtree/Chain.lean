import Skyc.Melon.Rbtree.Model

/-!
# The chain of the nodes

`mln_rbtree_chain_add` puts a node at the end of the chain, and
`mln_rbtree_chain_del` takes a node out of it.
-/

namespace Skyc.Melon.Rbtree

open Skyc.Lib Function List Option Cells

variable {Data : Type} {t : Rbtree Data} {node : Addr} {order : List Addr}

structure Chained (t : Rbtree Data) (order : List Addr) : Prop where
  segment : Segment t.cells none order none
  head : t.head = order.head?
  tail : t.tail = order.getLast?

structure SameTree (t other : Rbtree Data) : Prop where
  nodes : other.nodes = t.nodes
  min : other.min = t.min
  nrNode : other.nrNode = t.nrNode
  iter : other.iter = t.iter
  del : other.del = t.del
  data : ∀ address, other.cells.dataAt address = t.cells.dataAt address

theorem chainAdd_spec (chained : Chained t order) (fresh : node ∉ order)
    {cell : Cell Data} (present : t.cells node = some cell) :
    ∃ result, chainAdd node t = some result ∧
      Chained result (order ++ [node]) ∧ SameTree t result := by
  have distinct := chained.segment.nodup
  have notNode : ∀ other ∈ order, other ∉ [node] := by
    intro other member isNode
    rw [mem_singleton] at isNode
    exact fresh (isNode ▸ member)
  -- the pointer behind the node, then the one of the last node to it
  have wroteNext := modify_eq_some present fun cell => { cell with next := none }
  have nextRelinked := relinked_modify wroteNext fun _ => rfl
  generalize isPlaced : update t.cells node
    (some { cell with next := none }) = placed at wroteNext nextRelinked
  have kept := chained.segment.frame nextRelinked notNode
  obtain ⟨linked, wroteLink, linkedSegment, linkRelinked⟩ := kept.linkNext distinct (some node)
  have atNode : linked node = some { cell with next := none } := by
    rw [linkRelinked.outside node fresh, ← isPlaced, update_self]
  have wrotePrev := modify_eq_some atNode fun cell => { cell with prev := order.getLast? }
  have prevRelinked := relinked_modify wrotePrev fun _ => rfl
  have wroteLast : linkTail node t placed = some linked := by
    rw [linkTail, chained.head, chained.tail]
    rcases eq_nil_or_concat order with isNil | ⟨earlier, last, isConcat⟩
    · subst isNil
      exact wroteLink
    · rw [isConcat, concat_eq_append, getLast?_concat] at wroteLink ⊢
      rw [if_neg (by simp)]
      exact wroteLink
  generalize isFinal : update linked node
    (some { { cell with next := none } with prev := order.getLast? }) = final
    at wrotePrev prevRelinked
  refine ⟨{ t with
    cells := final
    head := if t.head = none then some node else t.head
    tail := some node }, ?_, ⟨?_, ?_, ?_⟩, ⟨rfl, rfl, rfl, rfl, rfl, ?_⟩⟩
  · have first : t.cells.setNext node none = some placed := wroteNext
    have third : setPrev linked node t.tail = some final := by
      rw [chained.tail]
      exact wrotePrev
    simp only [chainAdd, first, wroteLast, third, some_bind]
    rfl
  · apply segment_append.mpr
    refine ⟨linkedSegment.frame prevRelinked notNode, ⟨cell.data, ?_⟩, trivial⟩
    have atFinal : final node =
        some { { cell with next := none } with prev := order.getLast? } := by
      rw [← isFinal, update_self]
    rw [or_none, or_none]
    exact atFinal
  · change (if t.head = none then some node else t.head) = _
    rw [chained.head]
    cases order with
    | nil | cons => rfl
  · exact getLast?_concat.symm
  · intro address
    rw [prevRelinked.data, linkRelinked.data, nextRelinked.data]

/-- The branches differ in what lies on the two sides of the node. -/
theorem bypass_spec {first second : List Addr} (chained : Chained t (first ++ node :: second))
    (distinct : (first ++ node :: second).Nodup) :
    ∃ result, bypass node second.head? first.getLast? t = some result ∧
      Chained result (first ++ second) ∧ SameTree t result := by
  obtain ⟨middle, linked, wroteNext, wrotePrev, segment, relinked⟩ :=
    chained.segment.unlink distinct
  rw [or_none] at wroteNext wrotePrev
  have apart := disjoint_of_nodup_append distinct
  have notSecond := (nodup_cons.mp distinct.of_append_right).1
  have isHead : t.head = some node ↔ first = [] := by
    rw [chained.head]
    cases first with
    | nil => simp
    | cons earliest rest =>
      have different : earliest ≠ node := by
        rintro rfl
        exact apart mem_cons_self mem_cons_self
      simpa using different
  have isTail : t.tail = some node ↔ second = [] := by
    rw [chained.tail]
    rcases eq_nil_or_concat second with isNil | ⟨rest, last, isConcat⟩
    · simp [isNil]
    · have different : last ≠ node := by
        rintro rfl
        apply notSecond
        simp [isConcat]
      have isLast : (first ++ node :: second).getLast? = some last := by
        rw [isConcat, concat_eq_append, ← cons_append, ← append_assoc, getLast?_concat]
      rw [isLast, isConcat]
      simpa using different
  refine ⟨{ t with
    cells := linked
    head := (first ++ second).head?
    tail := (first ++ second).getLast? }, ?_, ⟨segment, rfl, rfl⟩,
    ⟨rfl, rfl, rfl, rfl, rfl, relinked.data⟩⟩
  rw [bypass]
  rcases eq_nil_or_concat first with isNil | ⟨earlier, prev, isConcat⟩
  · have noPrev : first.getLast? = none := by
      rw [isNil]
      rfl
    rw [if_pos (isHead.mpr isNil)]
    rw [noPrev] at wroteNext wrotePrev
    cases wroteNext
    cases second with
    | nil =>
      cases wrotePrev
      rw [if_pos (isTail.mpr rfl), isNil]
      rfl
    | cons next later =>
      have notTail : ¬ t.tail = some node := by simp [isTail]
      have wrote : t.cells.setPrev next none = some linked := wrotePrev
      have sameTail : t.tail = (next :: later).getLast? := by
        rw [chained.tail, isNil, nil_append, getLast?_cons_cons]
      rw [if_neg notTail, isNil, nil_append, ← sameTail]
      simp only [head?_cons, some_bind, wrote]
      rfl
  · have isLast : first.getLast? = some prev := by
      rw [isConcat, concat_eq_append, getLast?_concat]
    have notHead : ¬ t.head = some node := by simp [isHead, isConcat]
    have sameHead : (first ++ second).head? = t.head := by
      rw [chained.head, isConcat]
      cases earlier with
      | nil | cons => rfl
    rw [isLast] at wroteNext wrotePrev
    have wrote : t.cells.setNext prev second.head? = some middle := wroteNext
    rw [if_neg notHead, isLast, sameHead]
    cases second with
    | nil =>
      cases wrotePrev
      rw [if_pos (isTail.mpr rfl), append_nil, isLast]
      rw [head?_nil] at wrote
      simp only [some_bind, wrote]
      rfl
    | cons next later =>
      have notTail : ¬ t.tail = some node := by simp [isTail]
      have wroteBack : middle.setPrev next (some prev) = some linked := wrotePrev
      have sameTail : (first ++ next :: later).getLast? = t.tail := by
        rw [chained.tail, getLast?_append_cons, getLast?_append_cons, getLast?_cons_cons]
      rw [head?_cons] at wrote
      rw [if_neg notTail, sameTail]
      simp only [head?_cons, some_bind, wrote, wroteBack]
      rfl

theorem chainDel_spec {first second : List Addr} (chained : Chained t (first ++ node :: second))
    (distinct : (first ++ node :: second).Nodup) :
    ∃ result, chainDel node t = some result ∧
      Chained result (first ++ second) ∧ SameTree t result := by
  obtain ⟨-, ⟨data, found⟩, -⟩ := segment_append.mp chained.segment
  rw [or_none, or_none] at found
  obtain ⟨passed, isPassed, passedChain, same⟩ := bypass_spec chained distinct
  have stillThere : ∃ cell, passed.cells node = some cell := by
    have present := same.data node
    rw [dataAt, dataAt, found] at present
    obtain ⟨cell, isCell, -⟩ := map_eq_some_iff.mp present
    exact ⟨cell, isCell⟩
  obtain ⟨cell, isCell⟩ := stillThere
  have notNode : ∀ other ∈ first ++ second, other ∉ [node] := by
    intro other member isNode
    rw [mem_singleton] at isNode
    have outside := (nodup_middle.mp distinct).notMem
    exact outside (isNode ▸ member)
  -- the pointers of the node itself are not part of the chain any more
  have wroteNext := modify_eq_some isCell fun cell => { cell with next := none }
  have nextRelinked := relinked_modify wroteNext fun _ => rfl
  have wrotePrev := modify_eq_some
    (update_self node (some { cell with next := none }) passed.cells)
    fun cell => { cell with prev := none }
  have prevRelinked := relinked_modify wrotePrev fun _ => rfl
  have relinked := nextRelinked.trans prevRelinked
  generalize update (update passed.cells node _) node _ = final at wrotePrev relinked
  refine ⟨{ passed with cells := final }, ?_,
    ⟨passedChain.segment.frame relinked notNode, passedChain.head, passedChain.tail⟩,
    { same with data := ?_ }⟩
  · simp only [chainDel, found, some_bind, isPassed, setNext, wroteNext, setPrev, wrotePrev]
    rfl
  · intro address
    exact (relinked.data address).trans (same.data address)

end Skyc.Melon.Rbtree
