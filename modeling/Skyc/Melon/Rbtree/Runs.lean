import Skyc.Melon.Rbtree.Chain
import Skyc.Melon.Rbtree.Ordering

/-!
# Sequences of calls

`Shape` is what holds for a tree whatever its comparison does; `Ordered` is what
a total preorder adds.
-/

namespace Skyc.Melon.Rbtree

open Skyc.Lib TreeNodes ColorTree Context List Set Prod

variable {Data : Type} {cmp : Data → Data → ℤ} {t : Rbtree Data}
  {tree : ColorTree Addr} {live : List (Addr × Data)} {node : Addr} {data : Data}

/-- The nodes form a red-black tree, and `live` lists them with their data in
the order in which they were inserted. -/
structure Shape (t : Rbtree Data) (tree : ColorTree Addr) (live : List (Addr × Data)) : Prop where
  tracks : Tracks t.nodes tree
  sentinel : t.nodes.color none = .black
  whole : Whole tree
  nodes : tree.toList.Perm (live.map Prod.fst)
  chained : Chained t (live.map Prod.fst)
  count : t.nrNode = live.length
  data : ∀ entry ∈ live, t.cells.dataAt entry.1 = some entry.2
  minLive : ∀ least, t.min = some least → least ∈ tree.toList

/-- The tree is in order, and `min` is its leftmost node. -/
structure Ordered (cmp : Data → Data → ℤ) (t : Rbtree Data) (tree : ColorTree Addr) : Prop where
  sorted : tree.toList.Pairwise (Precedes cmp t)
  min : t.min = tree.toList.head?

namespace Shape

section

variable (shape : Shape t tree live)
include shape

theorem distinct : (live.map Prod.fst).Nodup := shape.nodes.nodup_iff.mp shape.tracks.distinct

theorem length : tree.toList.length = t.nrNode := by
  rw [shape.nodes.length_eq, length_map, shape.count]

theorem entry {a : Addr} (member : a ∈ tree.toList) :
    ∃ found, (a, found) ∈ live ∧ t.cells.dataAt a = some found := by
  obtain ⟨⟨_, found⟩, inLive, rfl⟩ := mem_map.mp (shape.nodes.mem_iff.mp member)
  exact ⟨found, inLive, shape.data _ inLive⟩

theorem present : ∀ a ∈ tree.toList, ∃ found, t.cells.dataAt a = some found := by
  intro a member
  obtain ⟨found, _, isFound⟩ := shape.entry member
  exact ⟨found, isFound⟩

theorem mem_tree {a : Addr} {found : Data} (member : (a, found) ∈ live) : a ∈ tree.toList :=
  shape.nodes.mem_iff.mpr (mem_map_of_mem member)

end

end Shape

/-! ## A node that the caller writes -/

theorem store_shape (shape : Shape t tree live) (contents : Contents Data)
    (fresh : node ∉ live.map Prod.fst) :
    Shape (store node contents t) tree live ∧
      (store node contents t).cells.dataAt node = some contents.data ∧
      ∀ a, a ≠ node → (store node contents t).cells.dataAt a = t.cells.dataAt a := by
  have elsewhere : ∀ a, a ≠ node → (store node contents t).cells a =
    t.cells a := fun a apart => Function.update_of_ne apart _ _
  have dataElsewhere : ∀ a, a ≠ node →
      (store node contents t).cells.dataAt a = t.cells.dataAt a := by
    intro a apart
    rw [Cells.dataAt, elsewhere a apart, Cells.dataAt]
  have notNode : ∀ a ∈ live.map fst, a ≠ node := by
    rintro a member rfl
    exact fresh member
  refine ⟨⟨?_, ?_, shape.whole, shape.nodes, ⟨?_, shape.chained.head,
    shape.chained.tail⟩, shape.count, ?_, shape.minLive⟩, ?_, dataElsewhere⟩
  · refine shape.tracks.congr (show _ = t.nodes.root from rfl) ?_
    intro a inTree
    have apart := some_ne_some (notNode a (shape.nodes.mem_iff.mp inTree))
    exact ⟨fun _ => if_neg apart, if_neg apart, if_neg apart⟩
  · exact shape.sentinel
  · exact shape.chained.segment.congr fun a member =>
      elsewhere a (notNode a member)
  · intro entry member
    rw [dataElsewhere _ (notNode _ (mem_map_of_mem member))]
    exact shape.data entry member
  · rw [Cells.dataAt]
    change (Function.update t.cells node _ node).map Cell.data = _
    rw [Function.update_self]
    rfl

/-! ## Insertion -/

theorem minAfterInsert_spec (shape : Shape t tree live) :
    ∃ least, minAfterInsert cmp t node data = some least ∧ (least = some node ∨ least = t.min) := by
  rw [minAfterInsert]
  cases isMin : t.min with
  | none => exact ⟨_, rfl, .inl rfl⟩
  | some least =>
    obtain ⟨other, isOther⟩ := shape.present least (shape.minLive least isMin)
    simp only [isOther, some_bind]
    by_cases less : cmp data other < 0
    · exact ⟨_, rfl, .inl (if_pos less)⟩
    · exact ⟨_, rfl, .inr (if_neg less)⟩

theorem insert_spec (shape : Shape t tree live) (fresh : node ∉ live.map Prod.fst)
    (isData : t.cells.dataAt node = some data) :
    ∃ result newTree path, insert cmp node t = some result ∧
      Shape result newTree (live ++ [(node, data)]) ∧
      (∀ a, result.cells.dataAt a = t.cells.dataAt a) ∧
      tree = plug path nil ∧ Compared cmp t data path ∧
      newTree.toList = before path ++ node :: after path ∧
      minAfterInsert cmp t node data = some result.min := by
  obtain ⟨path, isPlug, isEnd, compared⟩ :=
    @descend_spec Data cmp t [] tree (t.nrNode + 1) data shape.present
      shape.tracks.represents (by rw [shape.length]; omega)
  obtain ⟨side, isSide, sameSide⟩ := sideOf_spec compared
  rw [append_nil] at isEnd
  have located : Located t.nodes path nil := by
    apply tracks_plug.mp
    rw [← isPlug]
    exact shape.tracks
  have outside : node ∉ values path := by
    intro member
    apply fresh
    apply shape.nodes.mem_iff.mp
    rw [isPlug]
    exact perm_plug.mem_iff.mpr (mem_append_right _ member)
  obtain ⟨attached, sameSentinel⟩ := attach_spec located outside sameSide
  have overfull : Overfull path (ColorTree.node nil .red node nil) := by
    have whole := shape.whole
    rw [isPlug] at whole
    obtain ⟨height, redBlack, hole⟩ := whole_plug.mp whole
    refine ⟨rfl, height, ⟨fun _ => ⟨rfl, rfl⟩, height, rfl, redBlack, redBlack⟩, hole⟩
  have enough : path.length < t.nrNode + 1 := by
    have short := length_le_plug path nil
    rw [← isPlug, shape.length] at short
    omega
  obtain ⟨repaired, newTree, isRepaired, tracks, sentinel, list, whole⟩ :=
    insertFixup_spec attached (sameSentinel.color.trans shape.sentinel) overfull enough
  obtain ⟨least, isLeast, choice⟩ := minAfterInsert_spec shape
  obtain ⟨cell, isCell, _⟩ := Option.map_eq_some_iff.mp isData
  have newList : newTree.toList = before path ++ node :: after path := by
    rw [list, toList_plug]
    simp [toList]
  obtain ⟨result, isResult, chained, same⟩ := @chainAdd_spec Data { t with
    nodes := repaired
    min := least
    nrNode := t.nrNode + 1 } node (live.map fst)
    ⟨shape.chained.segment, shape.chained.head, shape.chained.tail⟩ fresh
    cell isCell
  have sameData : ∀ a, result.cells.dataAt a = t.cells.dataAt a := same.data
  have nodes : newTree.toList.Perm ((live ++ [(node, data)]).map fst) := by
    have old := shape.nodes
    rw [isPlug, toList_plug] at old
    rw [newList, map_append]
    refine (perm_middle.trans (Perm.cons node ?_)).trans (perm_append_singleton node _).symm
    simpa [toList] using old
  refine ⟨result, newTree, path, ?_, ⟨?_, ?_, whole, nodes, ?_, ?_, ?_, ?_⟩,
    sameData, isPlug, compared, newList, isLeast.trans (congrArg some same.min.symm)⟩
  · have isStart : descend cmp t data (t.nrNode + 1) t.nodes.root none = some (upper path) := by
      rw [shape.tracks.root]
      exact isEnd
    have isFixed : insertFixup (t.nrNode + 1) (some node)
      (attach node (upper path) side t.nodes) = some repaired := isRepaired
    simp only [insert, isData, isStart, isSide, isFixed, isLeast, some_bind]
    exact isResult
  · rw [same.nodes]
    exact tracks
  · rw [same.nodes]
    exact sentinel
  · rw [map_append]
    exact chained
  · rw [same.nrNode, length_append, shape.count]
    rfl
  · intro entry member
    rw [sameData]
    rcases mem_append.mp member with old | isNew
    · exact shape.data entry old
    · rw [mem_singleton.mp isNew]
      exact isData
  · intro smallest isSmallest
    rw [same.min] at isSmallest
    rcases choice with isNode | isOld
    · have sameNode : node = smallest := Option.some.inj (isNode.symm.trans isSmallest)
      rw [newList, ← sameNode]
      simp
    · have member := shape.minLive smallest (isOld.symm.trans isSmallest)
      rw [isPlug, toList_plug] at member
      rw [newList]
      simp only [toList, append_nil, mem_append, mem_cons] at member ⊢
      tauto

theorem pairwise_of_data {other : Rbtree Data} {order : List Addr}
    (sorted : order.Pairwise (Precedes cmp t))
    (same : ∀ a ∈ order, other.cells.dataAt a = t.cells.dataAt a) :
    order.Pairwise (Precedes cmp other) := by
  apply sorted.imp_of_mem
  rintro a b inA inB ⟨first, second, atA, atB, ordered⟩
  exact ⟨first, second, (same a inA).trans atA, (same b inB).trans atB, ordered⟩

section TotalPreorder

variable {stored : Set Data}

section

variable (shape : Shape t tree live) (ordered : Ordered cmp t tree)
  (known : ∀ entry ∈ live, entry.2 ∈ stored)

include shape ordered known

theorem Shape.way {path : Context Addr} (isPlug : tree = plug path nil) :
    tree.toList = before path ++ after path ∧
      (before path ++ after path).Pairwise (Precedes cmp t) ∧
      ∀ a ∈ before path ++ after path, DataSatisfies t (· ∈ stored) a := by
  have oldList : tree.toList = before path ++ after path := by
    rw [isPlug, toList_plug, toList, append_nil]
  refine ⟨oldList, oldList ▸ ordered.sorted, ?_⟩
  intro a member
  rw [← oldList] at member
  obtain ⟨found, inLive, isFound⟩ := shape.entry member
  exact ⟨found, isFound, known _ inLive⟩

theorem insert_ordered (fresh : node ∉ live.map Prod.fst)
    (isData : t.cells.dataAt node = some data) (order : TotalPreorderOn cmp stored)
    (inside : data ∈ stored) :
    ∃ result newTree, insert cmp node t = some result ∧
      Shape result newTree (live ++ [(node, data)]) ∧
      (∀ a, result.cells.dataAt a = t.cells.dataAt a) ∧ Ordered cmp result newTree := by
  obtain ⟨result, newTree, path, isResult, newShape, sameData, isPlug, compared,
    newList, isLeast⟩ := insert_spec shape fresh isData
  obtain ⟨oldList, sorted, allKnown⟩ := shape.way ordered known isPlug
  obtain ⟨lefts, rights⟩ := compared_sides order inside sorted allKnown compared
  refine ⟨result, newTree, isResult, newShape, sameData, ?_, ?_⟩
  · refine pairwise_of_data (t := t) ?_ fun a _ => sameData a
    rw [newList]
    obtain ⟨leftSorted, rightSorted, across⟩ := pairwise_append.mp sorted
    refine pairwise_append.mpr ⟨leftSorted, pairwise_cons.mpr ⟨?_, rightSorted⟩, ?_⟩
    · intro b inRight
      obtain ⟨found, isFound, above⟩ := rights b inRight
      exact ⟨data, found, isData, isFound, above.le⟩
    · intro a inLeft b inRest
      rcases mem_cons.mp inRest with isNode | inRight
      · obtain ⟨found, isFound, notAbove⟩ := lefts a inLeft
        rw [isNode]
        exact ⟨found, data, isFound, isData, notAbove⟩
      · exact across a inLeft b inRight
  · have isMin := ordered.min
    rw [oldList] at isMin
    rw [newList]
    rw [minAfterInsert] at isLeast
    cases isBefore : before path with
    | nil =>
      rw [isBefore, nil_append] at isMin
      cases isAfter : after path with
      | nil =>
        rw [isAfter, head?_nil] at isMin
        rw [isMin] at isLeast
        exact (Option.some.inj isLeast).symm
      | cons least later =>
        rw [isAfter, head?_cons] at isMin
        obtain ⟨found, isFound, above⟩ := rights least (by simp [isAfter])
        simp only [isMin, isFound, some_bind, if_pos above] at isLeast
        exact (Option.some.inj isLeast).symm
    | cons least later =>
      rw [isBefore, cons_append, head?_cons] at isMin
      obtain ⟨found, isFound, notAbove⟩ := lefts least (by simp [isBefore])
      obtain ⟨_, same, inFound⟩ := allKnown least (by simp [isBefore])
      rw [isFound] at same
      cases same
      have notLess : ¬ cmp data found < 0 := by
        have swapped := (order.le_swap inside inFound).mpr notAbove
        omega
      simp only [isMin, isFound, some_bind, if_neg notLess] at isLeast
      rw [cons_append, head?_cons]
      exact (Option.some.inj isLeast).symm

end

end TotalPreorder

/-! ## Deletion -/

theorem exists_plug {a : Addr} (member : a ∈ tree.toList) :
    ∃ context left color right, tree = plug context (ColorTree.node left color a right) := by
  induction tree with
  | nil => cases member
  | node left color value right ofLeft ofRight =>
    rcases mem_append.mp member with inLeft | inRest
    · obtain ⟨context, below, belowColor, other, isPlug⟩ := ofLeft inLeft
      refine ⟨context ++ [⟨.left, color, value, right⟩], below, belowColor, other, ?_⟩
      rw [plug_append, ← isPlug]
      rfl
    · rcases mem_cons.mp inRest with isValue | inRight
      · rw [isValue]
        exact ⟨[], left, color, right, rfl⟩
      · obtain ⟨context, below, belowColor, other, isPlug⟩ := ofRight inRight
        refine ⟨context ++ [⟨.right, color, value, left⟩], below, belowColor, other, ?_⟩
        rw [plug_append, ← isPlug]
        rfl

theorem minAfterDelete_spec {context : Context Addr} {left right : ColorTree Addr}
    {color : Color} {a : Addr}
    (located : Located t.nodes context (ColorTree.node left color a right))
    (isMin : t.min = (before context ++ left.toList ++ a :: (right.toList ++ after context)).head?)
    (enough : right.toList.length < t.nrNode + 1) :
    minAfterDelete t (some a) = some (before context ++ left.toList ++
      (right.toList ++ after context)).head? := by
  have outside : a ∉ before context ++ left.toList := by
    have distinct := (tracks_plug.mpr located).distinct
    rw [toList_plug, toList, ← append_assoc, append_assoc, cons_append] at distinct
    have apart := disjoint_of_nodup_append distinct
    intro member
    exact apart member mem_cons_self
  rw [minAfterDelete]
  cases isBefore : before context ++ left.toList with
  | nil =>
    rw [isBefore] at isMin
    obtain ⟨noneBefore, noneLeft⟩ := append_eq_nil_iff.mp isBefore
    cases left with
    | nil =>
      have isLeast : some a = t.min := isMin.symm
      rw [if_pos isLeast, nil_append]
      exact successor_least located noneBefore enough
    | node below belowColor value other => simp [toList] at noneLeft
  | cons least later =>
    rw [isBefore, cons_append, head?_cons] at isMin
    have different : some a ≠ t.min := by
      rw [isMin]
      apply some_ne_some
      rintro rfl
      exact outside (by simp [isBefore])
    rw [if_neg different, isMin]
    rfl

theorem delete_ordered {first second : List (Addr × Data)}
    (shape : Shape t tree (first ++ (node, data) :: second)) (ordered : Ordered cmp t tree) :
    ∃ result newTree, delete node t = some result ∧ Shape result newTree (first ++ second) ∧
      (∀ a, result.cells.dataAt a = t.cells.dataAt a) ∧ Ordered cmp result newTree := by
  have here : (node, data) ∈ first ++ (node, data) :: second := by simp
  obtain ⟨context, left, color, right, isPlug⟩ := exists_plug (shape.mem_tree here)
  have oldList : tree.toList = before context ++ left.toList ++
      node :: (right.toList ++ after context) := by
    rw [isPlug, toList_plug, toList]
    simp
  have located : Located t.nodes context (ColorTree.node left color node right) := by
    apply tracks_plug.mp
    rw [← isPlug]
    exact shape.tracks
  have whole := shape.whole
  rw [isPlug] at whole
  have length := shape.length
  have enough : (plug context (ColorTree.node left color node right)).toList.length ≤ t.nrNode := by
    rw [← isPlug]
    exact length.le
  obtain ⟨removed, newTree, isRemoved, tracks, sentinel, newWhole, newList⟩ :=
    removeNode_spec located whole shape.sentinel enough
  have isMin := ordered.min
  rw [oldList] at isMin length
  simp only [length_append, length_cons] at length
  have isLeast := minAfterDelete_spec located isMin (by omega)
  rw [← newList] at isLeast
  obtain ⟨cell, isCell, _⟩ := Option.map_eq_some_iff.mp (shape.data _ here)
  have isSplit : (first ++ (node, data) :: second).map fst =
    first.map fst ++ node :: second.map fst := by simp
  have distinct := shape.distinct
  have chained := shape.chained
  rw [isSplit] at distinct chained
  have sublist : newTree.toList.Sublist tree.toList := by
    rw [newList, oldList]
    exact (Sublist.refl _).append (sublist_cons_self _ _)
  have gone : node ∉ newTree.toList := by
    have apart := shape.tracks.distinct
    rw [oldList] at apart
    rw [newList]
    exact (nodup_middle.mp apart).notMem
  -- the pointers of the node itself, which is not in the tree any more
  generalize isFinal : ((removed.setChild .right (some node) none).setChild .left
    (some node) none).setParent (some node) none = final
  have finalTracks : Tracks final newTree := by
    rw [← isFinal]
    refine tracks.congr (show _ = removed.root from rfl) ?_
    intro a member
    have different : (some a : Ref) ≠ some node := by
      apply some_ne_some
      rintro rfl
      exact gone member
    refine ⟨fun side => ?_, setParent_parent_of_ne _ different, rfl⟩
    rw [setParent_child, setChild_child_of_ne _ different, setChild_child_of_ne _ different]
  have finalSentinel : final.color none = .black := by
    rw [← isFinal]
    exact sentinel
  obtain ⟨result, isResult, newChained, same⟩ := @chainDel_spec Data { t with
    nodes := final
    min := newTree.toList.head?
    nrNode := t.nrNode - 1
    iter := if t.iter = some node then cell.next else t.iter
    del := if t.iter = some node then true else t.del } node
    (first.map fst) (second.map fst)
    { chained with } distinct
  have sameData : ∀ a, result.cells.dataAt a = t.cells.dataAt a := same.data
  have count := shape.count
  refine ⟨result, newTree, ?_, ⟨?_, ?_, newWhole, ?_, ?_, ?_, ?_, ?_⟩, sameData, ?_, same.min⟩
  · simp only [delete, isLeast, isRemoved, isCell, isFinal, some_bind]
    exact isResult
  · rw [same.nodes]
    exact finalTracks
  · rw [same.nodes]
    exact finalSentinel
  · have old := shape.nodes
    rw [oldList, isSplit] at old
    rw [newList, map_append]
    have moved := (perm_middle.symm.trans old).trans perm_middle
    exact (perm_cons node).mp moved
  · rw [map_append]
    exact newChained
  · rw [same.nrNode]
    change t.nrNode - 1 = _
    rw [count]
    simp
  · intro entry member
    rw [sameData]
    apply shape.data
    rcases mem_append.mp member with early | late
    · exact mem_append_left _ early
    · exact mem_append_right _ (mem_cons_of_mem _ late)
  · intro least isHead
    rw [same.min] at isHead
    exact mem_of_head? isHead
  · apply pairwise_of_data (t := t) _ fun a _ => sameData a
    exact Pairwise.sublist sublist ordered.sorted

/-! ## Search -/

/-- A node that compares equal is found exactly when there is one. -/
structure Finds (cmp : Data → Data → ℤ) (t : Rbtree Data)
    (live : List (Addr × Data)) (key : Data) (found : Ref) : Prop where
  returns : search cmp t key = some found
  node : ∀ a, found = some a → ∃ data, (a, data) ∈ live ∧ cmp key data = 0
  exact : found ≠ none ↔ ∃ entry ∈ live, cmp key entry.2 = 0

theorem search_spec {stored : Set Data} {key : Data}
    (shape : Shape t tree live) (ordered : Ordered cmp t tree)
    (order : TotalPreorderOn cmp stored) (inside : key ∈ stored)
    (known : ∀ entry ∈ live, entry.2 ∈ stored) : ∃ found, Finds cmp t live key found := by
  rcases @searchLoop_spec Data cmp t tree (t.nrNode + 1) key none shape.present
    shape.tracks.represents (by rw [shape.length]; omega) with
    ⟨a, member, isFound, ⟨data, isData, equal⟩⟩ | ⟨path, isPlug, isFound, compared, apart⟩
  · rw [← shape.tracks.root] at isFound
    obtain ⟨_, inLive, same⟩ := shape.entry member
    rw [isData] at same
    cases same
    refine ⟨some a, isFound, ?_, ?_⟩
    · intro other isOther
      cases isOther
      exact ⟨data, inLive, equal⟩
    · exact iff_of_true (Option.some_ne_none a) ⟨(a, data), inLive, equal⟩
  · rw [← shape.tracks.root] at isFound
    obtain ⟨oldList, sorted, allKnown⟩ := shape.way ordered known isPlug
    have noneEqual := different_sides order inside sorted allKnown compared apart
    refine ⟨none, isFound, ?_, ?_⟩
    · intro other impossible
      cases impossible
    · refine iff_of_false (fun absurdity => absurdity rfl) ?_
      rintro ⟨⟨a, data⟩, inLive, equal⟩
      have member := shape.mem_tree inLive
      rw [oldList] at member
      obtain ⟨_, same, notEqual⟩ := noneEqual a member
      rw [shape.data _ inLive] at same
      cases same
      exact notEqual equal

/-! ## Sequences of calls -/

/-- The nodes of the tree after a call, with their data. -/
def liveAfter (live : List (Addr × Data)) : Call Data → List (Addr × Data)
  | .insert node contents => live ++ [(node, contents.data)]
  | .delete node => live.filter fun entry => entry.1 ≠ node

/-- A node that is inserted is not in the tree, and one that is deleted is. -/
def Legal (live : List (Addr × Data)) : Call Data → Prop
  | .insert node _ => node ∉ live.map Prod.fst
  | .delete node => node ∈ live.map Prod.fst

def AllLegal : List (Addr × Data) → List (Call Data) → Prop
  | _, [] => True
  | live, first :: rest => Legal live first ∧ AllLegal (liveAfter live first) rest

def liveAfterAll (live : List (Addr × Data)) (list : List (Call Data)) : List (Addr × Data) :=
  list.foldl liveAfter live

def Stores (stored : Set Data) : Call Data → Prop
  | .insert _ contents => contents.data ∈ stored
  | .delete _ => True

theorem filter_ne_eq {first second : List (Addr × Data)}
    (distinct : ((first ++ (node, data) :: second).map Prod.fst).Nodup) :
    ((first ++ (node, data) :: second).filter fun entry => entry.1 ≠ node) = first ++ second := by
  rw [map_append, map_cons] at distinct
  have outside := (nodup_middle.mp distinct).notMem
  rw [← map_append] at outside
  have kept : ∀ entry ∈ first ++ second, entry.1 ≠ node := by
    intro entry member same
    exact outside (mem_map.mpr ⟨entry, member, same⟩)
  have keepsFirst : first.filter (fun entry => entry.1 ≠ node) = first :=
    filter_eq_self.mpr fun entry member =>
      decide_eq_true (kept entry (mem_append_left _ member))
  have keepsSecond : second.filter (fun entry => entry.1 ≠ node) = second :=
    filter_eq_self.mpr fun entry member =>
      decide_eq_true (kept entry (mem_append_right _ member))
  rw [filter_append, filter_cons_of_neg (by simp), keepsFirst, keepsSecond]

variable {given : Call Data}

theorem call_ordered {stored : Set Data} (order : TotalPreorderOn cmp stored)
    (shape : Shape t tree live) (ordered : Ordered cmp t tree)
    (known : ∀ entry ∈ live, entry.2 ∈ stored)
    (legal : Legal live given) (stores : Stores stored given) :
    ∃ result newTree, call cmp t given = some result ∧ Shape result newTree (liveAfter live given) ∧
      Ordered cmp result newTree := by
  cases given with
  | insert node contents =>
    obtain ⟨written, isData, elsewhere⟩ := store_shape shape contents legal
    have writtenOrdered : Ordered cmp (store node contents t) tree := by
      refine ⟨pairwise_of_data ordered.sorted ?_, ordered.min⟩
      intro a member
      apply elsewhere
      rintro rfl
      exact legal (shape.nodes.mem_iff.mp member)
    obtain ⟨result, newTree, isResult, newShape, _, newOrdered⟩ :=
      insert_ordered written writtenOrdered known legal isData order stores
    exact ⟨result, newTree, isResult, newShape, newOrdered⟩
  | delete node =>
    obtain ⟨⟨_, data⟩, member, rfl⟩ := mem_map.mp legal
    obtain ⟨first, second, rfl⟩ := append_of_mem member
    obtain ⟨result, newTree, isResult, newShape, _, newOrdered⟩ := delete_ordered shape ordered
    refine ⟨result, newTree, isResult, ?_, newOrdered⟩
    rw [liveAfter, filter_ne_eq shape.distinct]
    exact newShape

theorem known_liveAfter {stored : Set Data}
    (known : ∀ entry ∈ live, entry.2 ∈ stored) (stores : Stores stored given) :
    ∀ entry ∈ liveAfter live given, entry.2 ∈ stored := by
  cases given with
  | insert node contents =>
    exact forall_mem_append.mpr ⟨known, forall_mem_singleton.mpr stores⟩
  | delete node =>
    intro entry member
    exact known entry (mem_of_mem_filter member)

theorem calls_ordered {stored : Set Data} (order : TotalPreorderOn cmp stored)
    (shape : Shape t tree live) (ordered : Ordered cmp t tree)
    (known : ∀ entry ∈ live, entry.2 ∈ stored) {list : List (Call Data)}
    (legal : AllLegal live list) (stores : ∀ given ∈ list, Stores stored given) :
    ∃ result newTree, calls cmp t list = some result ∧
      Shape result newTree (liveAfterAll live list) ∧ Ordered cmp result newTree ∧
      ∀ entry ∈ liveAfterAll live list, entry.2 ∈ stored := by
  induction list generalizing t tree live with
  | nil => exact ⟨t, tree, rfl, shape, ordered, known⟩
  | cons given rest ih =>
    have storesGiven := stores given mem_cons_self
    obtain ⟨middle, middleTree, isMiddle, middleShape, middleOrdered⟩ :=
      call_ordered order shape ordered known legal.1 storesGiven
    obtain ⟨result, newTree, isResult, newShape, newOrdered, newKnown⟩ :=
      ih middleShape middleOrdered (known_liveAfter known storesGiven) legal.2
        (forall_mem_cons.mp stores).2
    refine ⟨result, newTree, ?_, newShape, newOrdered, newKnown⟩
    rw [calls, isMiddle]
    exact isResult

theorem new_shape (memory : TreeNodes) (cells : Cells Data) : Shape (new memory cells) nil [] := by
  refine ⟨⟨rfl, trivial, nodup_nil⟩, rfl, ⟨rfl, 0, rfl⟩, .refl _, ⟨trivial, rfl, rfl⟩, rfl, ?_, ?_⟩
  · exact nofun
  · exact nofun

/-- Every sequence of insertions of nodes that are not in the tree and deletions
of nodes that are leaves a red-black tree of exactly these nodes in order, whose
chain has them in the order of their insertion; `min` is the leftmost node, and
a search finds a node that compares equal exactly when there is one. -/
theorem calls_valid (cmp : Data → Data → ℤ) (memory : TreeNodes)
    (cells : Cells Data) (stored : Set Data) (order : TotalPreorderOn cmp stored)
    (list : List (Call Data)) (legal : AllLegal [] list)
    (stores : ∀ given ∈ list, Stores stored given) :
    ∃ t tree, calls cmp (new memory cells) list = some t ∧
      Shape t tree (liveAfterAll [] list) ∧ Ordered cmp t tree ∧
      (t.min = none ↔ liveAfterAll [] list = []) ∧
      ∀ key, TotalPreorderOn cmp (Set.insert key stored) →
        ∃ found, Finds cmp t (liveAfterAll [] list) key found := by
  obtain ⟨t, tree, isResult, shape, ordered, known⟩ :=
    @calls_ordered Data cmp (new memory cells) nil [] stored order
      (new_shape memory cells) ⟨Pairwise.nil, rfl⟩
      (fun entry member => by cases member) list legal stores
  refine ⟨t, tree, isResult, shape, ordered, ?_, ?_⟩
  · rw [ordered.min, head?_eq_none_iff]
    have lengths := shape.nodes.length_eq
    rw [length_map] at lengths
    rw [← length_eq_zero_iff, ← length_eq_zero_iff, lengths]
  · intro key withKey
    exact search_spec shape ordered withKey (mem_insert key stored)
      fun entry member => mem_insert_of_mem key (known entry member)

theorem totalPreorderOn_sub : TotalPreorderOn (fun a b : ℤ => a - b) Set.univ where
  swap := fun a _ b _ => by
    constructor
    · intro less
      omega
    · intro less
      omega
  trans := fun a _ b _ c _ first second => by
    omega

def freshContents (data : ℤ) : Contents ℤ :=
  ⟨data, none, none, fun _ => none, none, .red⟩

def blank : TreeNodes :=
  ⟨fun _ _ => none, fun _ => none, fun _ => .red, none⟩

theorem calls_valid_threeCalls :
    ∃ t tree, calls (fun a b : ℤ => a - b) (new blank fun _ => none)
        [.insert 1 (freshContents 5), .insert 2 (freshContents 3), .delete 1] = some t ∧
      Shape t tree [(2, 3)] := by
  have legal : AllLegal []
      [.insert 1 (freshContents 5), .insert 2 (freshContents 3), .delete 1] := by
    simp [AllLegal, Legal, liveAfter]
  have stores : ∀ given ∈ ([.insert 1 (freshContents 5),
      .insert 2 (freshContents 3), .delete 1] : List (Call ℤ)),
      Stores univ given := by
    intro given _
    cases given with
    | insert | delete => trivial
  obtain ⟨t, tree, isResult, shape, _⟩ :=
    calls_valid (fun a b : ℤ => a - b) blank (fun _ => none) univ totalPreorderOn_sub
      [.insert 1 (freshContents 5), .insert 2 (freshContents 3), .delete 1] legal stores
  exact ⟨t, tree, isResult, shape⟩

/-- Whatever has been inserted and deleted before, the loop of a search for any key ends within
`2 * log₂ (n + 1) + 1` turns in a tree of `n` nodes. -/
theorem search_turns (cmp : Data → Data → ℤ) (memory : TreeNodes) (cells : Cells Data)
    (stored : Set Data) (order : TotalPreorderOn cmp stored) (list : List (Call Data))
    (legal : AllLegal [] list) (stores : ∀ given ∈ list, Stores stored given) :
    ∃ t, calls cmp (new memory cells) list = some t ∧ ∀ key, (search cmp t key).isSome ∧
      ∀ turns, 2 * Nat.log 2 ((liveAfterAll [] list).length + 1) < turns →
        searchLoop cmp t key turns t.nodes.root = search cmp t key := by
  obtain ⟨t, tree, isResult, shape, _⟩ := @calls_ordered Data cmp (new memory cells) nil [] stored
    order (new_shape memory cells) ⟨Pairwise.nil, rfl⟩ nofun list legal stores
  have represents := shape.tracks.represents
  have deep := @depth_le_length _ tree
  obtain ⟨isBlack, height, redBlack⟩ := shape.whole
  have short := redBlack.depth_le
  have log := Nat.le_log_of_pow_le one_lt_two redBlack.two_pow_le
  rw [shape.length] at log deep
  simp only [isBlack, Color.weight] at short
  refine ⟨t, isResult, fun key => ?_⟩
  rw [search, shape.tracks.root, ← shape.count]
  constructor
  · rcases @searchLoop_spec Data cmp t tree _ key none shape.present represents
      (by rw [shape.length]; exact lt_add_one _) with ⟨_, _, isEnd, _⟩ | ⟨_, _, isEnd, _⟩
    · simp [isEnd]
    · simp [isEnd]
  · intro turns enough
    exact searchLoop_deep represents (by omega) (by omega)

theorem search_turns_oneCall :
    ∃ t, calls (fun a b : ℤ => a - b) (new blank fun _ => none) [.insert 1 (freshContents 5)] =
      some t ∧ ∀ key, searchLoop (fun a b : ℤ => a - b) t key 3 t.nodes.root =
        search (fun a b : ℤ => a - b) t key := by
  have ⟨t, isResult, ends⟩ := search_turns (fun a b : ℤ => a - b) blank (fun _ => none) univ
    totalPreorderOn_sub [.insert 1 (freshContents 5)] (by simp [AllLegal, Legal])
    (forall_mem_singleton.mpr trivial)
  exact ⟨t, isResult, fun key => (ends key).2 3 (by decide)⟩

end Skyc.Melon.Rbtree
