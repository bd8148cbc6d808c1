import Skyc.Melon.Rbtree.Surgery

/-!
# Ways through the tree

The loops of `mln_rbtree_insert` and `mln_rbtree_search` go down the tree and
compare at every node.  What they say about the nodes that they pass holds, in a
tree in order, for everything on either side of the way.
-/

namespace Skyc.Melon.Rbtree

open Skyc.Lib TreeNodes ColorTree Context Nat Int

variable {Data : Type} {cmp : Data → Data → ℤ} {t : Rbtree Data}
  {context path : Context Addr} {tree : ColorTree Addr}

/-! ## Comparisons -/

/-- The comparison is that of a total preorder on some data. -/
structure TotalPreorderOn (cmp : Data → Data → ℤ) (stored : Set Data) : Prop where
  swap : ∀ a ∈ stored, ∀ b ∈ stored, cmp a b < 0 ↔ 0 < cmp b a
  trans : ∀ a ∈ stored, ∀ b ∈ stored, ∀ c ∈ stored, cmp a b ≤ 0 → cmp b c ≤ 0 → cmp a c ≤ 0

namespace TotalPreorderOn

variable {stored smaller : Set Data}

section

variable {a b c : Data} (order : TotalPreorderOn cmp stored) (inA : a ∈ stored) (inB : b ∈ stored)
include order inA inB

theorem le_swap : 0 ≤ cmp a b ↔ cmp b a ≤ 0 := by
  have swapped := order.swap a inA b inB
  omega

theorem lt_of_lt_of_le (inC : c ∈ stored) (first : cmp a b < 0)
    (second : cmp b c ≤ 0) : cmp a c < 0 := by
  by_contra notLess
  have back := (order.le_swap inA inC).mp (not_lt.mp notLess)
  have closed := order.trans b inB c inC a inA second back
  have forth := (order.swap a inA b inB).mp first
  omega

theorem lt_of_le_of_lt (inC : c ∈ stored) (first : cmp a b ≤ 0)
    (second : cmp b c < 0) : cmp a c < 0 := by
  by_contra notLess
  have back := (order.le_swap inA inC).mp (not_lt.mp notLess)
  have closed := order.trans c inC a inA b inB back first
  have forth := (order.swap b inB c inC).mp second
  omega

end

end TotalPreorderOn

/-- The data of a node come before the data of another one. -/
def Precedes (cmp : Data → Data → ℤ) (t : Rbtree Data) (a b : Addr) : Prop :=
  ∃ first second, t.cells.dataAt a = some first ∧
    t.cells.dataAt b = some second ∧ cmp first second ≤ 0

def DataSatisfies (t : Rbtree Data) (property : Data → Prop) (a : Addr) : Prop :=
  ∃ data, t.cells.dataAt a = some data ∧ property data

/-- The comparisons on the way from the root to a hole. -/
def Compared (cmp : Data → Data → ℤ) (t : Rbtree Data) (data : Data) (path : Context Addr) : Prop :=
  ∀ frame ∈ path, ∃ found, t.cells.dataAt frame.value = some found ∧
    frame.side = if cmp data found < 0 then .left else .right

variable {frame : Frame Addr}

theorem Compared.concat {data : Data} (compared : Compared cmp t data path)
    (top : ∃ found, t.cells.dataAt frame.value = some found ∧
      frame.side = if cmp data found < 0 then .left else .right) :
    Compared cmp t data (path ++ [frame]) :=
  List.forall_mem_append.mpr ⟨compared, List.forall_mem_singleton.mpr top⟩

/-! ## The way of an insertion -/

variable {turns : ℕ}

theorem descend_spec {data : Data}
    (present : ∀ a ∈ tree.toList, ∃ found, t.cells.dataAt a = some found)
    (represents : Represents t.nodes (upper context) tree) (enough : tree.toList.length < turns) :
    ∃ path, tree = plug path nil ∧
      descend cmp t data turns tree.root (upper context) = some (upper (path ++ context)) ∧
      Compared cmp t data path := by
  induction tree generalizing context turns with
  | nil =>
    obtain ⟨fewer, rfl⟩ : ∃ fewer, turns = fewer + 1 := exists_eq_succ_of_ne_zero (by omega)
    refine ⟨[], rfl, rfl, ?_⟩
    exact nofun
  | node left color value right ofLeft ofRight =>
    simp only [toList, List.length_append, List.length_cons] at enough
    obtain ⟨fewer, rfl⟩ : ∃ fewer, turns = fewer + 1 := exists_eq_succ_of_ne_zero (by omega)
    obtain ⟨holds, leftRepresents, rightRepresents⟩ := represents
    obtain ⟨found, isFound⟩ := present value (by simp [toList])
    by_cases less : cmp data found < 0
    · obtain ⟨path, isPlug, isEnd, compared⟩ :=
        @ofLeft (⟨.left, color, value, right⟩ :: context) fewer
          (fun a member => present a (by simp [toList, member])) leftRepresents (by omega)
      refine ⟨path ++ [⟨.left, color, value, right⟩], ?_, ?_,
        compared.concat ⟨found, isFound, (if_pos less).symm⟩⟩
      · rw [plug_append, ← isPlug]
        rfl
      · rw [List.append_assoc]
        change descend cmp t data (fewer + 1) (some value) _ = _
        rw [descend, isFound, some_bind, if_pos less, holds.near]
        exact isEnd
    · obtain ⟨path, isPlug, isEnd, compared⟩ :=
        @ofRight (⟨.right, color, value, left⟩ :: context) fewer
          (fun a member => present a (by simp [toList, member])) rightRepresents (by omega)
      refine ⟨path ++ [⟨.right, color, value, left⟩], ?_, ?_,
        compared.concat ⟨found, isFound, (if_neg less).symm⟩⟩
      · rw [plug_append, ← isPlug]
        rfl
      · rw [List.append_assoc]
        change descend cmp t data (fewer + 1) (some value) _ = _
        rw [descend, isFound, some_bind, if_neg less]
        have isRight : t.nodes.child .right (some value) = right.root := holds.far
        rw [isRight]
        exact isEnd

theorem sideOf_spec {data : Data} (compared : Compared cmp t data path) :
    ∃ side, sideOf cmp t data (upper path) = some side ∧
      ∀ frame rest, path = frame :: rest → side = frame.side := by
  cases path with
  | nil =>
    refine ⟨.left, rfl, ?_⟩
    exact nofun
  | cons frame rest =>
    obtain ⟨found, isFound, isSide⟩ := compared frame List.mem_cons_self
    refine ⟨frame.side, ?_, ?_⟩
    · rw [upper, sideOf, isFound, isSide]
      rfl
    · rintro other remaining same
      cases same
      rfl

section Ordered

variable {stored : Set Data} {data : Data}

/-- What is said about the data at the nodes of a way, and passes on to the nodes before
or after them, holds on the two sides of the way. -/
theorem sides_of_way {left right : Data → Prop}
    (sorted : (before path ++ after path).Pairwise (Precedes cmp t))
    (known : ∀ a ∈ before path ++ after path, DataSatisfies t (· ∈ stored) a)
    (leftClosed : ∀ a ∈ stored, ∀ b ∈ stored, cmp a b ≤ 0 → left b → left a)
    (rightClosed : ∀ a ∈ stored, ∀ b ∈ stored, cmp a b ≤ 0 → right a → right b)
    (atFrames : ∀ frame ∈ path, (frame.side = .right → DataSatisfies t left frame.value) ∧
      (frame.side = .left → DataSatisfies t right frame.value)) :
    (∀ a ∈ before path, DataSatisfies t left a) ∧ ∀ a ∈ after path, DataSatisfies t right a := by
  have sortedKnown : (before path ++ after path).Pairwise fun a b =>
      Precedes cmp t a b ∧ DataSatisfies t (· ∈ stored) a ∧ DataSatisfies t (· ∈ stored) b :=
    sorted.imp_of_mem fun inA inB precedes =>
      ⟨precedes, known _ inA, known _ inB⟩
  apply steered sortedKnown _ _ atFrames
  · rintro a b ⟨⟨first, second, atA, atB, ordered⟩, ⟨_, sameA, inA⟩,
      ⟨_, sameB, inB⟩⟩ ⟨_, againB, holds⟩
    rw [atA] at sameA
    rw [atB] at sameB againB
    cases sameA
    cases sameB
    cases againB
    exact ⟨first, atA, leftClosed _ inA _ inB ordered holds⟩
  · rintro a b ⟨⟨first, second, atA, atB, ordered⟩, ⟨_, sameA, inA⟩,
      ⟨_, sameB, inB⟩⟩ ⟨_, againA, holds⟩
    rw [atA] at sameA againA
    rw [atB] at sameB
    cases sameA
    cases sameB
    cases againA
    exact ⟨second, atB, rightClosed _ inA _ inB ordered holds⟩

theorem mem_context_values (member : frame ∈ path) : frame.value ∈ before path ++ after path := by
  induction path with
  | nil => cases member
  | cons top rest ih =>
    rw [before, after]
    rcases List.mem_cons.mp member with isTop | below
    · rw [isTop]
      cases top.side with
      | left | right => simp
    · have above := ih below
      simp only [List.mem_append] at above ⊢
      tauto

/-- The data on the left of the way of an insertion are not greater, and those
on its right are greater. -/
theorem compared_sides (order : TotalPreorderOn cmp stored) (inside : data ∈ stored)
    (sorted : (before path ++ after path).Pairwise (Precedes cmp t))
    (known : ∀ a ∈ before path ++ after path, DataSatisfies t (· ∈ stored) a)
    (compared : Compared cmp t data path) :
    (∀ a ∈ before path, DataSatisfies t (fun found => cmp found data ≤ 0) a) ∧
      ∀ a ∈ after path, DataSatisfies t (fun found => cmp data found < 0) a := by
  apply sides_of_way sorted known
  · intro a inA b inB ordered notAbove
    exact order.trans a inA b inB data inside ordered notAbove
  · intro a inA b inB ordered above
    exact order.lt_of_lt_of_le inside inA inB above ordered
  · intro frame member
    obtain ⟨found, isFound, isSide⟩ := compared frame member
    obtain ⟨_, same, inFound⟩ := known _ (mem_context_values member)
    rw [isFound] at same
    cases same
    rw [isSide]
    by_cases less : cmp data found < 0
    · rw [if_pos less]
      refine ⟨?_, fun _ => ⟨found, isFound, less⟩⟩
      exact nofun
    · rw [if_neg less]
      refine ⟨fun _ => ⟨found, isFound, ?_⟩, ?_⟩
      · exact (order.le_swap inside inFound).mp (not_lt.mp less)
      · exact nofun

end Ordered

/-! ## The way of a search -/

/-- The search ends at a node that compares equal, or at a hole of the tree. -/
theorem searchLoop_spec {key : Data} {above : Ref}
    (present : ∀ a ∈ tree.toList, ∃ found, t.cells.dataAt a = some found)
    (represents : Represents t.nodes above tree) (enough : tree.toList.length < turns) :
    (∃ a ∈ tree.toList, searchLoop cmp t key turns tree.root = some (some a) ∧
        DataSatisfies t (fun found => cmp key found = 0) a) ∨
      ∃ path, tree = plug path nil ∧ searchLoop cmp t key turns tree.root = some none ∧
        Compared cmp t key path ∧
        ∀ frame ∈ path, DataSatisfies t (fun found => cmp key found ≠ 0) frame.value := by
  induction tree generalizing above turns with
  | nil =>
    obtain ⟨fewer, rfl⟩ : ∃ fewer, turns = fewer + 1 := exists_eq_succ_of_ne_zero (by omega)
    refine .inr ⟨[], rfl, rfl, ?_, ?_⟩
    · exact nofun
    · exact nofun
  | node left color value right ofLeft ofRight =>
    simp only [toList, List.length_append, List.length_cons] at enough
    obtain ⟨fewer, rfl⟩ : ∃ fewer, turns = fewer + 1 := exists_eq_succ_of_ne_zero (by omega)
    obtain ⟨holds, leftRepresents, rightRepresents⟩ := represents
    obtain ⟨found, isFound⟩ := present value (by simp [toList])
    have isRight : t.nodes.child .right (some value) = right.root := holds.far
    have unfolded : searchLoop cmp t key (fewer + 1) (node left color value right).root =
        if cmp key found = 0 then some (some value)
        else searchLoop cmp t key fewer (if cmp key found < 0 then left.root else right.root) := by
      change searchLoop cmp t key (fewer + 1) (some value) = _
      rw [searchLoop, isFound, some_bind, holds.near, isRight]
    rw [unfolded]
    by_cases equal : cmp key found = 0
    · refine .inl ⟨value, by simp [toList], if_pos equal, found, isFound, equal⟩
    · rw [if_neg equal]
      have here : DataSatisfies t (fun found => cmp key found ≠ 0) value := ⟨found, isFound, equal⟩
      -- the frame of this node goes on top of the way below it
      by_cases less : cmp key found < 0
      · rw [if_pos less]
        rcases @ofLeft fewer _ (fun a member => present a (by simp [toList, member]))
          leftRepresents (by omega) with
          ⟨a, member, isEnd, satisfied⟩ | ⟨path, isPlug, isEnd, compared, apart⟩
        · exact .inl ⟨a, by simp [toList, member], isEnd, satisfied⟩
        · refine .inr ⟨path ++ [⟨.left, color, value, right⟩], ?_, isEnd,
            compared.concat ⟨found, isFound, (if_pos less).symm⟩,
            List.forall_mem_append.mpr ⟨apart, List.forall_mem_singleton.mpr here⟩⟩
          rw [plug_append, ← isPlug]
          rfl
      · rw [if_neg less]
        rcases @ofRight fewer _ (fun a member => present a (by simp [toList, member]))
          rightRepresents (by omega) with
          ⟨a, member, isEnd, satisfied⟩ | ⟨path, isPlug, isEnd, compared, apart⟩
        · exact .inl ⟨a, by simp [toList, member], isEnd, satisfied⟩
        · refine .inr ⟨path ++ [⟨.right, color, value, left⟩], ?_, isEnd,
            compared.concat ⟨found, isFound, (if_neg less).symm⟩,
            List.forall_mem_append.mpr ⟨apart, List.forall_mem_singleton.mpr here⟩⟩
          rw [plug_append, ← isPlug]
          rfl

/-- Turns beyond the depth of the tree make no difference to a search. -/
theorem searchLoop_deep {key : Data} {above : Ref} {others : ℕ}
    (represents : Represents t.nodes above tree) (enough : tree.depth < turns)
    (more : tree.depth < others) :
    searchLoop cmp t key turns tree.root = searchLoop cmp t key others tree.root := by
  induction tree generalizing above turns others with
  | nil =>
    match turns, others, enough, more with
    | _ + 1, _ + 1, _, _ => rfl
  | node left color value right ofLeft ofRight =>
    match turns, others, enough, more with
    | turns + 1, others + 1, enough, more =>
      obtain ⟨holds, leftRepresents, rightRepresents⟩ := represents
      have isRight : t.nodes.child .right (some value) = right.root := holds.far
      have ⟨leftEnough, rightEnough⟩ := max_lt_iff.mp (Nat.lt_of_succ_lt_succ enough)
      have ⟨leftMore, rightMore⟩ := max_lt_iff.mp (Nat.lt_of_succ_lt_succ more)
      have onLeft := ofLeft leftRepresents leftEnough leftMore
      have onRight := ofRight rightRepresents rightEnough rightMore
      simp only [ColorTree.root, searchLoop, holds.near, isRight]
      congr 1
      funext data
      split_ifs
      · rfl
      · exact onLeft
      · exact onRight

/-- No data compare equal on either side of a way on which none do. -/
theorem different_sides {stored : Set Data} {key : Data}
    (order : TotalPreorderOn cmp stored) (inside : key ∈ stored)
    (sorted : (before path ++ after path).Pairwise (Precedes cmp t))
    (known : ∀ a ∈ before path ++ after path, DataSatisfies t (· ∈ stored) a)
    (compared : Compared cmp t key path) (apart : ∀ frame ∈ path,
      DataSatisfies t (fun found => cmp key found ≠ 0) frame.value) :
    ∀ a ∈ before path ++ after path, DataSatisfies t (fun found => cmp key found ≠ 0) a := by
  have sides : (∀ a ∈ before path, DataSatisfies t (fun found => cmp found key < 0) a) ∧
      ∀ a ∈ after path, DataSatisfies t (fun found => cmp key found < 0) a := by
    apply sides_of_way sorted known
    · intro a inA b inB ordered below
      exact order.lt_of_le_of_lt inA inB inside ordered below
    · intro a inA b inB ordered above
      exact order.lt_of_lt_of_le inside inA inB above ordered
    · intro frame member
      obtain ⟨found, isFound, isSide⟩ := compared frame member
      obtain ⟨_, same, inFound⟩ := known _ (mem_context_values member)
      obtain ⟨_, again, notEqual⟩ := apart frame member
      rw [isFound] at same again
      cases same
      cases again
      rw [isSide]
      by_cases less : cmp key found < 0
      · rw [if_pos less]
        refine ⟨?_, fun _ => ⟨found, isFound, less⟩⟩
        exact nofun
      · rw [if_neg less]
        refine ⟨fun _ => ⟨found, isFound, ?_⟩, ?_⟩
        · have swapped := order.swap found inFound key inside
          omega
        · exact nofun
  intro a member
  obtain ⟨found, isFound, inFound⟩ := known a member
  rcases List.mem_append.mp member with toTheLeft | toTheRight
  · obtain ⟨_, same, below⟩ := sides.1 a toTheLeft
    rw [isFound] at same
    cases same
    refine ⟨found, isFound, ?_⟩
    have swapped := order.swap found inFound key inside
    show cmp key found ≠ 0
    omega
  · obtain ⟨_, same, above⟩ := sides.2 a toTheRight
    rw [isFound] at same
    cases same
    refine ⟨found, isFound, ?_⟩
    show cmp key found ≠ 0
    omega

/-! ## The leftmost node -/

variable {color : Color} {right : ColorTree Addr}

theorem head_plug_least {least : Addr} (noneBefore : before path = []) :
    (plug path (node nil color least right)).toList.head? = some least := by
  rw [toList_plug, noneBefore]
  rfl

theorem successor_least {nodes : TreeNodes}
    {a : Addr} (located : Located nodes context (node nil color a right))
    (noneBefore : before context = []) (enough : right.toList.length < turns) :
    successor nodes turns (some a) = some (right.toList ++ after context).head? := by
  have holds : Holds nodes a (upper context) .left none color right.root := located.represents.1
  have isRight : nodes.child .right (some a) = right.root := holds.far
  rw [successor, isRight, holds.parent]
  by_cases isNil : right = nil
  · subst isNil
    rw [if_neg fun both => both.2 rfl]
    obtain ⟨fewer, rfl⟩ : ∃ fewer, turns = fewer + 1 := exists_eq_succ_of_ne_zero (by omega)
    rw [successorLoop]
    cases context with
    | nil => rfl
    | cons frame rest =>
      obtain ⟨side, frameColor, value, sibling⟩ := frame
      cases side with
      | right => simp [before] at noneBefore
      | left =>
        have isSibling : nodes.child .right (some value) = sibling.root := located.surrounds.1.far
        have notSibling : some a ≠ sibling.root := by
          intro same
          have here : a ∈ (node nil color a nil).toList := by simp [toList]
          have member := mem_of_root same.symm
          apply located.notMem_context here
          simp [values, member]
        rw [if_neg]
        · rfl
        · rintro ⟨_, isChild⟩
          exact notSibling (isChild.trans isSibling)
  · have notNone : right.root ≠ none := fun isNone =>
      isNil (root_eq_none.mp isNone)
    rw [if_pos ⟨Option.some_ne_none a, notNone⟩]
    obtain ⟨path, leastColor, least, leastRight, isPlug, noneBeforeLeast,
      isLeast⟩ := minimum_spec located.represents.2.2 isNil (lt_succ_of_lt enough)
    have isHead : right.toList.head? = some least := by
      rw [isPlug]
      exact head_plug_least noneBeforeLeast
    rw [isLeast, List.head?_append, isHead]
    rfl

end Skyc.Melon.Rbtree
