import Skyc.Utils.Hashmap.Contents

/-!
# Iterating over the hash map

An iterator holds the next item of the chain it is in and the position behind
that chain.  A loop over the map may delete the item it has just been given:
the iterator has passed it by then.
-/

namespace Skyc.Utils.Hashmap

open Skyc.Lib List

/-- `hash_map_iterator_t` without its pointer to the map. -/
structure HashMapIterator where
  item : Option Addr
  pos : Nat

def hashMapItInit : HashMapIterator := ⟨none, 0⟩

variable {Value : Type}

/-- The loop over empty positions; the first number is `capacity - pos`. -/
def skipEmpty (map : HashMap Value) : Nat → Nat → Option Nat
  | 0, pos => some pos
  | remaining + 1, pos => do
    match ← map.pool[pos]? with
    | none => skipEmpty map remaining (pos + 1)
    | some _ => some pos

/-- `hash_map_it_next`: what it stores when it returns 0, and the iterator. -/
def hashMapItNext (map : HashMap Value) (it : HashMapIterator) :
    Option (Option (CString × Option Value) × HashMapIterator) :=
  match it.item with
  | some cur => do
    let node ← map.heap.cells cur
    some (some (node.data.key, node.data.val), { it with item := node.next })
  | none => do
    let pos ← skipEmpty map (map.capacity - it.pos) it.pos
    if map.capacity ≤ pos then
      some (none, { it with pos := pos })
    else
      match ← map.pool[pos]? with
      | none => some (none, { it with pos := pos })
      | some cur =>
        let node ← map.heap.cells cur
        some (some (node.data.key, node.data.val), ⟨node.next, pos + 1⟩)

/-- `HASH_MAP_FOREACH` over the map of a state that the body may change: what
the iterator has stored, and the last state. -/
def hashMapForeach {State : Type} (mapOf : State → HashMap Value)
    (body : State → CString → Option State) :
    Nat → State → HashMapIterator → Option (List (CString × Option Value) × State)
  | 0, _, _ => none
  | fuel + 1, state, it => do
    match ← hashMapItNext (mapOf state) it with
    | (none, _) => some ([], state)
    | (some (key, val), it) =>
      let state ← body state key
      let (others, final) ← hashMapForeach mapOf body fuel state it
      some ((key, val) :: others, final)

/-! ## Where an iterator stands -/

/-- The items an iterator has passed and those ahead of it. -/
inductive Stands : List (Chain Value) → HashMapIterator → Chain Value → Chain Value → Prop
  | between (before later : List (Chain Value)) :
    Stands (before ++ later) ⟨none, before.length⟩ before.flatten later.flatten
  | within (before : List (Chain Value)) (front : Chain Value) (node : Addr × Item Value)
    (rest : Chain Value) (later : List (Chain Value)) :
    Stands (before ++ (front ++ node :: rest) :: later) ⟨some node.1, before.length + 1⟩
      (before.flatten ++ front) (node :: rest ++ later.flatten)

variable {it : HashMapIterator}

theorem Stands.flatten {chains : List (Chain Value)}
    {passed ahead : Chain Value} (stands : Stands chains it passed ahead) :
    chains.flatten = passed ++ ahead := by
  cases stands with
  | between before later => rw [flatten_append]
  | within before front node rest later => simp

theorem stands_behind (before : List (Chain Value)) (front rest : Chain Value)
    (later : List (Chain Value)) :
    Stands (before ++ (front ++ rest) :: later) ⟨headOr rest none, before.length + 1⟩
      (before.flatten ++ front) (rest ++ later.flatten) := by
  cases rest with
  | nil =>
    have stands := Stands.between (before ++ [front]) later
    simpa using stands
  | cons node rest => exact .within before front node rest later

variable {map : HashMap Value} {before later chains : List (Chain Value)} {chain : Chain Value}

theorem Rep.pool_at (rep : Rep map (before ++ chain :: later)) :
    map.pool[before.length]? = some (headOr chain none) := rep.getElem?_pool (by simp)

theorem Rep.linked_at (rep : Rep map (before ++ chain :: later)) :
    Linked map.heap.cells chain none := rep.linked chain (by simp)

theorem skipEmpty_spec (rep : Rep map (before ++ later)) :
    ∃ empties rest, later = empties ++ rest ∧ empties.flatten = [] ∧
      skipEmpty map later.length before.length = some (before ++ empties).length ∧
      ∀ chain ∈ rest.head?, chain ≠ [] := by
  induction later generalizing before with
  | nil => exact ⟨[], [], rfl, rfl, by simp [skipEmpty], nofun⟩
  | cons chain later ih =>
    have inPool := rep.pool_at
    cases chain with
    | nil =>
      rw [append_cons] at rep
      obtain ⟨empties, rest, rfl, isEmpty, skipped, found⟩ := ih rep
      refine ⟨[] :: empties, rest, rfl, isEmpty, ?_, found⟩
      have isLength : (before ++ [[]]).length = before.length + 1 := by simp
      rw [isLength] at skipped
      rw [append_cons before]
      simp only [length_cons, skipEmpty, inPool, headOr_nil, some_bind, skipped]
    | cons node rest =>
      refine ⟨[], (node :: rest) :: later, rfl, rfl, ?_, by simp⟩
      simp only [length_cons, skipEmpty, inPool, headOr_cons, some_bind, append_nil]

theorem hashMapItNext_spec {passed ahead : Chain Value}
    (rep : Rep map chains) (stands : Stands chains it passed ahead) :
    (ahead = [] ∧ ∃ last, hashMapItNext map it = some (none, last)) ∨
      ∃ before front node rest later, chains = before ++ (front ++ node :: rest) :: later ∧
        passed = before.flatten ++ front ∧ ahead = node :: rest ++ later.flatten ∧
        hashMapItNext map it =
          some (some (node.2.key, node.2.val), ⟨headOr rest none, before.length + 1⟩) := by
  cases stands with
  | within before front node rest later =>
    have atNode := (linked_append.mp rep.linked_at).2.1
    refine .inr ⟨before, front, node, rest, later, rfl, rfl, rfl, ?_⟩
    simp only [hashMapItNext, atNode, some_bind]
  | between before later =>
    obtain ⟨empties, rest, rfl, isEmpty, skipped, found⟩ := skipEmpty_spec rep
    have capacity := rep.capacity
    have room : map.capacity - before.length = (empties ++ rest).length := by
      rw [capacity, length_append, Nat.add_sub_cancel_left]
    rw [← append_assoc] at rep capacity
    match rest with
    | [] =>
      refine .inl ⟨by simp [isEmpty], ⟨none, (before ++ empties).length⟩, ?_⟩
      have atEnd : map.capacity ≤ (before ++ empties).length := by
        rw [capacity, append_nil]
      simp only [hashMapItNext, room, skipped, some_bind, if_pos atEnd]
    | (node :: rest) :: later =>
      refine .inr ⟨before ++ empties, [], node, rest, later, by simp, by simp [isEmpty],
        by simp [isEmpty], ?_⟩
      have inside : ¬map.capacity ≤ (before ++ empties).length := by
        rw [capacity]
        simp
      simp only [hashMapItNext, room, skipped, some_bind,
        if_neg inside, rep.pool_at, headOr_cons, rep.linked_at.1]
    | [] :: later => exact absurd rfl (found [] rfl)

/-! ## Loops -/

section Loops

variable {State : Type} (mapOf : State → HashMap Value) (body : State → CString → Option State)
  (good : State → List (Chain Value) → Prop) (kept : Bool)

/-- What the items ahead of an iterator make it store. -/
def shown (items : Chain Value) : List (CString × Option Value) :=
  items.map fun node => (node.2.key, node.2.val)

/-- If the body may take the item at hand out but changes no other one, the iterator
shows every item once. -/
theorem hashMapForeach_spec (isRep : ∀ state chains, good state chains → Rep (mapOf state) chains)
    (turn : ∀ state before front node rest later,
      good state (before ++ (front ++ node :: rest) :: later) →
      (kept = false → before.flatten ++ front = []) →
      ∃ after, body state node.2.key = some after ∧
        good after (before ++ (front ++ (if kept then [node] else []) ++ rest) :: later))
    {fuel : ℕ} {state : State} {passed ahead : Chain Value}
    (isGood : good state chains) (stands : Stands chains it passed ahead)
    (emptied : kept = false → passed = []) (enough : ahead.length < fuel) :
    ∃ final chainsAfter, hashMapForeach mapOf body fuel state it = some (shown ahead, final) ∧
      good final chainsAfter ∧ chainsAfter.flatten = if kept then passed ++ ahead else [] := by
  induction fuel generalizing state chains it passed ahead with
  | zero => cases enough
  | succ fuel ih =>
    rcases hashMapItNext_spec (isRep state chains isGood) stands with
      ⟨rfl, last, ended⟩ | ⟨before, front, node, rest, later, rfl, rfl, rfl, yielded⟩
    · refine ⟨state, chains, ?_, isGood, ?_⟩
      · simp only [hashMapForeach, ended, some_bind]
        rfl
      · rw [stands.flatten]
        cases kept with
        | false => simp [emptied rfl]
        | true => rfl
    · obtain ⟨after, changed, isGoodAfter⟩ := turn state before front node rest later isGood emptied
      obtain ⟨final, chainsAfter, looped, isGoodFinal, left⟩ := ih isGoodAfter (stands_behind ..)
        (by rintro rfl; simpa using emptied rfl) (Nat.lt_of_succ_lt_succ enough)
      refine ⟨final, chainsAfter, ?_, isGoodFinal, ?_⟩
      · simp only [hashMapForeach, yielded, changed, looped, some_bind]
        rfl
      · rw [left]
        cases kept with
        | false => rfl
        | true => simp

end Loops

/-! ## Deleting the item at hand -/

section Deleting

variable {config : Config} {contents : Contents Value} {rest : Chain Value}
  {node : Addr × Item Value}

theorem hashMapDelete_first
    (valid : Valid config map (before ++ (node :: rest) :: later) contents) :
    ∃ after, hashMapDelete config map (some node.2.key) 0 = some (after, node.2.val) ∧
      Valid config after (before ++ rest :: later) (Function.update contents node.2.key none) := by
  have present : (before ++ (node :: rest) :: later)[before.length]? =
    some ([] ++ node :: rest) := by simp
  have position := valid.placed _ _ present node mem_cons_self
  rw [AtPosition, valid.hash_eq present] at position
  obtain ⟨front, back, present', inPool, found, outcome⟩ := valid.locate node.2.key none
  rw [position, present, Option.some.injEq] at present'
  rw [position] at inPool
  have keys := valid.holds.keys
  have inChain : (node :: rest).Sublist (before ++ (node :: rest) :: later).flatten := by simp
  rw [map_map] at keys
  have nodup := nodup_cons.mp (keys.sublist (inChain.map _))
  rcases outcome with ⟨-, notThere⟩ | ⟨node', rest', rfl, sameKey⟩
  · exact absurd rfl (notThere node.2 (by simp))
  · cases front with
    | cons first front =>
      cases present'
      exact absurd (by simp [sameKey]) nodup.1
    | nil =>
      cases present'
      obtain ⟨unlinked, heap, unlink, freed, validAfter⟩ := valid.remove present
      rw [set_append_right _ _ (Nat.le_refl _), Nat.sub_self, set_cons_zero] at validAfter
      refine ⟨_, ?_, validAfter⟩
      simp only [hashMapDelete, lookupHash, inPool, found, some_bind,
        headOr_cons, valid.rep.linked_at.1, position, unlink, freed]
      rfl

/-- Every live key is shown once, with its value. -/
def ShowsLive (contents : Contents Value) (yielded : List (CString × Option Value)) : Prop :=
  (yielded.map Prod.fst).Nodup ∧ ∀ key val, (key, val) ∈ yielded ↔ contents key = some val

section

variable (valid : Valid config map chains contents)
include valid

theorem Valid.showsLive : ShowsLive contents (shown chains.flatten) := by
  constructor
  · have keys := valid.holds.keys
    rw [map_map] at keys
    rw [shown, map_map]
    exact keys
  · intro key val
    rw [valid.holds.shown, shown, mem_map]
    constructor
    · rintro ⟨node, member, same⟩
      cases same
      exact ⟨node.2, mem_map_of_mem member, rfl, rfl⟩
    · rintro ⟨item, member, rfl, rfl⟩
      obtain ⟨node, inChains, rfl⟩ := mem_map.mp member
      exact ⟨node, inChains, rfl⟩

theorem Valid.enough : chains.flatten.length < map.count + 1 := by
  rw [valid.counted]
  exact lt_add_one _

theorem Valid.foreach :
    ∃ yielded, hashMapForeach id (fun map _ => some map) (map.count + 1) map hashMapItInit =
      some (yielded, map) ∧ ShowsLive contents yielded := by
  obtain ⟨final, _, looped, ⟨rfl, _⟩, _⟩ := hashMapForeach_spec id (fun map _ => some map)
    (fun state chains => state = map ∧ Rep state chains) true (fun _ _ isGood => isGood.2)
    (fun state _ _ _ _ _ isGood _ => ⟨state, rfl, by simpa using isGood⟩)
    ⟨rfl, valid.rep⟩ (.between [] chains) nofun valid.enough
  exact ⟨_, looped, valid.showsLive⟩

theorem Valid.foreach_delete :
    ∃ yielded final, hashMapForeach id
          (fun map key => (hashMapDelete config map (some key) 0).map Prod.fst)
          (map.count + 1) map hashMapItInit = some (yielded, final) ∧
        ShowsLive contents yielded ∧ hashMapCount final = some 0 := by
  obtain ⟨final, _, looped, ⟨_, validAfter⟩, emptied⟩ := hashMapForeach_spec id
    (fun map key => (hashMapDelete config map (some key) 0).map Prod.fst)
    (fun map chains => ∃ contents, Valid config map chains contents) false (by
      rintro map chains ⟨contents, valid⟩
      exact valid.rep)
    (by
      rintro map before front node rest later ⟨contents, valid⟩ first
      obtain ⟨_, rfl⟩ := append_eq_nil_iff.mp (first rfl)
      obtain ⟨after, deleted, validAfter⟩ := hashMapDelete_first valid
      exact ⟨after, by rw [deleted, Option.map_some], _, by simpa using validAfter⟩)
    ⟨_, valid⟩ (.between [] chains) (fun _ => rfl) valid.enough
  refine ⟨_, final, looped, valid.showsLive, ?_⟩
  rw [hashMapCount_spec validAfter.rep, emptied]
  rfl

end

end Deleting

end Skyc.Utils.Hashmap
