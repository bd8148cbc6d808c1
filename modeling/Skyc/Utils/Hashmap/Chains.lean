import Skyc.Utils.Hashmap.Model

/-!
# The chains behind the pool

`Rep` ties the pointers of a hash map to lists of items, one list for each
position of the pool.
-/

namespace Skyc.Utils.Hashmap

open Skyc.Lib Function List Option Prod LinkedHeap

abbrev Chain (Value : Type) := List (Addr × Item Value)

def Chain.addresses {Value : Type} (chain : Chain Value) : List Addr :=
  chain.map Prod.fst

variable {Value : Type}

/-! ## Replacing one list of several -/

variable {Element : Type} {lists : List (List Element)}

theorem flatten_set_perm {pos : Nat}
    {old : List Element} (present : lists[pos]? = some old) (new : List Element) :
    ((lists.set pos new).flatten ++ old).Perm (lists.flatten ++ new) := by
  induction lists generalizing pos with
  | nil => cases present
  | cons first rest ih =>
    cases pos with
    | zero =>
      obtain rfl := some.inj present
      simp only [set_cons_zero, flatten_cons, append_assoc]
      calc
        (new ++ (rest.flatten ++ first)).Perm (rest.flatten ++ first ++ new) := perm_append_comm
        _ |>.Perm (first ++ rest.flatten ++ new) := perm_append_comm.append_right new
        _ |>.Perm (first ++ (rest.flatten ++ new)) := by
          rw [append_assoc]
    | succ pos =>
      simp only [getElem?_cons_succ] at present
      simp only [set_cons_succ, flatten_cons, append_assoc]
      exact (ih present).append_left first

theorem flatten_perm_others {pos : Nat} {old : List Element} (present : lists[pos]? = some old) :
    lists.flatten.Perm (old ++ (lists.set pos []).flatten) := by
  have perm := flatten_set_perm present []
  rw [append_nil] at perm
  exact (perm_append_comm.trans perm).symm

theorem flatten_set_perm_others {pos : Nat}
    {old : List Element} (present : lists[pos]? = some old) (new : List Element) :
    (lists.set pos new).flatten.Perm (new ++ (lists.set pos []).flatten) := by
  have bound : pos < lists.length := (List.getElem?_eq_some_iff.mp present).1
  have replaced : (lists.set pos new)[pos]? = some new := by rw [getElem?_set_self bound]
  have perm := flatten_perm_others replaced
  rwa [set_set] at perm

theorem mem_set_cases {pos : Nat} {new list : List Element} (member : list ∈ lists.set pos new) :
    list = new ∨ (list ∈ lists ∧ list ∈ lists.set pos []) := by
  rcases mem_iff_getElem?.mp member with ⟨index, found⟩
  by_cases same : pos = index
  · subst index
    left
    rw [getElem?_set] at found
    simp only [if_true] at found
    split at found
    · exact (some.inj found).symm
    · cases found
  · right
    rw [getElem?_set_ne same] at found
    constructor
    · exact mem_of_getElem? found
    · apply mem_of_getElem?
      rw [getElem?_set_ne same]
      exact found

/-! ## The representation -/

/-- The pool and the heap hold the given chains, without sharing. -/
structure Rep (map : HashMap Value) (chains : List (Chain Value)) : Prop where
  capacity : map.capacity = chains.length
  pool : map.pool = chains.map fun chain => headOr chain none
  linked : ∀ chain ∈ chains, Linked map.heap.cells chain none
  nodup : (Chain.addresses chains.flatten).Nodup

variable {map after : HashMap Value} {chains : List (Chain Value)}
  {pos : Nat} {old new front back : Chain Value}

theorem Chain.addresses_append :
    Chain.addresses (front ++ back) = Chain.addresses front ++ Chain.addresses back := map_append ..

section

variable (rep : Rep map chains)
include rep

section

variable (present : chains[pos]? = some old)
include present

theorem Rep.getElem?_pool : map.pool[pos]? = some (headOr old none) := by
  rw [rep.pool, getElem?_map, present]
  rfl

theorem Rep.linked_of_getElem? :
    Linked map.heap.cells old none := rep.linked old (mem_of_getElem? present)

theorem Rep.addresses_nodup : (Chain.addresses old).Nodup := by
  have perm := (flatten_perm_others present).map fst
  have nodup := perm.nodup_iff.mp rep.nodup
  rw [map_append] at nodup
  exact (nodup_append.mp nodup).1

theorem Rep.length_lt_bound : old.length < map.bound := by
  have bounded := length_le_fresh (rep.linked_of_getElem? present) (rep.addresses_nodup present)
  exact Nat.lt_succ_of_le bounded

/-- One chain is replaced; its new items come from the old chain or are new
to the map, and nothing else in the heap changes. -/
theorem Rep.replace (capacity : after.capacity = map.capacity) (pool :
      after.pool = (chains.set pos new).map fun chain => headOr chain none)
    (linked : Linked after.heap.cells new none) (nodup : (Chain.addresses new).Nodup) (origin :
      ∀ address ∈ Chain.addresses new, address ∈ Chain.addresses old ∨
        address ∉ Chain.addresses chains.flatten) (frame :
      ∀ address, address ∉ Chain.addresses old → address ∉ Chain.addresses new →
        after.heap.cells address = map.heap.cells address) : Rep after (chains.set pos new) := by
  have before := (flatten_perm_others present).map fst
  rw [map_append] at before
  have split := nodup_append.mp (before.nodup_iff.mp rep.nodup)
  -- addresses of the other chains are neither old nor new ones
  have apart : ∀ address ∈ Chain.addresses (chains.set pos []).flatten,
      address ∉ Chain.addresses old ∧ address ∉ Chain.addresses new := by
    intro address other
    have notOld : address ∉ Chain.addresses old := by
      intro inOld
      exact split.2.2 address inOld address other rfl
    refine ⟨notOld, ?_⟩
    intro inNew
    rcases origin address inNew with inOld | fresh
    · exact notOld inOld
    · exact fresh (before.mem_iff.mpr (mem_append_right _ other))
  constructor
  · rw [capacity, rep.capacity, length_set]
  · exact pool
  · intro chain member
    rcases mem_set_cases member with same | ⟨inChains, isOther⟩
    · rw [same]
      exact linked
    · apply (rep.linked chain inChains).congr
      intro node inChain
      have address : node.1 ∈ Chain.addresses (chains.set pos []).flatten := mem_map_of_mem
        (mem_flatten_of_mem isOther inChain)
      exact frame node.1 (apart _ address).1 (apart _ address).2
  · have perm := (flatten_set_perm_others present new).map fst
    rw [map_append] at perm
    apply perm.nodup_iff.mpr
    rw [nodup_append]
    refine ⟨nodup, split.2.1, ?_⟩
    intro first inNew second other same
    subst first
    exact (apart second other).2 inNew

end

theorem Rep.pool_set (present : chains[pos]? = some old)
    (sameHead : headOr new none = headOr old none) :
    map.pool = (chains.set pos new).map fun chain => headOr chain none := by
  rcases List.getElem?_eq_some_iff.mp (rep.getElem?_pool present) with ⟨inside, value⟩
  rw [map_set, ← rep.pool, sameHead, ← value]
  exact (set_getElem_self inside).symm

omit rep in
theorem ne_of_notMem_addresses (node : Addr × Item Value) {other : Addr} (member : node ∈ old)
    (notOld : other ∉ Chain.addresses old) : other ≠ node.1 := by
  rintro rfl
  exact notOld (mem_map_of_mem member)

theorem Rep.link (present : chains[pos]? = some (front ++ back))
    (linked : Linked map.heap.cells new none) (nodup : (Chain.addresses (front ++ new)).Nodup)
    (origin :
      ∀ address ∈ Chain.addresses new, address ∈ Chain.addresses back ∨
        address ∉ Chain.addresses chains.flatten) :
    ∃ after, map.link pos (lastOr front none) (headOr new none) = some after ∧
      Rep after (chains.set pos (front ++ new)) ∧
      after.capacity = map.capacity ∧ after.count = map.count ∧
      ∀ address, address ∉ Chain.addresses front →
        after.heap.cells address = map.heap.cells address := by
  have bound : pos < chains.length := (List.getElem?_eq_some_iff.mp present).1
  have wholeOrigin : ∀ address ∈ Chain.addresses (front ++ new),
      address ∈ Chain.addresses (front ++ back) ∨ address ∉ Chain.addresses chains.flatten := by
    intro address member
    rw [Chain.addresses_append, mem_append] at member
    rw [Chain.addresses_append, mem_append]
    rcases member with inFront | inNew
    · exact .inl (.inl inFront)
    · rcases origin address inNew with inBack | fresh
      · exact .inl (.inr inBack)
      · exact .inr fresh
  have linkedOld := rep.linked_of_getElem? present
  rcases eq_nil_or_concat front with empty | ⟨init, node, whole⟩
  · subst front
    have inPool : pos < map.pool.length := by
      rw [rep.pool, length_map]
      exact bound
    refine ⟨{ map with pool := map.pool.set pos (headOr new none) },
      ?_, ?_, rfl, rfl, fun _ _ => rfl⟩
    · simp only [lastOr, HashMap.link, HashMap.setPool, if_pos inPool]
    · apply rep.replace present
      · rfl
      · simp only [rep.pool, map_set]
        rfl
      · exact linked
      · exact nodup
      · exact wholeOrigin
      · intro _ _ _
        rfl
  · rw [concat_eq_append] at whole
    subst front
    have linkedParts := linked_append.mp linkedOld
    rcases linkedParts.1.present (mem_append_right init mem_cons_self) with
      ⟨next, atNode⟩
    rcases setNext_spec atNode (headOr new none) with
      ⟨heap, wrote, cells⟩
    have split := nodup_append.mp (by
      rw [Chain.addresses_append] at nodup
      exact nodup)
    have nodeNotNew : node.1 ∉ Chain.addresses new := by
      intro inNew
      refine split.2.2 node.1 ?_ node.1 inNew rfl
      rw [Chain.addresses_append]
      exact mem_append_right _ mem_cons_self
    refine ⟨{ map with heap := heap }, ?_, ?_, rfl, rfl, ?_⟩
    · simp only [lastOr_append_singleton, HashMap.link, wrote, map_some]
    · apply rep.replace present
      · rfl
      · apply rep.pool_set present
        cases init with
        | nil | cons => rfl
      · simp only [cells]
        rw [linked_append]
        constructor
        · exact linkedParts.1.redirect split.1
        · exact linked.update_of_notMem nodeNotNew _
      · exact nodup
      · exact wholeOrigin
      · intro address notOld _
        simp only [cells, update_of_ne (ne_of_notMem_addresses node (by simp) notOld)]
    · intro address notFront
      simp only [cells, update_of_ne (ne_of_notMem_addresses node (by simp) notFront)]

end

/-! ## The loops over a chain -/

def Item.Matches (item : Item Value) (hash : UInt32) (key : CString) : Prop :=
  item.hash = hash ∧ item.key = key

variable {cells : Addr → Option (Node (Item Value))} {chain : Chain Value} {fuel : Nat}

theorem findItem_spec (linked : Linked cells chain none) (enough : chain.length < fuel)
    (hash : UInt32) (key : CString) (prev : Option Addr) :
    ∃ front back, chain = front ++ back ∧ (∀ node ∈ front, ¬ node.2.Matches hash key) ∧
      (∀ node ∈ back.head?, node.2.Matches hash key) ∧
      findItem cells hash (some key) fuel prev (headOr chain none) =
        some (lastOr front prev, headOr back none) := by
  induction chain generalizing fuel prev with
  | nil =>
    cases fuel with
    | zero => cases enough
    | succ fuel => exact ⟨[], [], rfl, nofun, nofun, rfl⟩
  | cons node rest ih =>
    cases fuel with
    | zero => cases enough
    | succ fuel =>
      have shorter : rest.length < fuel := Nat.lt_of_succ_lt_succ enough
      rcases linked with ⟨atNode, linkedRest⟩
      by_cases found : node.2.Matches hash key
      · refine ⟨[], node :: rest, rfl, nofun, ?_, ?_⟩
        · intro first isFirst
          rw [head?_cons, mem_some_iff] at isFirst
          subst first
          exact found
        · simp [findItem, headOr, atNode, found.1, found.2, lastOr]
      · rcases ih linkedRest shorter (some node.1) with
          ⟨front, back, whole, passed, atBack, result⟩
        refine ⟨node :: front, back, ?_, ?_, atBack, ?_⟩
        · rw [whole]
          rfl
        · exact forall_mem_cons.mpr ⟨found, passed⟩
        · rw [lastOr, ← result]
          simp only [findItem, headOr, atNode]
          by_cases sameHash : node.2.hash = hash
          · have otherKey : node.2.key ≠ key := by
              intro sameKey
              exact found ⟨sameHash, sameKey⟩
            simp [sameHash, otherKey]
          · simp [sameHash]

theorem countChain_spec
    (linked : Linked cells chain none) (enough : chain.length < fuel) (count : Nat) :
    countChain cells fuel (headOr chain none) count = some (count + chain.length) := by
  induction chain generalizing fuel count with
  | nil =>
    cases fuel with
    | zero => cases enough
    | succ fuel => rfl
  | cons node rest ih =>
    cases fuel with
    | zero => cases enough
    | succ fuel =>
      have shorter : rest.length < fuel := Nat.lt_of_succ_lt_succ enough
      have counted := ih linked.2 shorter (count + 1)
      rw [length_cons, add_comm rest.length, ← add_assoc, ← counted]
      simp only [countChain, headOr, linked.1]
      rfl

variable {address : Addr}

section

variable (rep : Rep map chains)
include rep

theorem countPool_spec (remaining pos count : Nat) (split : pos + remaining = chains.length) :
    countPool map remaining pos count = some (count + (chains.drop pos).flatten.length) := by
  induction remaining generalizing pos count with
  | zero =>
    rw [drop_of_length_le (by omega)]
    rfl
  | succ remaining ih =>
    have bound : pos < chains.length := by omega
    have present : chains[pos]? = some chains[pos] := getElem?_eq_getElem bound
    have counted := countChain_spec (rep.linked_of_getElem? present)
      (rep.length_lt_bound present) count
    simp only [countPool, rep.getElem?_pool present, some_bind, counted]
    rw [ih (pos + 1) _ (by omega),
      drop_eq_getElem_cons bound, flatten_cons, length_append, add_assoc]

theorem hashMapCount_spec : hashMapCount map = some chains.flatten.length := by
  unfold hashMapCount
  rw [countPool_spec rep map.capacity 0 0 (by rw [rep.capacity]; omega)]
  simp

/-! ## Changes of one item -/

theorem Rep.setData {item : Item Value}
    (present : chains[pos]? = some (front ++ (address, item) :: back)) (changed : Item Value) :
    ∃ heap, map.heap.setData address changed = some heap ∧
      Rep { map with heap := heap } (chains.set pos (front ++ (address, changed) :: back)) := by
  have linked := rep.linked_of_getElem? present
  have nodup := rep.addresses_nodup present
  rcases linked.present (mem_append_right front mem_cons_self) with
    ⟨next, atAddress⟩
  rcases setData_spec atAddress changed with
    ⟨heap, wrote, cells⟩
  have sameAddresses : Chain.addresses (front ++ (address, changed) :: back) =
      Chain.addresses (front ++ (address, item) :: back) := by
    simp [Chain.addresses]
  refine ⟨heap, wrote, ?_⟩
  apply rep.replace present
  · rfl
  · apply rep.pool_set present
    cases front with
    | nil | cons => rfl
  · simp only [cells]
    exact linked.setData nodup atAddress
  · rw [sameAddresses]
    exact nodup
  · intro other member
    rw [sameAddresses] at member
    exact .inl member
  · intro other notOld _
    have apart : other ≠ address := ne_of_notMem_addresses (address, item) (by simp) notOld
    simp only [cells, update_of_ne apart]

theorem Rep.of_frame (capacity : after.capacity = map.capacity)
    (pool : after.pool = map.pool) (frame :
      ∀ address ∈ Chain.addresses chains.flatten,
        after.heap.cells address = map.heap.cells address) : Rep after chains where
  capacity := by rw [capacity, rep.capacity]
  pool := by rw [pool, rep.pool]
  linked := by
    intro chain member
    apply (rep.linked chain member).congr
    intro node inChain
    exact frame node.1 (mem_map_of_mem (mem_flatten_of_mem member inChain))
  nodup := rep.nodup

theorem Rep.lt_fresh (member : address ∈ Chain.addresses chains.flatten) :
    address < map.heap.fresh := by
  rcases mem_map.mp member with ⟨node, inFlatten, same⟩
  rcases mem_flatten.mp inFlatten with ⟨chain, inChains, inChain⟩
  rcases (rep.linked chain inChains).present inChain with ⟨next, present⟩
  rw [← same]
  apply lt_fresh_of_isSome
  rw [present]
  rfl

theorem Rep.append (present : chains[pos]? = some old) (item : Item Value) :
    ∃ after, { map with heap := map.heap.alloc ⟨none, item⟩ }.link pos
          (lastOr old none) (some map.heap.fresh) = some after ∧
        Rep after (chains.set pos (old ++ [(map.heap.fresh, item)])) ∧
        after.capacity = map.capacity ∧ after.count = map.count := by
  have notUsed : map.heap.fresh ∉ Chain.addresses chains.flatten := by
    intro member
    exact lt_irrefl _ (rep.lt_fresh member)
  have allocated : Rep { map with heap := map.heap.alloc ⟨none, item⟩ } chains := by
    apply rep.of_frame
    · rfl
    · rfl
    · intro address member
      apply update_of_ne
      intro same
      subst address
      exact notUsed member
  have inChains : ∀ address ∈ Chain.addresses old, address ∈ Chain.addresses chains.flatten := by
    intro address member
    have perm := (flatten_perm_others present).map fst
    rw [map_append] at perm
    exact perm.mem_iff.mpr (mem_append_left _ member)
  have presentAppend : chains[pos]? = some (old ++ []) := by
    rw [append_nil]
    exact present
  have newLinked : Linked (map.heap.alloc ⟨none, item⟩).cells [(map.heap.fresh, item)] none :=
    ⟨update_self .., trivial⟩
  have newNodup : (Chain.addresses (old ++ [(map.heap.fresh, item)])).Nodup := by
    rw [Chain.addresses_append, nodup_append]
    refine ⟨rep.addresses_nodup present, nodup_singleton _, ?_⟩
    intro first inOld second isNew same
    rw [mem_singleton.mp isNew] at same
    subst first
    exact notUsed (inChains _ inOld)
  have newOrigin : ∀ address ∈ Chain.addresses [(map.heap.fresh, item)],
      address ∈ Chain.addresses ([] : Chain Value) ∨ address ∉ Chain.addresses chains.flatten := by
    intro address isNew
    rw [mem_singleton.mp isNew]
    exact .inr notUsed
  rcases allocated.link presentAppend newLinked newNodup newOrigin with
    ⟨after, linked, repAfter, capacity, count, _⟩
  exact ⟨after, linked, repAfter, capacity, count⟩

theorem Rep.unlink {node : Addr × Item Value}
    (present : chains[pos]? = some (front ++ node :: back)) :
    ∃ after, map.link pos (lastOr front none) (headOr back none) = some after ∧
      Rep after (chains.set pos (front ++ back)) ∧
      after.capacity = map.capacity ∧ after.count = map.count ∧
      after.heap.cells node.1 = map.heap.cells node.1 ∧
      node.1 ∉ Chain.addresses (chains.set pos (front ++ back)).flatten := by
  have linked := rep.linked_of_getElem? present
  have nodup := rep.addresses_nodup present
  have parts : (Chain.addresses (node :: (front ++ back))).Nodup := by
    apply (Perm.nodup_iff _).mp nodup
    exact perm_middle.map fst
  rw [linked_append] at linked
  rcases rep.link present linked.2.2 (nodup_cons.mp parts).2 (by
      intro address member
      exact .inl (mem_cons_of_mem _ member)) with
    ⟨after, result, repAfter, capacity, count, frame⟩
  refine ⟨after, result, repAfter, capacity, count, ?_, ?_⟩
  · apply frame
    intro member
    apply (nodup_cons.mp parts).1
    rw [map_append]
    exact mem_append_left _ member
  · intro member
    have before := ((flatten_perm_others present).map fst).nodup_iff.mp rep.nodup
    have perm := (flatten_set_perm_others present (front ++ back)).map fst
    have inside := perm.mem_iff.mp member
    rw [map_append, mem_append] at inside
    rcases inside with inChain | inOthers
    · exact (nodup_cons.mp parts).1 inChain
    · rw [map_append, nodup_append] at before
      refine before.2.2 node.1 ?_ node.1 inOthers rfl
      simp

end

end Skyc.Utils.Hashmap
