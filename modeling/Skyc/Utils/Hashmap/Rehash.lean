import Skyc.Utils.Hashmap.Chains

/-!
# Rehashing

`hash_map_rehash` doubles the pool and walks the old chains.  An item whose
position changes is unlinked from the chain that is being walked and
prepended to a chain in the new half, which is never walked.
-/

namespace Skyc.Utils.Hashmap

open Skyc.Lib List Nat Option Chain LinkedHeap

variable {Value : Type} {map after : HashMap Value} {chains : List (Chain Value)} {pos : Nat}

/-! ## Positions -/

theorem getPoolPos_two_pow (exponent : Nat) (hash : UInt32) :
    getPoolPos (2 ^ exponent) hash = hash.toNat % 2 ^ exponent := and_two_pow_sub_one_eq_mod ..

variable {exponent : Nat}

theorem getPoolPos_lt {capacity : Nat} (power : capacity = 2 ^ exponent) (hash : UInt32) :
    getPoolPos capacity hash < capacity := by
  subst power
  rw [getPoolPos_two_pow]
  exact Nat.mod_lt _ (Nat.two_pow_pos exponent)

/-- Doubling the capacity leaves an item where it is or moves it by the old
capacity. -/
theorem getPoolPos_double {capacity : Nat} (power : capacity = 2 ^ exponent) (hash : UInt32) :
    getPoolPos (2 * capacity) hash = getPoolPos capacity hash ∨
      getPoolPos (2 * capacity) hash = getPoolPos capacity hash + capacity := by
  have doubled : 2 * capacity = 2 ^ (exponent + 1) := by rw [power, pow_succ, mul_comm]
  have small : getPoolPos (2 * capacity) hash < 2 * capacity := getPoolPos_lt doubled hash
  have folded : getPoolPos (2 * capacity) hash % capacity = getPoolPos capacity hash := by
    rw [doubled, getPoolPos_two_pow, ← doubled, power, getPoolPos_two_pow, ← power]
    exact mod_mod_of_dvd _ (dvd_mul_left capacity 2)
  by_cases low : getPoolPos (2 * capacity) hash < capacity
  · left
    rw [← folded, mod_eq_of_lt low]
  · right
    rw [mod_eq_sub_mod (not_lt.mp low), mod_eq_of_lt (by omega)] at folded
    omega

/-! ## The items examined -/

/-- One round of the inner loop of `hash_map_rehash`: the map, `prev` and `item` after it. -/
def rehashRound (pivot : Nat) (map : HashMap Value) (prev : Option Addr) (item : Addr) :
    Option (HashMap Value × Option Addr × Option Addr) := do
  let node ← map.heap.cells item
  let target := getPoolPos map.capacity node.data.hash
  if target < map.capacity then
    if pivot ≠ target then
      let unlinked ← map.link pivot prev node.next
      let head ← unlinked.pool[target]?
      let heap ← unlinked.heap.setNext item head
      let moved ← { unlinked with heap := heap }.setPool target item
      return (moved, prev, node.next)
    else
      return (map, some item, node.next)
  else
    none

/-- The items that the rounds of the inner loop examine, one for each round. -/
def examinedChain (pivot : Nat) : Nat → HashMap Value → Option Addr → Option Addr → List Addr
  | fuel + 1, map, prev, some item =>
    item :: (rehashRound pivot map prev item).elim [] fun (map, prev, item) =>
      examinedChain pivot fuel map prev item
  | _, _, _, _ => []

/-- The items that the outer loop examines, from `pivot` on. -/
def examinedPool : Nat → Nat → HashMap Value → List Addr
  | 0, _, _ => []
  | remaining + 1, pivot, map =>
    let item := map.pool[pivot]?.join
    examinedChain pivot map.bound map none item ++
      (rehashChain pivot map.bound map none item).elim [] (examinedPool remaining (pivot + 1))

/-- The items that `hash_map_rehash` examines. -/
def examined (map : HashMap Value) : List Addr :=
  (growPool map).elim [] (examinedPool map.capacity 0)

variable {pivot fuel : Nat} {item : Addr} {prev : Option Addr}

theorem rehashChain_round : rehashChain pivot (fuel + 1) map prev (some item) =
      (rehashRound pivot map prev item).bind fun (map, prev, item) =>
        rehashChain pivot fuel map prev item := by
  simp only [rehashChain, rehashRound, bind_eq_bind, bind_assoc]
  congr 1
  funext node
  split
  · split
    · simp only [bind_assoc]
      rfl
    · rfl
  · rfl

/-! ## Moving one item -/

variable {Element : Type} {lists : List (List Element)} {element : Element}

theorem flatten_perm_cons
    {front back : List Element} (present : lists[pos]? = some (front ++ element :: back)) :
    lists.flatten.Perm (element :: (lists.set pos (front ++ back)).flatten) := by
  have before := flatten_perm_others present
  have later := flatten_set_perm_others present (front ++ back)
  have middle : (front ++ element :: back ++ (lists.set pos []).flatten).Perm
    (element :: (front ++ back) ++ (lists.set pos []).flatten) := perm_middle.append_right _
  exact (before.trans middle).trans (later.symm.cons element)

variable {node : Addr × Item Value}

theorem Rep.prepend {old : Chain Value} (rep : Rep map chains) (present : chains[pos]? = some old)
    (atNode : ∃ next, map.heap.cells node.1 = some ⟨next, node.2⟩)
    (loose : node.1 ∉ Chain.addresses chains.flatten) :
    ∃ heap after, map.heap.setNext node.1 (headOr old none) = some heap ∧
      { map with heap := heap }.setPool pos (some node.1) = some after ∧
      Rep after (chains.set pos (node :: old)) ∧
      after.capacity = map.capacity ∧ after.count = map.count := by
  rcases atNode with ⟨next, atNode⟩
  rcases setNext_spec atNode (headOr old none) with
    ⟨heap, wrote, cells⟩
  have inChains : ∀ address ∈ addresses old, address ∈ addresses chains.flatten := by
    intro address member
    have perm := (flatten_perm_others present).map Prod.fst
    rw [map_append] at perm
    exact perm.mem_iff.mpr (mem_append_left _ member)
  have written : Rep { map with heap := heap } chains := by
    apply rep.of_frame
    · rfl
    · rfl
    · intro address member
      simp only [cells]
      apply Function.update_of_ne
      intro same
      subst address
      exact loose member
  have linkedNew : Linked heap.cells (node :: old) none := by
    constructor
    · rw [cells, Function.update_self]
    · exact written.linked_of_getElem? present
  have newNodup : (addresses ([] ++ node :: old)).Nodup := by
    apply nodup_cons.mpr
    refine ⟨?_, rep.addresses_nodup present⟩
    intro member
    exact loose (inChains _ member)
  have newOrigin : ∀ address ∈ addresses (node :: old), address ∈ addresses old ∨
      address ∉ addresses chains.flatten := by
    intro address member
    rcases mem_cons.mp member with same | inOld
    · rw [same]
      exact .inr loose
    · exact .inl inOld
  have presentEmpty : chains[pos]? = some ([] ++ old) := present
  rcases written.link presentEmpty linkedNew newNodup newOrigin with
    ⟨after, linked, repAfter, capacity, count, _⟩
  exact ⟨heap, after, wrote, linked, repAfter, capacity, count⟩

/-! ## The inner loop -/

/-- All items are at positions where they may be. -/
def Placed (chains : List (Chain Value)) (good : Nat → Addr × Item Value → Prop) : Prop :=
  ∀ pos chain, chains[pos]? = some chain → ∀ node ∈ chain, good pos node

/-- The items of a map stand in other chains. -/
structure Rearranged (map : HashMap Value) (chains : List (Chain Value)) (after : HashMap Value)
    (chainsAfter : List (Chain Value)) : Prop where
  rep : Rep after chainsAfter
  capacity : after.capacity = map.capacity
  count : after.count = map.count
  perm : chainsAfter.flatten.Perm chains.flatten

variable {next : HashMap Value} {chainsNext chainsAfter : List (Chain Value)}

theorem Rearranged.trans (first : Rearranged map chains next chainsNext)
    (second : Rearranged next chainsNext after chainsAfter) :
    Rearranged map chains after chainsAfter :=
  ⟨second.rep, second.capacity.trans first.capacity, second.count.trans first.count,
    second.perm.trans first.perm⟩

/-- One round of the loop: the item stays, or it is put before another chain. -/
theorem Rep.round {done rest : Chain Value}
    (rep : Rep map chains) (present : chains[pivot]? = some (done ++ node :: rest))
    (bounded : getPoolPos map.capacity node.2.hash < map.capacity) :
    ∃ next chainsNext doneNext, rehashRound pivot map (lastOr done none) node.1 =
          some (next, lastOr doneNext none, headOr rest none) ∧
        Rearranged map chains next chainsNext ∧ chainsNext[pivot]? = some (doneNext ++ rest) ∧
        (∀ kept ∈ doneNext, kept ∈ done ∨
          kept = node ∧ pivot = getPoolPos map.capacity node.2.hash) ∧
        ∀ pos, pos ≠ pivot → chainsNext[pos]? =
          if pos = getPoolPos map.capacity node.2.hash then chains[pos]?.map (node :: ·)
          else chains[pos]? := by
  generalize target : getPoolPos map.capacity node.2.hash = goal at bounded ⊢
  have atNode := (linked_append.mp (rep.linked_of_getElem? present)).2.1
  by_cases moves : pivot ≠ goal
  · have pivotBound : pivot < chains.length := (List.getElem?_eq_some_iff.mp present).1
    rcases rep.unlink present with
      ⟨unlinked, unlink, repUnlinked, capacityUnlinked, countUnlinked, sameNode, loose⟩
    have goalBound : goal < (chains.set pivot (done ++ rest)).length := by
      rw [← repUnlinked.capacity, capacityUnlinked]
      exact bounded
    have presentGoal := getElem?_eq_getElem goalBound
    generalize (chains.set pivot (done ++ rest))[goal] = old at presentGoal
    have earlierGoal : chains[goal]? = some old := by rw [← presentGoal, getElem?_set_ne moves]
    rcases repUnlinked.prepend presentGoal ⟨_, sameNode.trans atNode⟩ loose with
      ⟨heap, moved, wrote, stored, repMoved, capacityMoved, countMoved⟩
    refine ⟨moved, _, done, ?_, ⟨repMoved, capacityMoved.trans capacityUnlinked,
      countMoved.trans countUnlinked, ?_⟩, ?_, fun _ => .inl, ?_⟩
    · subst target
      simp only [rehashRound, atNode, some_bind, if_pos bounded, if_pos moves, unlink,
        repUnlinked.getElem?_pool presentGoal, wrote, stored]
      rfl
    · exact ((flatten_set_perm_others presentGoal (node :: old)).trans
        ((flatten_perm_others presentGoal).symm.cons node)).trans (flatten_perm_cons present).symm
    · rw [getElem?_set_ne moves.symm, getElem?_set_self pivotBound]
    · intro pos apart
      by_cases isGoal : pos = goal
      · subst pos
        rw [getElem?_set_self goalBound, if_pos rfl, earlierGoal]
        rfl
      · rw [getElem?_set_ne (Ne.symm isGoal), getElem?_set_ne apart.symm, if_neg isGoal]
  · have stays := not_not.mp moves
    refine ⟨map, chains, done ++ [node], ?_, ⟨rep, rfl, rfl, .refl _⟩, ?_, ?_, ?_⟩
    · subst target
      rw [lastOr_append_singleton]
      simp only [rehashRound, atNode, some_bind, if_pos bounded, if_neg moves]
      rfl
    · rw [append_assoc]
      exact present
    · intro kept member
      exact (mem_append.mp member).imp_right fun isNode => ⟨mem_singleton.mp isNode, stays⟩
    · intro pos apart
      rw [if_neg (stays ▸ apart)]

/-- The walk over the chain at `pivot`: the items of `rest` are put where
they belong and everything else stays. -/
theorem rehashChain_spec {good : Nat → Addr × Item Value → Prop}
    {done rest : Chain Value} (rep : Rep map chains)
    (present : chains[pivot]? = some (done ++ rest)) (enough : rest.length < fuel)
    (inRange : ∀ hash, getPoolPos map.capacity hash < map.capacity) (others :
      Placed chains fun pos node => pos ≠ pivot → good pos node)
    (doneGood : ∀ node ∈ done, good pivot node) (restGood :
      ∀ node ∈ rest, good (getPoolPos map.capacity node.2.hash) node) :
    ∃ after chainsAfter, rehashChain pivot fuel map (lastOr done none) (headOr rest none) =
          some after ∧
        Rearranged map chains after chainsAfter ∧ Placed chainsAfter good ∧
        examinedChain pivot fuel map (lastOr done none) (headOr rest none) = Chain.addresses rest ∧
        ∀ pos, pos ≠ pivot → (∀ node ∈ rest, getPoolPos map.capacity node.2.hash ≠ pos) →
          chainsAfter[pos]? = chains[pos]? := by
  induction rest generalizing fuel map chains done with
  | nil =>
    cases fuel with
    | zero => cases enough
    | succ fuel =>
      refine ⟨map, chains, rfl, ⟨rep, rfl, rfl, .refl _⟩, ?_, rfl, fun _ _ _ => rfl⟩
      intro pos chain found node member
      by_cases same : pos = pivot
      · subst pos
        rw [present, append_nil] at found
        cases found
        exact doneGood node member
      · exact others pos chain found node member same
  | cons node rest ih =>
    cases fuel with
    | zero => cases enough
    | succ fuel =>
      have shorter : rest.length < fuel := lt_of_succ_lt_succ enough
      have nodeGood := restGood node mem_cons_self
      have laterGood : ∀ later ∈ rest, good (getPoolPos map.capacity later.2.hash) later := by
        intro later member
        exact restGood later (mem_cons_of_mem node member)
      rcases rep.round present (inRange node.2.hash) with
        ⟨next, chainsNext, doneNext, round, step, presentNext, keeps, origin⟩
      have keptGood : ∀ kept ∈ doneNext, good pivot kept := by
        intro kept member
        rcases keeps kept member with isDone | ⟨isNode, stays⟩
        · exact doneGood kept isDone
        · rw [isNode, stays]
          exact nodeGood
      have othersNext : Placed chainsNext fun pos node => pos ≠ pivot → good pos node := by
        intro pos chain found other member apart
        rw [origin pos apart] at found
        split at found
        case isTrue atGoal =>
          obtain ⟨old, before, rfl⟩ := map_eq_some_iff.mp found
          rcases mem_cons.mp member with isNode | inOld
          · rw [isNode, atGoal]
            exact nodeGood
          · exact others pos old before other inOld apart
        case isFalse => exact others pos chain found other member apart
      rw [← step.capacity] at inRange laterGood
      rcases ih step.rep presentNext shorter inRange othersNext keptGood laterGood with
        ⟨after, chainsAfter, result, steps, placed, walked, untouched⟩
      refine ⟨after, chainsAfter, ?_, step.trans steps, placed, ?_, ?_⟩
      · rw [headOr_cons, rehashChain_round, round]
        exact result
      · rw [headOr_cons, examinedChain, round]
        exact congrArg (node.1 :: ·) walked
      · intro pos apart away
        rw [untouched pos apart, origin pos apart, if_neg (away node mem_cons_self).symm]
        intro later member
        rw [step.capacity]
        exact away later (mem_cons_of_mem _ member)

/-! ## The outer loop -/

/-- An item is already placed for the doubled capacity, or still in a chain that is to be walked. -/
def Spread (half pivot pos : Nat) (node : Addr × Item Value) : Prop :=
  (getPoolPos (2 * half) node.2.hash = pos ∧ (pos < pivot ∨ half ≤ pos)) ∨
    (getPoolPos half node.2.hash = pos ∧ pivot ≤ pos)

theorem rehashPool_spec {half remaining : Nat} (power : half = 2 ^ exponent)
    (rep : Rep map chains) (capacity : map.capacity = 2 * half) (split : pivot + remaining = half)
    (placed : Placed chains (Spread half pivot)) :
    ∃ after chainsAfter, rehashPool remaining pivot map = some after ∧
      Rearranged map chains after chainsAfter ∧ Placed chainsAfter (Spread half half) ∧
      examinedPool remaining pivot map =
        Chain.addresses ((chains.drop pivot).take remaining).flatten := by
  induction remaining generalizing pivot map chains with
  | zero =>
    have finished : pivot = half := split
    subst pivot
    exact ⟨map, chains, rfl, ⟨rep, rfl, rfl, .refl _⟩, placed, rfl⟩
  | succ remaining ih =>
    have bound : pivot < chains.length := by
      rw [← rep.capacity, capacity]
      omega
    obtain ⟨chain, present⟩ : ∃ chain, chains[pivot]? = some chain := ⟨_, getElem?_eq_getElem bound⟩
    have presentWhole : chains[pivot]? = some ([] ++ chain) := present
    have doubled : map.capacity = 2 ^ (exponent + 1) := by
      rw [capacity, power, pow_succ, mul_comm]
    have inRange : ∀ hash, getPoolPos map.capacity hash < map.capacity := getPoolPos_lt doubled
    have others : Placed chains fun pos node => pos ≠ pivot → Spread half (pivot + 1) pos node := by
      intro pos chain found node member apart
      rcases placed pos chain found node member with
        ⟨new, passed⟩ | ⟨old, ahead⟩
      · left
        exact ⟨new, by omega⟩
      · right
        exact ⟨old, by omega⟩
    have targets : ∀ node ∈ chain, getPoolPos (2 * half) node.2.hash < pivot + 1 ∨
        half ≤ getPoolPos (2 * half) node.2.hash := by
      intro node member
      rcases placed pivot _ present node member with
        ⟨_, passed⟩ | ⟨old, _⟩
      · omega
      · rcases getPoolPos_double power node.2.hash with same | moved
        · omega
        · omega
    rw [← capacity] at targets
    have restGood : ∀ node ∈ chain, Spread half (pivot + 1)
        (getPoolPos map.capacity node.2.hash) node := by
      intro node member
      exact .inl ⟨by rw [capacity], targets node member⟩
    rcases rehashChain_spec rep presentWhole
        (rep.length_lt_bound present) inRange others nofun restGood with
      ⟨spread, chainsSpread, walked, step, placedSpread, items, untouched⟩
    rcases ih step.rep (step.capacity.trans capacity) (by omega) placedSpread with
      ⟨after, chainsAfter, result, steps, placedAfter, itemsLater⟩
    -- the chains that are still to be walked are as they were
    have later : (chainsSpread.drop (pivot + 1)).take remaining =
        (chains.drop (pivot + 1)).take remaining := by
      apply ext_getElem?
      intro i
      rw [getElem?_take, getElem?_take, getElem?_drop, getElem?_drop]
      split
      · apply untouched _ (by omega)
        intro node member
        have target := targets node member
        omega
      · rfl
    rw [lastOr] at walked items
    refine ⟨after, chainsAfter, ?_, step.trans steps, placedAfter, ?_⟩
    · simp only [rehashPool, rep.getElem?_pool present, bind_eq_bind, bind_some]
      rw [walked, bind_some]
      exact result
    · rw [drop_eq_getElem_cons bound, take_succ_cons, flatten_cons, addresses_append, ← later,
        ← itemsLater, some.inj ((getElem?_eq_getElem bound).symm.trans present), ← items,
        examinedPool, rep.getElem?_pool present, join_some, walked]
      rfl

/-! ## The whole function -/

def AtPosition (capacity pos : Nat) (node : Addr × Item Value) : Prop :=
  getPoolPos capacity node.2.hash = pos

theorem growPool_spec (rep : Rep map chains) (nonempty : 0 < map.capacity) :
    ∃ grown, growPool map = some grown ∧ Rep grown (chains ++ replicate map.capacity []) ∧
      grown.capacity = 2 * map.capacity ∧ grown.count = map.count := by
  have shifted : map.capacity <<< 1 = 2 * map.capacity := by rw [shiftLeft_eq, mul_comm]
  have flatten : (chains ++ replicate map.capacity []).flatten = chains.flatten := by
    rw [flatten_append, flatten_replicate_nil, append_nil]
  refine ⟨_, if_neg (by omega), ?_, shifted, rfl⟩
  constructor
  · rw [length_append, length_replicate, ← rep.capacity]
    simp only [shifted]
    omega
  · simp only [shifted, rep.pool, map_append, map_replicate, headOr_nil]
    congr 2
    omega
  · intro chain member
    rcases mem_append.mp member with old | new
    · exact rep.linked chain old
    · rw [eq_of_mem_replicate new]
      trivial
  · rw [flatten]
    exact rep.nodup

/-- `hash_map_rehash` succeeds, its assertions included, doubles the
capacity, keeps the items and puts each of them at its new position. -/
theorem hashMapRehash_spec (rep : Rep map chains)
    (power : map.capacity = 2 ^ exponent) (placed : Placed chains (AtPosition map.capacity))
    (counted : map.count = chains.flatten.length) :
    ∃ after chainsAfter, hashMapRehash map = some after ∧ Rep after chainsAfter ∧
      after.capacity = 2 * map.capacity ∧ after.count = map.count ∧
      chainsAfter.flatten.Perm chains.flatten ∧
      Placed chainsAfter (AtPosition after.capacity) ∧
      examined map = Chain.addresses chains.flatten := by
  have nonempty : 0 < map.capacity := by
    rw [power]
    exact Nat.two_pow_pos exponent
  rcases growPool_spec rep nonempty with
    ⟨grown, grew, repGrown, capacityGrown, countGrown⟩
  have spreadStart : Placed (chains ++ replicate map.capacity []) (Spread map.capacity 0) := by
    intro pos chain found node member
    by_cases old : pos < chains.length
    · rw [getElem?_append_left old] at found
      right
      exact ⟨placed pos chain found node member, Nat.zero_le pos⟩
    · rw [getElem?_append_right (not_lt.mp old)] at found
      have empty := eq_of_mem_replicate (mem_of_getElem? found)
      rw [empty] at member
      cases member
  rcases rehashPool_spec power repGrown capacityGrown (zero_add _) spreadStart with
    ⟨after, chainsAfter, result, ⟨repAfter, capacity, count, perm⟩, placedAfter, items⟩
  rw [capacityGrown] at capacity
  rw [flatten_append, flatten_replicate_nil, append_nil] at perm
  refine ⟨after, chainsAfter, ?_, repAfter, capacity, count.trans countGrown, perm, ?_, ?_⟩
  · have lint : hashMapLint after = some () := by
      have exactCount : chainsAfter.flatten.length = after.count := by
        rw [perm.length_eq, ← counted, count, countGrown]
      simp only [hashMapLint, hashMapCount_spec repAfter, exactCount, some_bind, if_true]
    simp only [hashMapRehash, grew, result, lint, some_bind, Option.pure_def]
  · intro pos chain found node member
    rw [AtPosition, capacity]
    rcases placedAfter pos chain found node member with
      ⟨new, _⟩ | ⟨old, beyond⟩
    · exact new
    · have small := getPoolPos_lt power node.2.hash
      omega
  · rw [examined, grew, elim_some, items, drop_zero, rep.capacity, take_left]

/-- The chains are walked item by item as they stood before the call: an item that is unlinked
and prepended to another chain is not examined again, and none is passed over. -/
theorem rehash_examines_once (rep : Rep map chains) (power : map.capacity = 2 ^ exponent)
    (placed : Placed chains (AtPosition map.capacity)) (counted :
      map.count = chains.flatten.length) :
    ∃ after chainsAfter, hashMapRehash map = some after ∧ Rep after chainsAfter ∧
      after.capacity = 2 * map.capacity ∧ chainsAfter.flatten.Perm chains.flatten ∧
      Placed chainsAfter (AtPosition after.capacity) ∧
      examined map = Chain.addresses chains.flatten ∧ (examined map).Nodup := by
  rcases hashMapRehash_spec rep power placed counted with
    ⟨after, chainsAfter, result, repAfter, capacity, _, perm, placedAfter, items⟩
  exact ⟨after, chainsAfter, result, repAfter, capacity, perm, placedAfter, items,
    items ▸ rep.nodup⟩

def keyless (hash : UInt32) : Item Unit := ⟨hash, ⟨[], nofun⟩, none⟩

def twoItems : HashMap Unit :=
  ⟨(LinkedHeap.empty.alloc ⟨none, keyless 0⟩).alloc ⟨some 0, keyless 1⟩, [some 1], 1, 2⟩

theorem rehash_examines_once_twoItems : examined twoItems = [1, 0] := by
  have rep : Rep twoItems [[(1, keyless 1), (0, keyless 0)]] :=
    ⟨rfl, rfl, by simp [Linked, twoItems, alloc, empty], by decide⟩
  have placed : Placed [[(1, keyless 1), (0, keyless 0)]] (AtPosition 1) := by
    intro pos chain found node member
    cases pos with
    | zero => exact Nat.and_zero _
    | succ => cases found
  obtain ⟨_, _, _, _, _, _, _, items, _⟩ :=
    rehash_examines_once rep (show 1 = 2 ^ 0 from rfl) placed rfl
  exact items

end Skyc.Utils.Hashmap
