import Skyc.Utils.Hashmap.Rehash

/-!
# The hash map as a finite map

For every hash function and every choice of the inserts that rehash, the calls
are answered as by a finite map from strings to values.
-/

namespace Skyc.Utils.Hashmap

open Skyc.Lib Function List

variable {Value : Type}

/-! ## The abstract map -/

inductive Call (Value : Type) where
  | insert (key : CString) (val : Option Value)
  | get (key : CString) (keyHash : UInt32)
  | delete (key : CString) (keyHash : UInt32)

inductive Answer (Value : Type) where
  | hash (hash : UInt32)
  | value (value : Option Value)

def Call.key : Call Value → CString
  | .insert key _ | .get key _ | .delete key _ => key

abbrev Contents (Value : Type) := CString → Option (Option Value)

def Contents.after (contents : Contents Value) : Call Value → Contents Value
  | .insert key val => update contents key (some val)
  | .delete key _ => update contents key none
  | .get _ _ => contents

/-- A lookup of a key that is not live answers `NULL`. -/
def Contents.answer (config : Config) (contents : Contents Value) : Call Value → Answer Value
  | .insert key _ => .hash (config.hashFn key)
  | .get key _ | .delete key _ => .value (contents key).join

def Contents.answers (config : Config) : Contents Value → List (Call Value) → List (Answer Value)
  | _, [] => []
  | contents, call :: rest =>
    contents.answer config call :: Contents.answers config (contents.after call) rest

/-- What the calls leave: the last insert of a key counts unless the key
was deleted after it. -/
def contentsOf (past : List (Call Value)) : Contents Value :=
  past.foldl Contents.after fun _ => none

def liveKeys (past : List (Call Value)) : List CString :=
  (past.map Call.key).dedup.filter fun key => (contentsOf past key).isSome

/-! ## The calls on the map of the code -/

def perform (config : Config) (map : HashMap Value) :
    Call Value → Option (HashMap Value × Answer Value)
  | .insert key val =>
    (hashMapInsert config map key val).map fun result =>
      (result.1, .hash result.2)
  | .get key keyHash =>
    (hashMapGet config map (some key) keyHash).map fun result =>
      (map, .value result)
  | .delete key keyHash =>
    (hashMapDelete config map (some key) keyHash).map fun result =>
      (result.1, .value result.2)

def performAll (config : Config) : HashMap Value → List (Call Value) →
      Option (HashMap Value × List (Answer Value))
  | map, [] => some (map, [])
  | map, call :: rest => do
    let (after, answer) ← perform config map call
    let (final, answers) ← performAll config after rest
    return (final, answer :: answers)

/-! ## Items that make up a map -/

/-- The items have distinct keys and their own hashes, and show the
contents. -/
structure Represents (config : Config) (items : List (Item Value))
    (contents : Contents Value) : Prop where
  hashes : ∀ item ∈ items, item.hash = config.hashFn item.key
  keys : (items.map Item.key).Nodup
  shown : ∀ key val, contents key = some val ↔ ∃ item ∈ items, item.key = key ∧ item.val = val

variable {config : Config} {items itemsAfter : List (Item Value)}
  {contents : Contents Value} {item : Item Value}

theorem Represents.perm (holds : Represents config items contents)
    (perm : itemsAfter.Perm items) : Represents config itemsAfter contents where
  hashes := by
    intro item member
    exact holds.hashes item (perm.mem_iff.mp member)
  keys := (perm.map Item.key).nodup_iff.mpr holds.keys
  shown := by
    intro key val
    rw [holds.shown key val]
    constructor
    · rintro ⟨item, member, known⟩
      exact ⟨item, perm.mem_iff.mpr member, known⟩
    · rintro ⟨item, member, known⟩
      exact ⟨item, perm.mem_iff.mp member, known⟩

variable {key : CString}

theorem Represents.absent (holds : Represents config items contents)
    (notThere : ∀ item ∈ items, item.key ≠ key) : contents key = none := by
  cases known : contents key with
  | none => rfl
  | some val =>
    rcases (holds.shown key val).mp known with
      ⟨item, member, sameKey, _⟩
    exact absurd sameKey (notThere item member)

variable (holds : Represents config (item :: items) contents)

include holds in
theorem Represents.head :
    contents item.key = some item.val := (holds.shown item.key item.val).mpr
    ⟨item, mem_cons_self, rfl, rfl⟩

include holds in
theorem Represents.tail :
    Represents config items (update contents item.key none) := by
  have keys := holds.keys
  rw [map_cons, nodup_cons] at keys
  constructor
  · intro other member
    exact holds.hashes other (mem_cons_of_mem item member)
  · exact keys.2
  · intro key val
    by_cases same : key = item.key
    · subst key
      rw [update_self]
      constructor
      · exact nofun
      · rintro ⟨other, member, sameKey, _⟩
        exact absurd (sameKey ▸ mem_map_of_mem member) keys.1
    · rw [update_of_ne same, holds.shown key val]
      constructor
      · rintro ⟨other, member, sameKey, sameVal⟩
        rcases mem_cons.mp member with isFirst | later
        · subst other
          exact absurd sameKey.symm same
        · exact ⟨other, later, sameKey, sameVal⟩
      · rintro ⟨other, member, known⟩
        exact ⟨other, mem_cons_of_mem item member, known⟩

theorem Represents.cons (holds : Represents config items contents)
    (hash : item.hash = config.hashFn item.key) (notThere : ∀ other ∈ items, other.key ≠ item.key) :
    Represents config (item :: items) (update contents item.key (some item.val)) := by
  constructor
  · exact forall_mem_cons.mpr ⟨hash, holds.hashes⟩
  · rw [map_cons, nodup_cons]
    refine ⟨?_, holds.keys⟩
    intro member
    rcases mem_map.mp member with ⟨other, inItems, sameKey⟩
    exact notThere other inItems sameKey
  · intro key val
    by_cases same : key = item.key
    · subst key
      rw [update_self, Option.some.injEq]
      constructor
      · intro sameVal
        exact ⟨item, mem_cons_self, rfl, sameVal⟩
      · rintro ⟨other, member, sameKey, sameVal⟩
        rcases mem_cons.mp member with isFirst | later
        · rw [← sameVal, isFirst]
        · exact absurd sameKey (notThere other later)
    · rw [update_of_ne same, holds.shown key val]
      constructor
      · rintro ⟨other, member, known⟩
        exact ⟨other, mem_cons_of_mem item member, known⟩
      · rintro ⟨other, member, sameKey, sameVal⟩
        rcases mem_cons.mp member with isFirst | later
        · subst other
          exact absurd sameKey.symm same
        · exact ⟨other, later, sameKey, sameVal⟩

include holds in
theorem Represents.replace (val : Option Value) :
    Represents config (⟨item.hash, item.key, val⟩ :: items)
      (update contents item.key (some val)) := by
  have keys := holds.keys
  rw [map_cons, nodup_cons] at keys
  have replaced : Represents config (⟨item.hash, item.key, val⟩ :: items)
      (update (update contents item.key none) item.key (some val)) := by
    apply holds.tail.cons
    · exact holds.hashes item mem_cons_self
    · intro other member sameKey
      exact keys.1 (sameKey ▸ mem_map_of_mem member)
  rwa [update_idem] at replaced

/-! ## Valid maps -/

/-- The representation invariant of the code. -/
structure Valid (config : Config) (map : HashMap Value)
    (chains : List (Chain Value)) (contents : Contents Value) : Prop where
  rep : Rep map chains
  power : ∃ exponent, map.capacity = 2 ^ exponent
  placed : Placed chains (AtPosition map.capacity)
  holds : Represents config (chains.flatten.map Prod.snd) contents
  counted : map.count = chains.flatten.length

variable {map after : HashMap Value} {chains : List (Chain Value)}

variable {pos : Nat} {node : Addr × Item Value} {front rest : Chain Value}

variable {new : Chain Value}

theorem Placed.set {good : Nat → Addr × Item Value → Prop}
    (placed : Placed chains good) (newGood : ∀ node ∈ new, good pos node) :
    Placed (chains.set pos new) good := by
  intro other chain found node member
  by_cases same : pos = other
  · subst other
    rw [getElem?_set] at found
    simp only [if_true] at found
    split at found
    · cases found
      exact newGood node member
    · cases found
  · rw [getElem?_set_ne same] at found
    exact placed other chain found node member

section

variable (valid : Valid config map chains contents)
include valid

/-- The loop over a chain ends at the item with the key, or at its end if no item of the
map has the key. -/
theorem Valid.locate (key : CString) (prev : Option Addr) :
    ∃ front back, chains[getPoolPos map.capacity (config.hashFn key)]? = some (front ++ back) ∧
      map.pool[getPoolPos map.capacity (config.hashFn key)]? = some (headOr (front ++ back) none) ∧
      findItem map.heap.cells (config.hashFn key) (some key) map.bound
        prev (headOr (front ++ back) none) = some (lastOr front prev, headOr back none) ∧
      (back = [] ∧ (∀ item ∈ chains.flatten.map Prod.snd, item.key ≠ key) ∨
        ∃ node rest, back = node :: rest ∧ node.2.key = key) := by
  rcases valid.power with ⟨exponent, power⟩
  have bound : getPoolPos map.capacity (config.hashFn key) < chains.length := by
    rw [← valid.rep.capacity]
    exact getPoolPos_lt power _
  obtain ⟨chain, present⟩ : ∃ chain, chains[getPoolPos map.capacity (config.hashFn key)]? =
    some chain := ⟨_, getElem?_eq_getElem bound⟩
  rcases findItem_spec (valid.rep.linked_of_getElem? present)
      (valid.rep.length_lt_bound present) (config.hashFn key) key prev with
    ⟨front, back, whole, passed, atBack, result⟩
  subst chain
  refine ⟨front, back, present, valid.rep.getElem?_pool present, result, ?_⟩
  cases back with
  | cons node rest =>
    right
    exact ⟨node, rest, rfl, (atBack node rfl).2⟩
  | nil =>
    left
    refine ⟨rfl, ?_⟩
    intro item member sameKey
    rcases mem_map.mp member with ⟨node, inFlatten, isItem⟩
    subst isItem
    rcases mem_flatten.mp inFlatten with ⟨chain, inChains, inChain⟩
    rcases mem_iff_getElem?.mp inChains with ⟨pos, found⟩
    have hash : node.2.hash = config.hashFn key := by
      rw [← sameKey]
      exact valid.holds.hashes node.2 member
    have position := valid.placed pos chain found node inChain
    rw [AtPosition, hash] at position
    rw [position, found, append_nil] at present
    cases present
    exact passed node inChain ⟨hash, sameKey⟩

theorem Valid.replace {contentsAfter : Contents Value}
    (rep : Rep after (chains.set pos new)) (capacity : after.capacity = map.capacity)
    (newPlaced : ∀ node ∈ new, AtPosition map.capacity pos node) (holds :
      Represents config ((chains.set pos new).flatten.map Prod.snd) contentsAfter)
    (counted : after.count = (chains.set pos new).flatten.length) :
    Valid config after (chains.set pos new) contentsAfter where
  rep := rep
  power := by
    rw [capacity]
    exact valid.power
  placed := by
    rw [capacity]
    exact valid.placed.set newPlaced
  holds := holds
  counted := counted

/-! ## The operations -/

variable (present : chains[pos]? = some (front ++ node :: rest))

include present in
theorem Valid.live :
    contents node.2.key = some node.2.val := by
  have perm := (flatten_perm_cons present).map Prod.snd
  exact (valid.holds.perm perm.symm).head

include present in
theorem Valid.hash_eq :
    node.2.hash = config.hashFn node.2.key := by
  have perm := (flatten_perm_cons present).map Prod.snd
  apply valid.holds.hashes
  exact perm.mem_iff.mpr mem_cons_self

theorem hashMapGet_spec (key : CString) (keyHash : UInt32) :
    hashMapGet config map (some key) keyHash = some (contents key).join := by
  rcases valid.locate key none with
    ⟨front, back, present, inPool, found, outcome⟩
  simp only [hashMapGet, lookupHash, inPool, found, some_bind]
  rcases outcome with ⟨rfl, notThere⟩ | ⟨node, rest, rfl, sameKey⟩
  · rw [valid.holds.absent notThere]
    rfl
  · have atNode := (linked_append.mp (valid.rep.linked_of_getElem? present)).2.1
    have live := valid.live present
    subst sameKey
    simp only [headOr_cons, atNode, live]
    rfl

include present in
theorem Valid.remove :
    ∃ unlinked heap, map.link pos (lastOr front none) (headOr rest none) = some unlinked ∧
      unlinked.heap.free node.1 = some heap ∧
      Valid config { unlinked with heap := heap, count := unlinked.count - 1 }
        (chains.set pos (front ++ rest)) (update contents node.2.key none) := by
  have linked := valid.rep.linked_of_getElem? present
  have atNode := (linked_append.mp linked).2.1
  have perm := flatten_perm_cons present
  rcases valid.rep.unlink present with
    ⟨unlinked, unlink, repUnlinked, capacity, count, sameNode, loose⟩
  have live : (unlinked.heap.cells node.1).isSome = true := by
    rw [sameNode, atNode]
    rfl
  rcases LinkedHeap.free_spec live with ⟨heap, freed, cells⟩
  refine ⟨unlinked, heap, unlink, freed, ?_⟩
  apply valid.replace
  · apply repUnlinked.of_frame
    · rfl
    · rfl
    · intro address member
      simp only [cells]
      apply update_of_ne
      intro same
      subst address
      exact loose member
  · exact capacity
  · intro other member
    apply valid.placed pos _ present other
    rcases mem_append.mp member with inFront | inRest
    · exact mem_append_left _ inFront
    · exact mem_append_right _ (mem_cons_of_mem node inRest)
  · exact (valid.holds.perm (perm.map Prod.snd).symm).tail
  · simp only [count, valid.counted, perm.length_eq, length_cons, Nat.add_sub_cancel]

theorem Valid.add {chain : Chain Value} (present : chains[pos]? = some chain) (item : Item Value)
    (hash : item.hash = config.hashFn item.key) (position : getPoolPos map.capacity item.hash = pos)
    (notThere :
      ∀ other ∈ chains.flatten.map Prod.snd, other.key ≠ item.key) :
    ∃ linked, { map with heap := map.heap.alloc ⟨none, item⟩ }.link pos
          (lastOr chain none) (some map.heap.fresh) = some linked ∧
        Valid config { linked with count := linked.count + 1 }
          (chains.set pos (chain ++ [(map.heap.fresh, item)]))
          (update contents item.key (some item.val)) := by
  rcases valid.rep.append present item with
    ⟨linked, result, repLinked, capacity, count⟩
  have middle : (chain ++ [(map.heap.fresh, item)]).Perm ((map.heap.fresh, item) :: chain) :=
    perm_append_singleton ..
  have perm : (chains.set pos (chain ++ [(map.heap.fresh, item)])).flatten.Perm
        ((map.heap.fresh, item) :: chains.flatten) := (flatten_set_perm_others present _).trans
      ((middle.append_right _).trans ((flatten_perm_others present).symm.cons _))
  refine ⟨linked, result, ?_⟩
  apply valid.replace
  · exact { repLinked with }
  · exact capacity
  · exact forall_mem_append.mpr ⟨valid.placed pos chain present, forall_mem_singleton.mpr position⟩
  · apply Represents.perm _ (perm.map Prod.snd)
    exact valid.holds.cons hash notThere
  · simp only [count, valid.counted, perm.length_eq, length_cons]

include present in
theorem Valid.overwrite (val : Option Value) :
    ∃ heap, map.heap.setData node.1 ⟨node.2.hash, node.2.key, val⟩ = some heap ∧
      Valid config { map with heap := heap } (chains.set pos
          (front ++ (node.1, ⟨node.2.hash, node.2.key, val⟩) :: rest))
        (update contents node.2.key (some val)) := by
  have perm := flatten_perm_cons present
  rcases valid.rep.setData present ⟨node.2.hash, node.2.key, val⟩ with
    ⟨heap, wrote, repWrote⟩
  have bound := (List.getElem?_eq_some_iff.mp present).1
  have presentAfter : (chains.set pos (front ++
    (node.1, ⟨node.2.hash, node.2.key, val⟩) :: rest))[pos]? = some
    (front ++ (node.1, ⟨node.2.hash, node.2.key, val⟩) :: rest) := getElem?_set_self bound
  have permAfter := flatten_perm_cons presentAfter
  rw [set_set] at permAfter
  refine ⟨heap, wrote, ?_⟩
  apply valid.replace
  · exact repWrote
  · rfl
  · obtain ⟨inFront, inBack⟩ := forall_mem_append.mp (valid.placed pos _ present)
    obtain ⟨atNode, inRest⟩ := forall_mem_cons.mp inBack
    exact forall_mem_append.mpr ⟨inFront, forall_mem_cons.mpr ⟨atNode, inRest⟩⟩
  · apply Represents.perm _ (permAfter.map Prod.snd)
    exact (valid.holds.perm (perm.map Prod.snd).symm).replace val
  · simp only [permAfter.length_eq, valid.counted, perm.length_eq, length_cons]

theorem hashMapDelete_spec (key : CString) (keyHash : UInt32) :
    ∃ after chainsAfter, hashMapDelete config map (some key) keyHash =
          some (after, (contents key).join) ∧
        Valid config after chainsAfter (update contents key none) := by
  rcases valid.locate key none with
    ⟨front, back, present, inPool, found, outcome⟩
  rcases outcome with ⟨rfl, notThere⟩ | ⟨node, rest, rfl, sameKey⟩
  · have absent := valid.holds.absent notThere
    refine ⟨map, chains, ?_, ?_⟩
    · simp only [hashMapDelete, lookupHash, inPool, found, some_bind, absent]
      rfl
    · rw [← absent, update_eq_self]
      exact valid
  · have atNode := (linked_append.mp (valid.rep.linked_of_getElem? present)).2.1
    have live := valid.live present
    subst sameKey
    rcases valid.remove present with
      ⟨unlinked, heap, unlink, freed, validAfter⟩
    refine ⟨_, _, ?_, validAfter⟩
    simp only [hashMapDelete, lookupHash, inPool, found,
      some_bind, headOr_cons, atNode, unlink, freed, live]
    rfl

theorem insertItem_spec (key : CString) (val : Option Value) :
    ∃ after chainsAfter, insertItem config map key val = some (after, config.hashFn key) ∧
      Valid config after chainsAfter (update contents key (some val)) := by
  obtain ⟨first, atPos⟩ : ∃ first, map.pool[getPoolPos map.capacity (config.hashFn key)]? =
      some first := by
    rcases valid.locate key none with ⟨front, back, _, inPool, _⟩
    exact ⟨_, inPool⟩
  rcases valid.locate key first with
    ⟨front, back, present, inPool, found, outcome⟩
  have isFirst : first = headOr (front ++ back) none := Option.some.inj (atPos.symm.trans inPool)
  rcases outcome with ⟨rfl, notThere⟩ | ⟨node, rest, rfl, sameKey⟩
  · -- the loop has passed the whole chain
    rw [append_nil] at present found isFirst
    have last : lastOr front first = lastOr front none := by
      cases front with
      | nil =>
        rw [isFirst]
        rfl
      | cons node rest => rfl
    rw [← isFirst] at found
    rcases valid.add present ⟨config.hashFn key, key, val⟩ rfl rfl notThere with
      ⟨linked, result, validAfter⟩
    refine ⟨_, _, ?_, validAfter⟩
    simp only [insertItem, atPos, found, some_bind, headOr_nil, last, result]
    rfl
  · have atNode := (linked_append.mp (valid.rep.linked_of_getElem? present)).2.1
    have hash := valid.hash_eq present
    subst sameKey
    rcases valid.overwrite present val with ⟨heap, wrote, validAfter⟩
    refine ⟨_, _, ?_, validAfter⟩
    rw [← isFirst] at found
    simp only [insertItem, atPos, found, some_bind, headOr_cons, atNode, wrote]
    rw [hash]
    rfl

theorem hashMapInsert_spec (key : CString) (val : Option Value) :
    ∃ after chainsAfter, hashMapInsert config map key val = some (after, config.hashFn key) ∧
      Valid config after chainsAfter (update contents key (some val)) := by
  by_cases grows : config.dense map.count map.capacity = true
  · rcases valid.power with ⟨exponent, power⟩
    rcases hashMapRehash_spec valid.rep power valid.placed valid.counted with
      ⟨rehashed, chainsRehashed, result, rep, capacity, count, perm, placed, -⟩
    have validRehashed :
        Valid config rehashed chainsRehashed contents := by
      constructor
      · exact rep
      · refine ⟨exponent + 1, ?_⟩
        rw [capacity, power, Nat.pow_succ, Nat.mul_comm]
      · exact placed
      · exact valid.holds.perm (perm.map Prod.snd)
      · rw [count, valid.counted, perm.length_eq]
    rcases insertItem_spec validRehashed key val with
      ⟨after, chainsAfter, inserted, validAfter⟩
    refine ⟨after, chainsAfter, ?_, validAfter⟩
    simp only [hashMapInsert, grows, if_true, result, some_bind, inserted]
  · rcases insertItem_spec valid key val with
      ⟨after, chainsAfter, inserted, validAfter⟩
    refine ⟨after, chainsAfter, ?_, validAfter⟩
    simp only [hashMapInsert, if_neg grows, some_bind, inserted]

/-! ## Sequences of calls -/

theorem perform_spec (call : Call Value) :
    ∃ after chainsAfter, perform config map call = some (after, contents.answer config call) ∧
      Valid config after chainsAfter (contents.after call) := by
  cases call with
  | insert key val =>
    rcases hashMapInsert_spec valid key val with
      ⟨after, chainsAfter, result, validAfter⟩
    refine ⟨after, chainsAfter, ?_, validAfter⟩
    rw [perform, result]
    rfl
  | get key keyHash =>
    refine ⟨map, chains, ?_, valid⟩
    rw [perform, hashMapGet_spec valid key keyHash]
    rfl
  | delete key keyHash =>
    rcases hashMapDelete_spec valid key keyHash with
      ⟨after, chainsAfter, result, validAfter⟩
    refine ⟨after, chainsAfter, ?_, validAfter⟩
    rw [perform, result]
    rfl

theorem performAll_spec (calls : List (Call Value)) :
    ∃ after chainsAfter, performAll config map calls = some (after, contents.answers config calls) ∧
      Valid config after chainsAfter (calls.foldl Contents.after contents) := by
  induction calls generalizing map chains contents with
  | nil => exact ⟨map, chains, rfl, valid⟩
  | cons call rest ih =>
    rcases perform_spec valid call with
      ⟨middle, chainsMiddle, first, validMiddle⟩
    rcases ih validMiddle with
      ⟨after, chainsAfter, others, validAfter⟩
    refine ⟨after, chainsAfter, ?_, validAfter⟩
    simp only [performAll, first, others, some_bind, Option.pure_def, Contents.answers]

end

theorem valid_hashMapInit (config : Config) :
    Valid config (hashMapInit : HashMap Value) (replicate 32 []) (fun _ => none) where
  rep := by
    constructor
    · rfl
    · rfl
    · intro chain member
      rw [eq_of_mem_replicate member]
      trivial
    · exact nodup_nil
  power := ⟨5, rfl⟩
  placed := by
    intro pos chain found node member
    have empty := eq_of_mem_replicate (mem_of_getElem? found)
    rw [empty] at member
    cases member
  holds := by
    constructor
    · nofun
    · exact nodup_nil
    · intro key val
      constructor
      · nofun
      · rintro ⟨item, member, _⟩
        cases member
  counted := rfl

variable {past : List (Call Value)}

theorem isSome_contentsOf_mem (live : (contentsOf past key).isSome = true) :
    key ∈ past.map Call.key := by
  induction past using reverseRecOn with
  | nil => cases live
  | append_singleton past call ih =>
    rw [map_append, mem_append]
    by_cases same : key = call.key
    · right
      rw [same]
      exact mem_cons_self
    · left
      apply ih
      rw [contentsOf, foldl_append] at live
      cases call with
      | get other keyHash => exact live
      | insert other val | delete other keyHash =>
        have apart : key ≠ other := same
        simp only [foldl_cons, foldl_nil, Contents.after, update_of_ne apart] at live
        exact live

theorem count_eq_liveKeys (valid : Valid config map chains (contentsOf past)) :
    map.count = (liveKeys past).length := by
  have same : ((chains.flatten.map Prod.snd).map Item.key).Perm (liveKeys past) := by
    apply (perm_ext_iff_of_nodup valid.holds.keys ((nodup_dedup _).filter _)).mpr
    intro key
    rw [mem_filter, mem_dedup, mem_map]
    constructor
    · rintro ⟨item, member, sameKey⟩
      have live := (valid.holds.shown key item.val).mpr ⟨item, member, sameKey, rfl⟩
      have isLive : (contentsOf past key).isSome = true := by
        rw [live]
        rfl
      exact ⟨isSome_contentsOf_mem isLive, isLive⟩
    · rintro ⟨_, isLive⟩
      rcases Option.isSome_iff_exists.mp isLive with ⟨val, live⟩
      rcases (valid.holds.shown key val).mp live with
        ⟨item, member, sameKey, _⟩
      exact ⟨item, member, sameKey⟩
  rw [valid.counted, ← same.length_eq, length_map, length_map]

/-- For every hash function and every choice of the inserts that rehash,
all calls on a new map succeed and are answered as by a finite map,
`count` is the number of live keys, and the assertion of `hash_map_lint`
holds. -/
theorem hashMap_refines_map (config : Config) (calls : List (Call Value)) :
    ∃ map, performAll config hashMapInit calls =
          some (map, Contents.answers config (fun _ => none) calls) ∧
        map.count = (liveKeys calls).length ∧
        hashMapLint map = some () := by
  rcases performAll_spec (valid_hashMapInit config) calls with
    ⟨map, chains, result, valid⟩
  refine ⟨map, result, count_eq_liveKeys valid, ?_⟩
  simp only [hashMapLint, hashMapCount_spec valid.rep, valid.counted, some_bind, if_true]

end Skyc.Utils.Hashmap
