import Skyc.Lib.CString
import Skyc.Lib.LinkedHeap

/-!
# The hash map

An insert of `hashmap.c` walks one chain and may first double the array
(`hash_map_rehash`), which unlinks items from the chain it is walking.

A result is missing when the code accesses memory it does not own, when an assertion
fails, or when a loop exceeds the number of items allocated so far.  `void *` values
are optional, `none` being `NULL`.
-/

namespace Skyc.Utils.Hashmap

open Skyc.Lib

/-- `hash_map_item_t` without its `next` pointer. -/
structure Item (Value : Type) where
  hash : UInt32
  key : CString
  val : Option Value
deriving DecidableEq, Repr

/-- `hash_map_t` with the memory that holds its items. -/
structure HashMap (Value : Type) where
  heap : LinkedHeap (Item Value)
  pool : List (Option Addr)
  capacity : Nat
  count : Nat

/-- `hash_fn`, and the test of `MAP_DENSITY` against
`HASH_MAP_DENSITY_FACTOR` as a function of `count` and `capacity`. -/
structure Config where
  hashFn : CString → UInt32
  dense : Nat → Nat → Bool

/-- `hash32_djb2(str, -1)`: the characters are signed. -/
def hash32Djb2 (str : CString) : UInt32 :=
  str.bytes.foldl (fun hash c => ((hash <<< 5) + hash) + (c.toUInt32 - if 128 ≤ c then 256 else 0))
    5381

/-- The functions and the density factor 0.8 of the source. -/
def sourceConfig : Config where
  hashFn := hash32Djb2
  dense := fun count capacity => decide (4 * capacity < 5 * count)

def roundUpPow2 (v : UInt32) : UInt32 :=
  let v := v - 1
  let v := v ||| (v >>> 1)
  let v := v ||| (v >>> 2)
  let v := v ||| (v >>> 4)
  let v := v ||| (v >>> 8)
  let v := v ||| (v >>> 16)
  v + 1

/-- `HASH_MAP_BASE_SIZE` -/
def hashMapBaseSize : UInt32 := 32

variable {Value : Type}

/-- `GET_POOL_POS` -/
def getPoolPos (capacity : Nat) (hash : UInt32) : Nat :=
  hash.toNat &&& (capacity - 1)

def hashMapInit : HashMap Value :=
  let size := (roundUpPow2 hashMapBaseSize).toNat
  { heap := LinkedHeap.empty
    pool := List.replicate size none
    capacity := size
    count := 0 }

/-! ## Loops over one chain -/

/-- A bound for the length of every chain. -/
def HashMap.bound (map : HashMap Value) : Nat :=
  map.heap.fresh + 1

/-- The loop over a chain in `hash_map_insert`, `hash_map_get` and
`hash_map_delete`: the last item passed and the item with the key.
`strcmp` with a `NULL` key has no result. -/
def findItem (cells : Addr → Option (Node (Item Value))) (hash : UInt32) (key : Option CString) :
    Nat → Option Addr → Option Addr → Option (Option Addr × Option Addr)
  | 0, _, _ => none
  | _ + 1, prev, none => some (prev, none)
  | fuel + 1, prev, some item => do
    let node ← cells item
    if node.data.hash = hash then
      let wanted ← key
      if node.data.key = wanted then
        some (prev, some item)
      else
        findItem cells hash key fuel (some item) node.next
    else
      findItem cells hash key fuel (some item) node.next

/-- `map->pool[pos] = target` -/
def HashMap.setPool (map : HashMap Value) (pos : Nat)
    (target : Option Addr) : Option (HashMap Value) :=
  if pos < map.pool.length then
    some { map with pool := map.pool.set pos target }
  else
    none

/-- `if (prev != NULL) prev->next = target; else map->pool[pos] = target` -/
def HashMap.link (map : HashMap Value) (pos : Nat)
    (prev target : Option Addr) : Option (HashMap Value) :=
  match prev with
  | some address =>
    (map.heap.setNext address target).map fun heap =>
      { map with heap := heap }
  | none => map.setPool pos target

/-- The inner loop of `hash_map_count`. -/
def countChain (cells : Addr → Option (Node (Item Value))) : Nat → Option Addr → Nat → Option Nat
  | 0, _, _ => none
  | _ + 1, none, count => some count
  | fuel + 1, some item, count => do
    let node ← cells item
    countChain cells fuel node.next (count + 1)

/-- The outer loop of `hash_map_count`, from position `pos` on. -/
def countPool (map : HashMap Value) : Nat → Nat → Nat → Option Nat
  | 0, _, count => some count
  | remaining + 1, pos, count => do
    let item ← map.pool[pos]?
    let count ← countChain map.heap.cells map.bound item count
    countPool map remaining (pos + 1) count

def hashMapCount (map : HashMap Value) : Option Nat :=
  countPool map map.capacity 0 0

/-- `hash_map_lint`: the assertion holds. -/
def hashMapLint (map : HashMap Value) : Option Unit := do
  let count ← hashMapCount map
  if count = map.count then some () else none

/-! ## Rehashing -/

/-- The inner loop of `hash_map_rehash` over the chain at `pivot`. -/
def rehashChain (pivot : Nat) : Nat → HashMap Value → Option Addr → Option Addr →
      Option (HashMap Value)
  | 0, _, _, _ => none
  | _ + 1, map, _, none => some map
  | fuel + 1, map, prev, some item => do
    let node ← map.heap.cells item
    let target := getPoolPos map.capacity node.data.hash
    if target < map.capacity then
      if pivot ≠ target then
        -- `node.next` is what the source keeps in `temp`
        let unlinked ← map.link pivot prev node.next
        let head ← unlinked.pool[target]?
        let heap ← unlinked.heap.setNext item head
        let moved ← { unlinked with heap := heap }.setPool target item
        rehashChain pivot fuel moved prev node.next
      else
        rehashChain pivot fuel map (some item) node.next
    else
      none

/-- The outer loop of `hash_map_rehash`, from `pivot` on. -/
def rehashPool : Nat → Nat → HashMap Value → Option (HashMap Value)
  | 0, _, map => some map
  | remaining + 1, pivot, map => do
    let item ← map.pool[pivot]?
    let spread ← rehashChain pivot map.bound map none item
    rehashPool remaining (pivot + 1) spread

/-- `safe_realloc_zero` of the pool, with its assertion. -/
def growPool (map : HashMap Value) : Option (HashMap Value) :=
  let capacity := map.capacity <<< 1
  if capacity = map.capacity then
    none
  else
    some
      { map with
        capacity := capacity
        pool := map.pool ++ List.replicate (capacity - map.capacity) none }

def hashMapRehash (map : HashMap Value) : Option (HashMap Value) := do
  let grown ← growPool map
  let spread ← rehashPool map.capacity 0 grown
  hashMapLint spread
  return spread

/-! ## The interface -/

/-- `hash_map_insert` after the test of the density. -/
def insertItem (config : Config) (map : HashMap Value) (key : CString) (val : Option Value) :
    Option (HashMap Value × UInt32) := do
  let hash := config.hashFn key
  let pos := getPoolPos map.capacity hash
  let first ← map.pool[pos]?
  let (prev, item) ← findItem map.heap.cells hash (some key) map.bound first first
  match item with
  | some address =>
    let node ← map.heap.cells address
    let heap ← map.heap.setData address { node.data with val := val }
    return ({ map with heap := heap }, node.data.hash)
  | none =>
    let address := map.heap.fresh
    let heap := map.heap.alloc ⟨none, ⟨hash, key, val⟩⟩
    let linked ← { map with heap := heap }.link pos prev address
    return ({ linked with count := linked.count + 1 }, hash)

def hashMapInsert (config : Config) (map : HashMap Value) (key : CString) (val : Option Value) :
    Option (HashMap Value × UInt32) := do
  let map ←
    if config.dense map.count map.capacity then hashMapRehash map
    else some map
  insertItem config map key val

/-- The hash a lookup starts from. -/
def lookupHash (config : Config) (key : Option CString) (keyHash : UInt32) : UInt32 :=
  match key with
  | some key => config.hashFn key
  | none => keyHash

def hashMapGet (config : Config) (map : HashMap Value)
    (key : Option CString) (keyHash : UInt32) : Option (Option Value) := do
  let hash := lookupHash config key keyHash
  let pos := getPoolPos map.capacity hash
  let first ← map.pool[pos]?
  let (_, item) ← findItem map.heap.cells hash key map.bound none first
  match item with
  | some address =>
    let node ← map.heap.cells address
    return node.data.val
  | none => return none

def hashMapDelete (config : Config) (map : HashMap Value)
    (key : Option CString) (keyHash : UInt32) : Option (HashMap Value × Option Value) := do
  let hash := lookupHash config key keyHash
  let pos := getPoolPos map.capacity hash
  let first ← map.pool[pos]?
  let (prev, item) ← findItem map.heap.cells hash key map.bound none first
  match item with
  | some address =>
    let node ← map.heap.cells address
    let unlinked ← map.link pos prev node.next
    let heap ← unlinked.heap.free address
    return ({ unlinked with heap := heap, count := unlinked.count - 1 }, node.data.val)
  | none => return (map, none)

end Skyc.Utils.Hashmap
