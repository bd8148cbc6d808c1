import Skyc.Lib.Memory

/-!
# The slab allocator

`slab.c` divides a blob of memory into units, each with two little-endian words, the
flag `leased` and a canary, before the data area handed out by `slab_alloc`.
Addresses are positions in one memory, so that user writes, headers and the bytes
around the blob are all part of it; pointers have 64 bits.
-/

namespace Skyc.Utils.Slabs

open Skyc.Lib Skyc.Lib.Memory List Option Nat Prod

/-! ## The functions of `slab.c` -/

structure Slab where
  blob : ℕ
  size : ℕ
  count : ℕ
deriving DecidableEq, Repr

/-- `ROUND_UP(size, sizeof(void *))` on `size_t` -/
def roundUp (size : ℕ) : ℕ :=
  let raised := (size + 8 - 1) % 2 ^ 64
  raised - raised % 8

/-- `(int)value` for a `size_t` -/
def toInt (value : ℕ) : Int :=
  let low : ℕ := value % 2 ^ 32
  if low < 2 ^ 31 then (low : Int) else (low : Int) - 2 ^ 32

/-- The canary of a unit that has been leased. -/
def canaryValue : ℕ :=
  0xdeadbeaf

/-- `slab_init`; a size of 0 divides by zero. -/
def slabInit (memory : List UInt8) (slab : Slab)
    (slabSize blob blobSize : ℕ) : Option (Int × Slab × List UInt8) :=
  let size := (roundUp slabSize + 8) % 2 ^ 64
  if blobSize < size then
    some (-1, { slab with size := size }, memory)
  else if size = 0 then
    none
  else do
    let cleared ← store memory blob (replicate blobSize 0)
    some (toInt (blobSize / size),
      { blob := blob, size := size, count := blobSize / size }, cleared)

def Slab.unit (slab : Slab) (i : ℕ) : ℕ :=
  slab.blob + i * slab.size

def Slab.block (slab : Slab) (i : ℕ) : ℕ :=
  slab.unit i + 8

/-- The loop of `slab_alloc` from unit `i` on: the block and the memory after
the unit has been marked, or nothing if no unit is left. -/
def slabAllocFrom (slab : Slab) (memory : List UInt8) : ℕ → ℕ → Option (Option (ℕ × List UInt8))
  | 0, _ => some none
  | units + 1, i => do
    let leased ← load memory (slab.unit i) 4
    if ofLittleEndian leased = 0 then
      let flagged ← store memory (slab.unit i) (littleEndian 4 1)
      let marked ← store flagged (slab.unit i + 4) (littleEndian 4 canaryValue)
      some (some (slab.block i, marked))
    else
      slabAllocFrom slab memory units (i + 1)

/-- `slab_alloc`: the returned value, the value stored to `*block`, and the
memory. -/
def slabAlloc (memory : List UInt8) (slab : Slab) : Option (Int × Option ℕ × List UInt8) := do
  match ← slabAllocFrom slab memory slab.count 0 with
  | some (block, marked) => some (0, some block, marked)
  | none => some (-1, none, memory)

/-- `slab_free`, which uses only the address of the block. -/
def slabFree (memory : List UInt8) (block : ℕ) : Option (Int × List UInt8) :=
  if block < 8 then
    none
  else do
    let word ← load memory (block - 8 + 4) 4
    if ofLittleEndian word ≠ canaryValue then
      some (-1, memory)
    else
      let released ← store memory (block - 8) (littleEndian 4 0)
      some (0, released)

/-! ## Histories -/

/-- The memories reached from `start` by every `slab_alloc`, every `slab_free` of a
leased block and every write inside of one, and the blocks leased there. -/
inductive Reached (slab : Slab) (start : List UInt8) : List UInt8 → List ℕ → Prop
  | init : Reached slab start start []
  | alloc {memory after : List UInt8} {leased : List ℕ} {code : Int} {block : Option ℕ}
    (reached : Reached slab start memory leased)
    (called : slabAlloc memory slab = some (code, block, after)) :
    Reached slab start after (block.toList ++ leased)
  | free {memory after : List UInt8} {leased : List ℕ} {code : Int} {block : ℕ}
    (reached : Reached slab start memory leased) (isLeased : block ∈ leased)
    (called : slabFree memory block = some (code, after)) :
    Reached slab start after (leased.erase block)
  | write {memory after : List UInt8} {leased : List ℕ} {block offset : ℕ} {data : List UInt8}
    (reached : Reached slab start memory leased) (isLeased : block ∈ leased)
    (from' : block ≤ offset) (to' : offset + data.length ≤ block + (slab.size - 8))
    (written : store memory offset data = some after) : Reached slab start after leased

/-- A number of calls of `slab_alloc` that all return 0. -/
def slabAllocs (slab : Slab) : ℕ → List UInt8 → Option (List ℕ × List UInt8)
  | 0, memory => some ([], memory)
  | calls + 1, memory => do
    let (code, block, after) ← slabAlloc memory slab
    if code = 0 then
      let (blocks, last) ← slabAllocs slab calls after
      some (block.toList ++ blocks, last)
    else
      none

/-! ## The headers in memory -/

/-- The headers say that the units `units` are leased. -/
structure Represents (slab : Slab) (memory : List UInt8) (units : List ℕ) : Prop where
  header : 8 ≤ slab.size
  inside : slab.unit slab.count ≤ memory.length
  nodup : units.Nodup
  bounded : ∀ i ∈ units, i < slab.count
  leased : ∀ i < slab.count, load memory (slab.unit i) 4 =
    some (littleEndian 4 (if i ∈ units then 1 else 0))
  canary : ∀ i ∈ units, load memory (slab.unit i + 4) 4 = some (littleEndian 4 canaryValue)

variable {i : ℕ}

section Headers

variable {slab : Slab} {memory after : List UInt8} {units : List ℕ}

theorem unit_apart (slab : Slab) {j : ℕ} (different : i ≠ j) :
    slab.unit i + slab.size ≤ slab.unit j ∨ slab.unit j + slab.size ≤ slab.unit i := by
  have apart := cells_apart slab.size different
  simp only [Slab.unit]
  omega

section

variable (rep : Represents slab memory units)
include rep

theorem unit_inside (below : i < slab.count) : slab.unit i + slab.size ≤ memory.length := by
  have within := cell_inside slab.size below
  have inside := rep.inside
  simp only [Slab.unit] at inside ⊢
  omega

theorem Represents.length_le : units.length ≤ slab.count := by
  have inRange : units ⊆ range slab.count := by
    intro i member
    exact mem_range.mpr (rep.bounded i member)
  simpa using (subperm_of_subset rep.nodup inRange).length_le

theorem Represents.mem_of_full (full : units.length = slab.count) (below : i < slab.count) :
    i ∈ units := by
  by_contra missing
  have nodup : (i :: units).Nodup := nodup_cons.mpr ⟨missing, rep.nodup⟩
  have inRange : i :: units ⊆ range slab.count := by
    intro j member
    rw [mem_range]
    rcases mem_cons.mp member with rfl | old
    · exact below
    · exact rep.bounded j old
  have tooLong := (subperm_of_subset nodup inRange).length_le
  simp only [length_cons, length_range] at tooLong
  omega

theorem Represents.write {offset : ℕ} {data : List UInt8} (from' : slab.block i ≤ offset)
    (to' : offset + data.length ≤ slab.block i + (slab.size - 8))
    (stored : Stored memory offset data after) : Represents slab after units := by
  have header := rep.header
  have headerApart : ∀ j, slab.unit j + 8 ≤ offset ∨ offset + data.length ≤ slab.unit j := by
    intro j
    simp only [Slab.block] at from' to'
    by_cases same : i = j
    · subst same
      omega
    · rcases unit_apart slab same with before | behind
      · omega
      · omega
  exact
    { header := header
      inside := by
        rw [stored.length]
        exact rep.inside
      nodup := rep.nodup
      bounded := rep.bounded
      leased := by
        intro j below
        have apart := headerApart j
        rw [stored.apart (slab.unit j) 4 (by omega)]
        exact rep.leased j below
      canary := by
        intro j member
        have apart := headerApart j
        rw [stored.apart (slab.unit j + 4) 4 (by omega)]
        exact rep.canary j member }

end

/-! ## The two functions on the headers -/

theorem ofLittleEndian_flag (i : ℕ) (units : List ℕ) :
    ofLittleEndian (littleEndian 4 (if i ∈ units then 1 else 0)) = 0 ↔ i ∉ units := by
  by_cases member : i ∈ units
  · rw [if_pos member]
    exact ⟨fun isZero => absurd isZero (by decide), fun no => absurd member no⟩
  · rw [if_neg member]
    exact ⟨fun _ => member, fun _ => by decide⟩

section

variable (rep : Represents slab memory units)
include rep

theorem Represents.mark (below : i < slab.count) (free : i ∉ units) :
    ∃ flagged marked, store memory (slab.unit i) (littleEndian 4 1) = some flagged ∧
      store flagged (slab.unit i + 4) (littleEndian 4 canaryValue) = some marked ∧
      Represents slab marked (i :: units) := by
  have header := rep.header
  have inside := unit_inside rep below
  obtain ⟨flagged, storeFlag, flagStored⟩ := exists_store memory (slab.unit i) (littleEndian 4 1)
    (by rw [length_littleEndian]; omega)
  obtain ⟨marked, storeCanary, canaryStored⟩ :=
    exists_store flagged (slab.unit i + 4) (littleEndian 4 canaryValue)
      (by rw [length_littleEndian, flagStored.length]; omega)
  have flagSame := flagStored.same
  have canarySame := canaryStored.same
  rw [length_littleEndian] at flagSame canarySame
  -- a header word of another unit is apart from both stored words
  have otherWord : ∀ j, j ≠ i → ∀ skip, skip ≤ 4 →
      load marked (slab.unit j + skip) 4 = load memory (slab.unit j + skip) 4 := by
    intro j different skip small
    have apart := unit_apart slab different
    rw [canaryStored.apart (slab.unit j + skip) 4 (by rw [length_littleEndian]; omega),
      flagStored.apart (slab.unit j + skip) 4 (by rw [length_littleEndian]; omega)]
  refine ⟨flagged, marked, storeFlag, storeCanary, ?_⟩
  exact
    { header := header
      inside := by
        rw [canaryStored.length, flagStored.length]
        exact rep.inside
      nodup := nodup_cons.mpr ⟨free, rep.nodup⟩
      bounded := by
        exact forall_mem_cons.mpr ⟨below, rep.bounded⟩
      leased := by
        intro j jBelow
        by_cases same : j = i
        · subst same
          rw [canaryStored.apart _ _ (.inl (le_refl _)), flagSame, if_pos mem_cons_self]
        · have word := otherWord j same 0 (by omega)
          rw [add_zero] at word
          rw [word, rep.leased j jBelow]
          simp only [mem_cons, same, false_or]
      canary := by
        intro j member
        by_cases same : j = i
        · rw [same]
          exact canarySame
        · have old : j ∈ units := by
            rcases mem_cons.mp member with isI | old
            · exact absurd isI same
            · exact old
          rw [otherWord j same 4 (le_refl 4)]
          exact rep.canary j old }

/-- The loop leases the first free unit, or all units it looked at are
leased. -/
theorem slabAllocFrom_spec {left : ℕ} (counted : i + left = slab.count) :
    (∃ j marked, j < slab.count ∧
      slabAllocFrom slab memory left i = some (some (slab.block j, marked)) ∧
      Represents slab marked (j :: units)) ∨ (slabAllocFrom slab memory left i = some none ∧
      ∀ j, i ≤ j → j < slab.count → j ∈ units) := by
  induction left generalizing i with
  | zero =>
    right
    refine ⟨rfl, ?_⟩
    intro j fromI below
    omega
  | succ left ih =>
    have below : i < slab.count := by omega
    simp only [slabAllocFrom, rep.leased i below, bind_eq_bind, bind_some]
    by_cases free : i ∉ units
    · left
      obtain ⟨flagged, marked, storeFlag, storeCanary, rep'⟩ := rep.mark below free
      refine ⟨i, marked, below, ?_, rep'⟩
      rw [if_pos ((ofLittleEndian_flag i units).mpr free), storeFlag,
        bind_some, storeCanary, bind_some]
    · rw [if_neg (fun isZero => free ((ofLittleEndian_flag i units).mp isZero))]
      rcases ih (i := i + 1) (by omega) with
        found | ⟨none', all⟩
      · exact .inl found
      · right
        refine ⟨none', ?_⟩
        intro j fromI jBelow
        by_cases first : j = i
        · rw [first]
          exact not_not.mp free
        · exact all j (by omega) jBelow

theorem slabAlloc_room (room : units.length < slab.count) :
    ∃ i marked, i < slab.count ∧ slabAlloc memory slab = some (0, some (slab.block i), marked) ∧
      Represents slab marked (i :: units) := by
  rcases slabAllocFrom_spec rep (zero_add slab.count) with
    ⟨i, marked, below, found, rep'⟩ | ⟨_, all⟩
  · refine ⟨i, marked, below, ?_, rep'⟩
    simp only [slabAlloc, found, some_bind]
  · exfalso
    have covered : range slab.count ⊆ units := by
      intro j member
      exact all j (zero_le j) (mem_range.mp member)
    have enough := (subperm_of_subset nodup_range covered).length_le
    rw [length_range] at enough
    omega

theorem slabAlloc_full (full : units.length = slab.count) :
    slabAlloc memory slab = some (-1, none, memory) := by
  rcases slabAllocFrom_spec rep (zero_add slab.count) with
    ⟨i, marked, below, _, rep'⟩ | ⟨none', _⟩
  · have tooMany := rep'.length_le
    simp only [length_cons] at tooMany
    omega
  · simp only [slabAlloc, none', some_bind]

theorem slabFree_spec (isLeased : i ∈ units) :
    ∃ released, slabFree memory (slab.block i) = some (0, released) ∧
      Represents slab released (units.erase i) := by
  have below := rep.bounded i isLeased
  have header := rep.header
  have inside := unit_inside rep below
  obtain ⟨released, storeFlag, flagStored⟩ := exists_store memory (slab.unit i) (littleEndian 4 0)
    (by rw [length_littleEndian]; omega)
  have flagSame := flagStored.same
  rw [length_littleEndian] at flagSame
  have blockUnit : slab.block i - 8 = slab.unit i := Nat.add_sub_cancel (slab.unit i) 8
  refine ⟨released, ?_, ?_⟩
  · have notBelow : ¬ slab.block i < 8 := by
      simp only [Slab.block]
      omega
    simp only [slabFree, blockUnit, rep.canary i isLeased, storeFlag, some_bind]
    rw [if_neg notBelow, if_neg (not_not.mpr (ofLittleEndian_littleEndian (by decide)))]
  · exact
      { header := header
        inside := by
          rw [flagStored.length]
          exact rep.inside
        nodup := rep.nodup.erase i
        bounded := fun j member =>
          rep.bounded j (mem_of_mem_erase member)
        leased := by
          intro j jBelow
          by_cases same : j = i
          · subst same
            rw [flagSame, if_neg rep.nodup.not_mem_erase]
          · have apart := unit_apart slab same
            rw [flagStored.apart (slab.unit j) 4 (by rw [length_littleEndian]; omega),
              rep.leased j jBelow]
            simp only [mem_erase_of_ne same]
        canary := by
          intro j member
          have different : j ≠ i := by
            rintro rfl
            exact rep.nodup.not_mem_erase member
          have apart := unit_apart slab different
          rw [flagStored.apart (slab.unit j + 4) 4 (by rw [length_littleEndian]; omega)]
          exact rep.canary j (mem_of_mem_erase member) }

end

end Headers

/-! ## Initialisation -/

/-- The units that `slab_init` makes lie in the blob, and none is leased. -/
theorem slabInit_spec {memory start : List UInt8} {given slab : Slab}
    {slabSize blob blobSize : ℕ} {code : Int} (initialised :
      slabInit memory given slabSize blob blobSize = some (code, slab, start))
    (succeeded : code ≠ -1) :
    Represents slab start [] ∧ slab.blob = blob ∧ slab.unit slab.count ≤ blob + blobSize := by
  simp only [slabInit] at initialised
  generalize isSize : (roundUp slabSize + 8) % 2 ^ 64 = size at initialised
  split at initialised
  · obtain ⟨rfl, _⟩ := mk.inj (some.inj initialised)
    exact absurd rfl succeeded
  split at initialised
  · cases initialised
  rename_i _ sizeNe
  obtain ⟨cleared, storeZeros, result⟩ := bind_eq_some_iff.mp initialised
  obtain ⟨_, rest⟩ := mk.inj (some.inj result)
  obtain ⟨rfl, rfl⟩ := mk.inj rest
  have header : 8 ≤ size := by
    simp only [roundUp] at isSize
    omega
  have covered : blobSize / size * size ≤ blobSize := div_mul_le_self blobSize size
  obtain ⟨room, stored⟩ := stored_of_store storeZeros
  have zeros := stored.same
  rw [length_replicate] at room zeros
  refine ⟨?_, rfl, ?_⟩
  · exact
      { header := header
        inside := by
          rw [stored.length]
          simp only [Slab.unit]
          omega
        nodup := nodup_nil
        bounded := fun i member => absurd member not_mem_nil
        leased := by
          intro i below
          have within : i * size + size ≤ blobSize / size * size := cell_inside size below
          have word := load_within zeros (i * size) 4 (by omega)
          simp only [Slab.unit]
          rw [word, if_neg not_mem_nil, drop_replicate, take_replicate, min_eq_left (by omega)]
          rfl
        canary := fun i member => absurd member not_mem_nil }
  · simp only [Slab.unit]
    omega

/-! ## Every history -/

variable {leased : List ℕ}

section Histories

variable {slab : Slab} {memory start : List UInt8} {units : List ℕ}

theorem block_injective (header : 8 ≤ slab.size) : Function.Injective slab.block := by
  intro i j same
  by_contra different
  have apart := unit_apart slab different
  simp only [Slab.block] at same
  omega

theorem Reached.rep (initial : Represents slab start [])
    (reached : Reached slab start memory leased) :
    ∃ units, leased = units.map slab.block ∧ Represents slab memory units := by
  induction reached with
  | init => exact ⟨[], rfl, initial⟩
  | alloc _ called ih =>
    obtain ⟨units, rfl, rep⟩ := ih
    rcases lt_or_eq_of_le rep.length_le with room | full
    · obtain ⟨i, marked, _, allocated, rep'⟩ := slabAlloc_room rep room
      rw [allocated] at called
      obtain ⟨_, rest⟩ := mk.inj (some.inj called)
      obtain ⟨rfl, rfl⟩ := mk.inj rest
      exact ⟨i :: units, rfl, rep'⟩
    · rw [slabAlloc_full rep full] at called
      obtain ⟨_, rest⟩ := mk.inj (some.inj called)
      obtain ⟨rfl, rfl⟩ := mk.inj rest
      exact ⟨units, rfl, rep⟩
  | free _ isLeased called ih =>
    obtain ⟨units, rfl, rep⟩ := ih
    obtain ⟨i, member, rfl⟩ := mem_map.mp isLeased
    obtain ⟨released, freed, rep'⟩ := slabFree_spec rep member
    rw [freed] at called
    obtain ⟨_, rfl⟩ := mk.inj (some.inj called)
    exact ⟨units.erase i, (map_erase (block_injective rep.header) units).symm, rep'⟩
  | write _ isLeased from' to' written ih =>
    obtain ⟨units, rfl, rep⟩ := ih
    obtain ⟨i, member, rfl⟩ := mem_map.mp isLeased
    refine ⟨units, rfl, rep.write from' to' ?_⟩
    exact (stored_of_store written).2

theorem slabAllocs_spec {left : ℕ} (rep : Represents slab memory units)
    (counted : units.length + left = slab.count) :
    ∃ (more : List ℕ) (last : List UInt8),
      slabAllocs slab left memory = some (more.map slab.block, last) ∧
      ∀ i < slab.count, i ∈ more ∨ i ∈ units := by
  induction left generalizing memory units with
  | zero =>
    refine ⟨[], memory, rfl, ?_⟩
    intro i below
    exact .inr (rep.mem_of_full counted below)
  | succ left ih =>
    obtain ⟨i, marked, _, allocated, rep'⟩ := slabAlloc_room rep (by omega)
    obtain ⟨more, last, rest, covered⟩ := ih rep' (by
      simp only [length_cons]
      omega)
    refine ⟨i :: more, last, ?_, ?_⟩
    · simp only [slabAllocs, allocated, rest, some_bind, if_true, toList_some, map_cons,
        singleton_append]
    · intro j below
      rcases covered j below with new | old
      · exact .inl (mem_cons_of_mem i new)
      · rcases mem_cons.mp old with rfl | older
        · exact .inl mem_cons_self
        · exact .inr older

theorem blocks_apart (header : 8 ≤ slab.size) (nodup : units.Nodup) :
    (units.map slab.block).Pairwise fun one other =>
      one + (slab.size - 8) ≤ other ∨ other + (slab.size - 8) ≤ one := by
  rw [pairwise_map]
  apply nodup.imp
  intro i j different
  have apart := unit_apart slab different
  simp only [Slab.block]
  omega

/-- In every history after a successful `slab_init`, the leased blocks are
different, disjoint and inside the blob; `slab_alloc` fails exactly when all
units are leased; and a leased block can be freed and is leased again by
further calls of `slab_alloc`. -/
theorem leased_blocks_disjoint_and_reusable (memory start : List UInt8) (given slab : Slab)
    (slabSize blob blobSize : ℕ) (code : Int) (initialised :
      slabInit memory given slabSize blob blobSize = some (code, slab, start))
    (succeeded : code ≠ -1) (current : List UInt8) (leased : List ℕ)
    (reached : Reached slab start current leased) :
    (8 ≤ slab.size ∧ leased.Nodup ∧ leased.Pairwise (fun one other =>
        one + (slab.size - 8) ≤ other ∨ other + (slab.size - 8) ≤ one) ∧
      ∀ block ∈ leased, blob ≤ block ∧ block + (slab.size - 8) ≤ blob + blobSize) ∧
    (∃ result block after, slabAlloc current slab = some (result, block, after) ∧
      (result = 0 ∨ result = -1) ∧
      (result = -1 ↔ leased.length = slab.count)) ∧
    ∀ block ∈ leased, ∃ released, slabFree current block = some (0, released) ∧
      ∃ calls blocks last, slabAllocs slab calls released = some (blocks, last) ∧
        block ∈ blocks := by
  obtain ⟨initial, blobIs, inBlob⟩ := slabInit_spec initialised succeeded
  obtain ⟨units, rfl, rep⟩ := reached.rep initial
  have injective := block_injective rep.header
  have header := rep.header
  refine ⟨⟨header, rep.nodup.map injective, blocks_apart header rep.nodup, ?_⟩, ?_, ?_⟩
  · intro block isLeased
    obtain ⟨i, member, rfl⟩ := mem_map.mp isLeased
    have within := cell_inside slab.size (rep.bounded i member)
    simp only [Slab.block, Slab.unit] at inBlob ⊢
    omega
  · rw [length_map]
    rcases Nat.lt_or_eq_of_le rep.length_le with room | full
    · obtain ⟨i, marked, _, allocated, _⟩ := slabAlloc_room rep room
      refine ⟨0, _, marked, allocated, .inl rfl, ?_⟩
      constructor
      · exact nofun
      · intro full
        omega
    · exact ⟨-1, none, current, slabAlloc_full rep full, .inr rfl, fun _ => full, fun _ => rfl⟩
  · intro block isLeased
    obtain ⟨i, member, rfl⟩ := mem_map.mp isLeased
    obtain ⟨released, freed, rep'⟩ := slabFree_spec rep member
    obtain ⟨more, last, leasedAgain, covered⟩ := slabAllocs_spec rep'
      (Nat.add_sub_cancel' rep'.length_le)
    refine ⟨released, freed, _, _, last, leasedAgain, ?_⟩
    rcases covered i (rep.bounded i member) with new | old
    · exact mem_map_of_mem new
    · exact absurd old rep.nodup.not_mem_erase

/-- Two units of 16 bytes, both leased, and a user write between the two
calls. -/
theorem leased_blocks_disjoint_and_reusable_twoUnits :
    ∃ current, Reached { blob := 0, size := 16, count := 2 } (replicate 32 0) current [24, 8] ∧
      ∃ released, slabFree current 8 = some (0, released) ∧
        ∃ calls blocks last, slabAllocs { blob := 0, size := 16, count := 2 } calls released =
            some (blocks, last) ∧
          8 ∈ blocks := by
  have firstCall : slabAlloc (replicate 32 0) { blob := 0, size := 16, count := 2 } =
      some (0, some 8, [1, 0, 0, 0, 0xaf, 0xbe, 0xad, 0xde] ++ replicate 24 0) := by
    decide
  have userWrite : store ([1, 0, 0, 0, 0xaf, 0xbe, 0xad, 0xde] ++ replicate 24 0) 8 [9, 9, 9] =
      some ([1, 0, 0, 0, 0xaf, 0xbe, 0xad, 0xde, 9, 9, 9] ++ replicate 21 0) := by
    decide
  have secondCall : slabAlloc ([1, 0, 0, 0, 0xaf, 0xbe, 0xad, 0xde, 9, 9, 9] ++ replicate 21 0)
      { blob := 0, size := 16, count := 2 } = some (0, some 24,
      [1, 0, 0, 0, 0xaf, 0xbe, 0xad, 0xde, 9, 9, 9, 0, 0, 0, 0, 0] ++
        ([1, 0, 0, 0, 0xaf, 0xbe, 0xad, 0xde] ++ replicate 8 0)) := by
    decide
  have one := Reached.alloc .init firstCall
  have reached := (one.write mem_cons_self (by decide) (by decide) userWrite).alloc secondCall
  refine ⟨_, reached, ?_⟩
  exact (leased_blocks_disjoint_and_reusable (replicate 32 7)
    (replicate 32 0) { blob := 5, size := 5, count := 5 } _ 5 0 32 2
    (by decide) (by decide) _ _ reached).2.2 8 (by decide)

/-! ## Freeing a block that is not leased -/

/-- `slab_free` accepts the block exactly if it is leased, and a rejected
call changes nothing. -/
def FreesExactly (memory : List UInt8) (leased : List ℕ) (block : ℕ) : Prop :=
  ∃ code after, slabFree memory block = some (code, after) ∧
    (code = 0 ↔ block ∈ leased) ∧ (code ≠ 0 → code = -1 ∧ after = memory)

/-- The word in front of the block is the canary only if the block is
leased. -/
def Guarded (memory : List UInt8) (leased : List ℕ) (block : ℕ) : Prop :=
  ∀ word, load memory (block - 8 + 4) 4 = some word →
    ofLittleEndian word = canaryValue → block ∈ leased

/-- The histories in which `slab_free` is called with any guarded block. -/
inductive Ran (slab : Slab) (start : List UInt8) : List UInt8 → List ℕ → Prop
  | init : Ran slab start start []
  | alloc {memory after : List UInt8} {leased : List ℕ} {code : Int} {block : Option ℕ}
    (ran : Ran slab start memory leased)
    (called : slabAlloc memory slab = some (code, block, after)) :
    Ran slab start after (block.toList ++ leased)
  | free {memory after : List UInt8} {leased : List ℕ} {code : Int} {block : ℕ}
    (ran : Ran slab start memory leased) (guarded : Guarded memory leased block)
    (called : slabFree memory block = some (code, after)) :
    Ran slab start after (leased.erase block)
  | write {memory after : List UInt8} {leased : List ℕ} {block offset : ℕ} {data : List UInt8}
    (ran : Ran slab start memory leased) (isLeased : block ∈ leased)
    (from' : block ≤ offset) (to' : offset + data.length ≤ block + (slab.size - 8))
    (written : store memory offset data = some after) : Ran slab start after leased

theorem slabFree_eq (memory : List UInt8) (block : ℕ) (header : 8 ≤ block)
    (inside : block ≤ memory.length) :
    ∃ word released, load memory (block - 8 + 4) 4 = some word ∧ slabFree memory block =
      if ofLittleEndian word ≠ canaryValue then some (-1, memory) else some (0, released) := by
  have loaded : load memory (block - 8 + 4) 4 = some ((memory.drop (block - 8 + 4)).take 4) :=
    if_pos (by omega)
  obtain ⟨released, stored, -⟩ :=
    exists_store memory (block - 8) (littleEndian 4 0) (by rw [length_littleEndian]; omega)
  refine ⟨_, released, loaded, ?_⟩
  simp only [slabFree, if_neg (not_lt.mpr header), loaded, stored, some_bind]

/-- A rejected call leaves the memory as it was. -/
theorem Ran.reached (ran : Ran slab start memory leased) : Reached slab start memory leased := by
  induction ran with
  | init => exact .init
  | alloc _ called ih => exact ih.alloc called
  | write _ isLeased from' to' written ih => exact ih.write isLeased from' to' written
  | @free memory after leased code block _ guarded called ih =>
    by_cases isLeased : block ∈ leased
    · exact ih.free isLeased called
    · rw [erase_of_not_mem isLeased]
      have unchanged : after = memory := by
        simp only [slabFree, bind_eq_bind] at called
        split at called
        · cases called
        · obtain ⟨word, loaded, outcome⟩ := bind_eq_some_iff.mp called
          rw [if_pos (mt (guarded word loaded) isLeased)] at outcome
          cases outcome
          rfl
      rw [unchanged]
      exact ih

/-- In every history of guarded calls, a call of `slab_free` answers as it
should exactly if its block is guarded too: the canary of a freed unit, or a
copy of it anywhere, is taken for a lease. -/
theorem freesExactly_iff_guarded (memory start : List UInt8) (given slab : Slab)
    (slabSize blob blobSize : ℕ) (code : Int)
    (initialised : slabInit memory given slabSize blob blobSize = some (code, slab, start))
    (succeeded : code ≠ -1) (current : List UInt8) (leased : List ℕ)
    (ran : Ran slab start current leased) (block : ℕ) (header : 8 ≤ block)
    (inside : block ≤ current.length) :
    FreesExactly current leased block ↔ Guarded current leased block := by
  obtain ⟨initial, -⟩ := slabInit_spec initialised succeeded
  obtain ⟨units, rfl, rep⟩ := ran.reached.rep initial
  obtain ⟨word, released, loaded, called⟩ := slabFree_eq current block header inside
  by_cases isCanary : ofLittleEndian word = canaryValue
  · rw [if_neg (not_not.mpr isCanary)] at called
    constructor
    · rintro ⟨result, after, calledAgain, exactly, -⟩ _ _ _
      rw [called] at calledAgain
      cases calledAgain
      exact exactly.mp rfl
    · intro guarded
      exact ⟨0, released, called, iff_of_true rfl (guarded word loaded isCanary),
        fun nonzero => absurd rfl nonzero⟩
  · rw [if_pos isCanary] at called
    have notLeased : block ∉ units.map slab.block := by
      intro isLeased
      obtain ⟨i, member, rfl⟩ := mem_map.mp isLeased
      obtain ⟨freed, accepted, -⟩ := slabFree_spec rep member
      rw [called] at accepted
      cases accepted
    refine iff_of_true ?_ ?_
    · exact ⟨-1, current, called, iff_of_false (by decide) notLeased, fun _ => ⟨rfl, rfl⟩⟩
    · intro other loadedAgain isOther
      rw [loaded] at loadedAgain
      cases loadedAgain
      exact absurd isOther isCanary

/-- One unit of 16 bytes, leased, and a call with an address outside it. -/
theorem freesExactly_iff_guarded_oneUnit :
    FreesExactly ([1, 0, 0, 0, 0xaf, 0xbe, 0xad, 0xde] ++ replicate 8 0) [8] 16 ↔
      Guarded ([1, 0, 0, 0, 0xaf, 0xbe, 0xad, 0xde] ++ replicate 8 0) [8] 16 := by
  have allocated : slabAlloc (replicate 16 0) { blob := 0, size := 16, count := 1 } =
      some (0, some 8, [1, 0, 0, 0, 0xaf, 0xbe, 0xad, 0xde] ++ replicate 8 0) := by
    decide
  exact freesExactly_iff_guarded (replicate 16 7) (replicate 16 0)
    { blob := 5, size := 5, count := 5 } _ 5 0 16 1 (by decide) (by decide) _ _
    (.alloc .init allocated) 16 (by decide) (by decide)

/-- After `slab_alloc` and `slab_free` of one unit, a second `slab_free` of
its block returns 0. -/
theorem slabFree_twice :
    ∃ current, Reached { blob := 0, size := 16, count := 1 } (replicate 16 0) current [] ∧
      slabFree current 8 = some (0, current) ∧ ¬FreesExactly current [] 8 := by
  have allocated : slabAlloc (replicate 16 0) { blob := 0, size := 16, count := 1 } =
      some (0, some 8, [1, 0, 0, 0, 0xaf, 0xbe, 0xad, 0xde] ++ replicate 8 0) := by
    decide
  have freed : slabFree ([1, 0, 0, 0, 0xaf, 0xbe, 0xad, 0xde] ++ replicate 8 0) 8 =
      some (0, [0, 0, 0, 0, 0xaf, 0xbe, 0xad, 0xde] ++ replicate 8 0) := by
    decide
  have again : slabFree ([0, 0, 0, 0, 0xaf, 0xbe, 0xad, 0xde] ++ replicate 8 0) 8 =
      some (0, [0, 0, 0, 0, 0xaf, 0xbe, 0xad, 0xde] ++ replicate 8 0) := by
    decide
  refine ⟨_, (Reached.alloc .init allocated).free mem_cons_self freed, again, ?_⟩
  rintro ⟨code, after, called, exactly, -⟩
  rw [again] at called
  cases called
  exact not_mem_nil (exactly.mp rfl)

end Histories

end Skyc.Utils.Slabs
