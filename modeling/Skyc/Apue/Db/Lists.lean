import Skyc.Apue.Db.Format
import Skyc.Lib.Discipline

/-!
# The linked lists of the index file

The free list and the hash chains are linked by offsets.  An `Entry` is an
index record with its data record, and `Chain` says that a list of entries
is what one finds when following the pointers from a cell.
-/

namespace Skyc.Apue.Db

open Skyc.Lib List

abbrev DbStore := Store DbFile Block CString (Option CString)

abbrev DbLoc := Loc DbFile CString

/-- An index record in its place, with its data. -/
structure Entry where
  offset : ℕ
  record : IndexRecord
  data : CString
  fits : record.datlen = data.bytes.length + 1

namespace Entry

abbrev key (entry : Entry) : CString :=
  entry.record.key

abbrev datoff (entry : Entry) : ℕ :=
  entry.record.datoff

end Entry

def nextAt (store : DbStore) (cell : ℕ) : Option Pointer :=
  (store.tile .idx cell).bind Block.next

def PointsTo (store : DbStore) (cell target : ℕ) : Prop :=
  ∃ next : Pointer, nextAt store cell = some next ∧ (next : ℕ) = target

/-- The records of an entry are where the entry says. -/
structure Stored (store : DbStore) (entry : Entry) : Prop where
  index : ∃ next, store.tile .idx entry.offset = some (.index next entry.record)
  data : store.tile .dat entry.datoff = some (.data entry.data)

/-- The entries found from a cell on. -/
def Chain (store : DbStore) : ℕ → List Entry → Prop
  | cell, [] => PointsTo store cell 0
  | cell, entry :: rest =>
    PointsTo store cell entry.offset ∧ entry.offset ≠ 0 ∧
      Stored store entry ∧ Chain store entry.offset rest

/-- The last cell on the way through some entries. -/
def lastCell : ℕ → List Entry → ℕ
  | cell, [] => cell
  | _, entry :: rest => lastCell entry.offset rest

def entryLocs (entries : List Entry) : Set DbLoc :=
  {loc | ∃ entry ∈ entries, loc = .tile .idx entry.offset ∨ loc = .tile .dat entry.datoff}

def cells (head : ℕ) (entries : List Entry) : List ℕ :=
  head :: entries.map Entry.offset

/-! ## Locations of entries -/

@[simp]
theorem idx_mem_entryLocs {entries : List Entry} {offset : ℕ} :
    (.tile .idx offset : DbLoc) ∈ entryLocs entries ↔ offset ∈ entries.map Entry.offset := by
  simp only [entryLocs, Set.mem_ofPred_eq, Loc.tile.injEq, true_and,
    reduceCtorEq, false_and, or_false, mem_map, eq_comm]

@[simp]
theorem dat_mem_entryLocs {entries : List Entry} {offset : ℕ} :
    (.tile .dat offset : DbLoc) ∈ entryLocs entries ↔ offset ∈ entries.map Entry.datoff := by
  simp only [entryLocs, Set.mem_ofPred_eq, Loc.tile.injEq, true_and,
    reduceCtorEq, false_and, false_or, mem_map, eq_comm]

@[simp]
theorem size_notMem_entryLocs {entries : List Entry} {file : DbFile} :
    (.size file : DbLoc) ∉ entryLocs entries := by
  simp [entryLocs]

@[simp]
theorem content_notMem_entryLocs {entries : List Entry} {key : CString} :
    (.content key : DbLoc) ∉ entryLocs entries := by
  simp [entryLocs]

theorem entryLocs_mono {first second : List Entry} (subset : first ⊆ second) :
    entryLocs first ⊆ entryLocs second := by
  rintro loc ⟨entry, member, here⟩
  exact ⟨entry, subset member, here⟩

theorem lastCell_mem_cells (head : ℕ) (entries : List Entry) :
    lastCell head entries ∈ cells head entries := by
  induction entries generalizing head with
  | nil => exact mem_cons_self
  | cons entry rest ih => exact mem_cons_of_mem _ (ih entry.offset)

/-! ## Chains in different stores -/

variable {store other : DbStore} {cell otherCell : ℕ} {entry : Entry}
  {first second entries : List Entry}

theorem Stored.of_same (stored : Stored store entry) (index :
      store.tile .idx entry.offset = other.tile .idx entry.offset)
    (data : store.tile .dat entry.datoff = other.tile .dat entry.datoff) : Stored other entry := by
  obtain ⟨⟨next, placed⟩, dataPlaced⟩ := stored
  exact ⟨⟨next, index.symm.trans placed⟩, data.symm.trans dataPlaced⟩

variable (chain : Chain store cell entries)

include chain in
/-- Chains from cells with the same pointer are the same, as long as the
entries are. -/
theorem Chain.redirect (samePointer : nextAt other otherCell = nextAt store cell)
    (same : Store.Same (entryLocs entries) store other) : Chain other otherCell entries := by
  induction entries generalizing cell otherCell with
  | nil =>
    obtain ⟨next, points, target⟩ := chain
    exact ⟨next, samePointer.trans points, target⟩
  | cons entry rest ih =>
    obtain ⟨⟨next, points, target⟩, positive, stored, remaining⟩ := chain
    have index : store.tile .idx entry.offset = other.tile .idx entry.offset := same.tile (by simp)
    have data : store.tile .dat entry.datoff = other.tile .dat entry.datoff := same.tile (by simp)
    refine ⟨⟨next, samePointer.trans points, target⟩, positive, stored.of_same index data, ?_⟩
    apply ih remaining
    · rw [nextAt, nextAt, index]
    · exact same.mono (entryLocs_mono (subset_cons_self _ _))

include chain in
theorem Chain.congr (head : store.tile .idx cell = other.tile .idx cell)
    (same : Store.Same (entryLocs entries) store other) : Chain other cell entries := by
  apply chain.redirect _ same
  rw [nextAt, nextAt, head]

theorem Chain.suffix (chain : Chain store cell (first ++ second)) :
    Chain store (lastCell cell first) second := by
  induction first generalizing cell with
  | nil => exact chain
  | cons entry rest ih => exact ih chain.2.2.2

include chain in
theorem Chain.stored (member : entry ∈ entries) :
    Stored store entry := by
  induction entries generalizing cell with
  | nil => cases member
  | cons next rest ih =>
    rcases mem_cons.mp member with rfl | member
    · exact chain.2.2.1
    · exact ih chain.2.2.2 member

include chain in
theorem Chain.positive (member : entry ∈ entries) :
    entry.offset ≠ 0 := by
  induction entries generalizing cell with
  | nil => cases member
  | cons next rest ih =>
    rcases mem_cons.mp member with rfl | member
    · exact chain.2.1
    · exact ih chain.2.2.2 member

/-- Replace what follows the first entries of a chain, which stay where they are. -/
theorem Chain.splice {after : List Entry} (chain : Chain store cell (first ++ second))
    (distinct : (cells cell first).Nodup)
    (stays : ∀ entry ∈ first, Stored store entry → Stored other entry)
    (pointers : ∀ place ∈ cells cell first,
      place ≠ lastCell cell first → nextAt other place = nextAt store place)
    (continues : Chain other (lastCell cell first) after) : Chain other cell (first ++ after) := by
  induction first generalizing cell with
  | nil => exact continues
  | cons entry rest ih =>
    obtain ⟨⟨next, points, target⟩, positive, stored, remaining⟩ := chain
    have notLast : cell ≠ lastCell entry.offset rest := by
      intro same
      have member := lastCell_mem_cells entry.offset rest
      rw [← same] at member
      exact (nodup_cons.mp distinct).1 member
    refine ⟨⟨next, ?_, target⟩, positive, stays entry mem_cons_self stored, ?_⟩
    · rw [pointers cell mem_cons_self notLast]
      exact points
    · apply ih remaining
      · exact (nodup_cons.mp distinct).2
      · intro later member
        exact stays later (mem_cons_of_mem _ member)
      · intro place member
        exact pointers place (mem_cons_of_mem _ member)
      · exact continues

/-! ## Lists with their heads in the table -/

/-- A linked list with its head in the table of the index file. -/
structure ListAt (store : DbStore) (head : ℕ) (entries : List Entry) : Prop where
  headTile : ∃ next, store.tile .idx head = some (.ptr next)
  chain : Chain store head entries
  distinct : (cells head entries).Nodup
  distinctData : (entries.map Entry.datoff).Nodup

def listLocs (head : ℕ) (entries : List Entry) : Set DbLoc :=
  {loc | loc = .tile .idx head ∨ loc ∈ entryLocs entries}

@[simp]
theorem idx_mem_listLocs {head offset : ℕ} :
    (.tile .idx offset : DbLoc) ∈ listLocs head entries ↔ offset ∈ cells head entries := by
  simp [listLocs, cells]

@[simp]
theorem dat_mem_listLocs {head offset : ℕ} :
    (.tile .dat offset : DbLoc) ∈ listLocs head entries ↔ offset ∈ entries.map Entry.datoff := by
  simp [listLocs]

namespace ListAt

variable {head : ℕ} {next : Pointer} {block : Block}

theorem congr (list : ListAt store head entries)
    (same : Store.Same (listLocs head entries) store other) : ListAt other head entries := by
  have sameHead : store.tile .idx head = other.tile .idx head := same.tile (.inl rfl)
  obtain ⟨next, headTile⟩ := list.headTile
  refine ⟨⟨next, sameHead.symm.trans headTile⟩, ?_, list.distinct, list.distinctData⟩
  exact list.chain.congr sameHead (same.mono fun loc member => .inr member)

theorem link (list : ListAt store head entries) (headTile : other.tile .idx head = some (.ptr next))
    (target : (next : ℕ) = entry.offset) (positive : entry.offset ≠ 0) (stored : Stored other entry)
    (follows : nextAt other entry.offset = nextAt store head)
    (same : Store.Same (entryLocs entries) store other) (fresh : entry.offset ∉ cells head entries)
    (freshData : entry.datoff ∉ entries.map Entry.datoff) :
    ListAt other head (entry :: entries) where
  headTile := ⟨next, headTile⟩
  chain := by
    refine ⟨⟨next, ?_, target⟩, positive, stored, ?_⟩
    · rw [nextAt, headTile]
      rfl
    · exact list.chain.redirect follows same
  distinct := by
    have distinct := list.distinct
    simp only [cells, map_cons, nodup_cons, mem_cons, not_or] at fresh distinct ⊢
    exact ⟨⟨fun same => fresh.1 same.symm, distinct.1⟩, fresh.2, distinct.2⟩
  distinctData := nodup_cons.mpr ⟨freshData, list.distinctData⟩

variable (list : ListAt store head (first ++ entry :: second))

include list in
theorem lastCell_block :
    ∃ block, ∃ next : Pointer, store.tile .idx (lastCell head first) = some block ∧
      block.next = some next ∧ (next : ℕ) = entry.offset := by
  obtain ⟨⟨next, points, target⟩, -⟩ := list.chain.suffix
  obtain ⟨block, found, points⟩ := Option.bind_eq_some_iff.mp points
  exact ⟨block, next, found, points, target⟩

include list in
theorem chain_unlink (follows : nextAt store entry.offset = some next)
    (found : store.tile .idx (lastCell head first) = some block)
    (replaced : other.tile .idx (lastCell head first) = some (block.setNext next))
    (same : ∀ loc ∈ listLocs head (first ++ second),
      loc ≠ .tile .idx (lastCell head first) → store.SameAt other loc) :
    Chain other head (first ++ second) := by
  have lastMember := lastCell_mem_cells head first
  have distinct : (cells head first ++ (entry :: second).map Entry.offset).Nodup := by
    have distinct := list.distinct
    rw [cells, map_append] at distinct
    exact distinct
  have firstCells : ∀ place ∈ cells head first, place ∈ cells head (first ++ second) := by
    intro place member
    rw [cells, map_append, ← cons_append]
    exact mem_append_left _ member
  have sameTile : ∀ place ∈ cells head (first ++ second), place ≠ lastCell head first →
      store.tile .idx place = other.tile .idx place := by
    intro place member apart
    exact same _ (idx_mem_listLocs.mpr member) (fun here => apart (Loc.tile.inj here).2)
  obtain ⟨again, old, foundAgain, pointed, -⟩ := list.lastCell_block
  rw [found] at foundAgain
  cases foundAgain
  apply list.chain.splice distinct.of_append_left
  · intro earlier member stored
    have offsetMember : earlier.offset ∈ cells head first :=
      mem_cons_of_mem _ (mem_map_of_mem member)
    have sameData : store.tile .dat earlier.datoff = other.tile .dat earlier.datoff := by
      have dataMember : earlier.datoff ∈ (first ++ second).map Entry.datoff :=
        mem_map_of_mem (mem_append_left _ member)
      exact same _ (dat_mem_listLocs.mpr dataMember) (by simp)
    by_cases here : earlier.offset = lastCell head first
    · obtain ⟨⟨oldNext, index⟩, data⟩ := stored
      rw [here, found] at index
      cases index
      refine ⟨⟨next, ?_⟩, sameData.symm.trans data⟩
      rw [here]
      exact replaced
    · exact stored.of_same (sameTile _ (firstCells _ offsetMember) here) sameData
  · intro place member apart
    rw [nextAt, nextAt, sameTile place (firstCells place member) apart]
  · apply list.chain.suffix.2.2.2.redirect
    · rw [follows, nextAt, replaced]
      exact next_setNext pointed next
    · intro loc member
      apply same loc
      · exact .inr (entryLocs_mono (subset_append_right first second) member)
      · intro here
        subst here
        have later : lastCell head first ∈ (entry :: second).map Entry.offset :=
          mem_cons_of_mem _ (idx_mem_entryLocs.mp member)
        exact disjoint_of_nodup_append distinct lastMember later

theorem sublist_without (first second : List Entry) (entry : Entry) :
    (first ++ second).Sublist (first ++ entry :: second) :=
  (Sublist.refl first).append (sublist_cons_self entry second)

include list in
theorem unlink (follows : nextAt store entry.offset = some next)
    (found : store.tile .idx (lastCell head first) = some block)
    (replaced : other.tile .idx (lastCell head first) = some (block.setNext next))
    (same : ∀ loc ∈ listLocs head (first ++ second),
      loc ≠ .tile .idx (lastCell head first) → store.SameAt other loc) :
    ListAt other head (first ++ second) where
  headTile := by
    obtain ⟨headNext, headTile⟩ := list.headTile
    by_cases here : head = lastCell head first
    · rw [← here, headTile] at found
      cases found
      exact ⟨next, here ▸ replaced⟩
    · have sameHead : store.tile .idx head = other.tile .idx head :=
        same _ (.inl rfl) (fun equal => here (Loc.tile.inj equal).2)
      exact ⟨headNext, sameHead.symm.trans headTile⟩
  chain := list.chain_unlink follows found replaced same
  distinct := list.distinct.sublist
    (((sublist_without first second entry).map Entry.offset).cons_cons head)
  distinctData := list.distinctData.sublist ((sublist_without first second entry).map Entry.datoff)

end ListAt

end Skyc.Apue.Db
