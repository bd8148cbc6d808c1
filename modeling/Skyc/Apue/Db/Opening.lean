import Skyc.Apue.Db.Calls

/-!
# A new database

`db_open` with `O_CREAT` and `O_TRUNC` leaves an empty free list and empty
hash chains.
-/

namespace Skyc.Apue.Db

open Skyc.Lib Program List

/-! ## The files -/

def tableTiles (count : ℕ) : List Block :=
  List.replicate count (.ptr 0) ++ [.newline]

theorem tableTiles_succ (count : ℕ) : tableTiles (count + 1) = .ptr 0 :: tableTiles count := rfl

theorem length_encode_ptr (next : Pointer) :
    (Block.encode (.ptr next)).length = ptrSz := length_ptrField next

theorem layout_tableTiles : layout Block.encode (tableTiles 138) = emptyTable := by
  have field : Block.encode (.ptr 0) = padLeft ptrSz (printInt 0) := rfl
  have count : nhashDef.toNat + 1 = 138 := by decide
  rw [tableTiles, layout_append, layout, flatMap_replicate, field, emptyTable, count]
  rfl

theorem length_layout_tableTiles (count : ℕ) :
    (layout Block.encode (tableTiles count)).length = ptrSz * count + 1 := by
  induction count with
  | zero => rfl
  | succ count ih =>
    rw [tableTiles_succ, layout_cons, length_append, ih, length_encode_ptr, Nat.mul_succ]
    omega

theorem length_emptyTable : emptyTable.length = recordsStart := by
  rw [← layout_tableTiles, length_layout_tableTiles]
  rfl

theorem tileAt_tableTiles (count offset : ℕ) :
    tileAt Block.encode (tableTiles count) offset = if offset < ptrSz * count then
        if offset % ptrSz = 0 then some (.ptr 0) else none
      else if offset = ptrSz * count then
        some .newline
      else
        none := by
  induction count generalizing offset with
  | zero =>
    have single : tableTiles 0 = [.newline] := rfl
    rw [single, tileAt, Nat.mul_zero, if_neg (Nat.not_lt_zero offset)]
    split
    · rfl
    · split
      · rfl
      · rfl
  | succ count ih =>
    rw [tableTiles_succ, tileAt, length_encode_ptr]
    by_cases start : offset = 0
    · rw [if_pos start, start, if_pos (by simp), Nat.zero_mod, if_pos rfl]
    · rw [if_neg start]
      by_cases inside : offset < ptrSz
      · have notStart : ¬ (offset % ptrSz = 0) := by
          rw [Nat.mod_eq_of_lt inside]
          exact start
        have early : offset < ptrSz * (count + 1) := by
          rw [Nat.mul_succ]
          omega
        rw [if_pos inside, if_pos early, if_neg notStart]
      · have later : offset = offset - ptrSz + ptrSz := by omega
        rw [if_neg inside, ih, later, Nat.add_sub_cancel, Nat.add_mod_right, Nat.mul_succ]
        simp only [Nat.add_lt_add_iff_right, Nat.add_right_cancel_iff]

/-- The handle that `db_open` returns. -/
def opened : DB :=
  { allocated with idxoff := recordsStart }

def openedOffsets : DbFile → ℕ
  | .idx => recordsStart
  | .dat => 0

def freshFiles : DbFile → List UInt8
  | .idx => emptyTable
  | .dat => []

variable {Process : Type} [DecidableEq Process]

theorem solo_dbOpen_create (process : Process) :
    (dbOpen true).solo process 5 (fun _ => []) [] (fun _ => 0) =
      some (.done opened, openedOffsets, freshFiles, []) := by
  have grantable : Grant.Grantable [] process DbFile.idx .exclusive (Region.ofLen 0 0) := nofun
  have nothingLeft : (Region.ofLen 0 0).minus (Region.ofLen 0 0) = [] := by decide
  have released : Grant.release (Grant.acquire [] process DbFile.idx .exclusive
      (Region.ofLen 0 0)) process .idx (Region.ofLen 0 0) = [] := by
    simp [Grant.release, Grant.acquire, nothingLeft]
  have written : writeAt [] 0 emptyTable = emptyTable := by simp [writeAt]
  have files : Function.update (fun _ => []) DbFile.idx emptyTable = freshFiles := by
    funext file
    cases file with
    | idx | dat => rfl
  have nhash : allocated.nhash.toNat = 137 := by decide
  simp [dbOpen, solo, Program.step, dbRewind, onlyIf, failIf, FileOp.exec,
    grantable, released, written, length_emptyTable, nhash, Whence.base]
  refine ⟨rfl, ?_, files⟩
  funext file
  cases file with
  | idx | dat => rfl

/-! ## The processes -/

abbrev DbService (Process : Type) :=
  Service Process DbFile DbError Call DB Answer

def freshService (Process : Type) : DbService Process where
  files := freshFiles
  locks := []
  thread := fun _ => ⟨openedOffsets, opened, .idle⟩
  history := []

def freshStore : DbStore where
  tile
    | .idx => tileAt Block.encode (tableTiles 138)
    | .dat => fun _ => none
  size
    | .idx => recordsStart
    | .dat => 0
  contents := fun _ => none

theorem freshStore_holds : Store.Holds Block.encode freshFiles freshStore := by
  refine ⟨fun | .idx => tableTiles 138 | .dat => [], ?_⟩
  intro file
  cases file with
  | idx => exact ⟨layout_tableTiles.symm, rfl, length_emptyTable.symm⟩
  | dat => exact ⟨rfl, rfl, rfl⟩

/-- The lock that a location of a new database belongs to. -/
def freshKeeper : DbLoc → DbLock
  | .tile .idx offset =>
    if offset = freeOff then
      .free
    else if inTable : offset < ptrSz * 138 ∧ offset % ptrSz = 0 then
      .chain ⟨(offset - hashOff) / ptrSz, by
        simp only [ptrSz, hashOff] at inTable ⊢
        omega⟩
    else
      .records
  | .tile .dat _ => .data
  | .size .idx => .records
  | .size .dat => .data
  | .content key => .chain (bucket key)

theorem idx_mem_chainLocs_nil {offset : ℕ} {chain : Bucket} :
    (.tile .idx offset : DbLoc) ∈ chainLocs chain [] ↔ offset = chainCell chain := by
  simp [chainLocs, bucketLocs, cells]

theorem freshKeeper_eq_chain (loc : DbLoc) (chain : Bucket) :
    freshKeeper loc = .chain chain ↔ loc ∈ chainLocs chain [] := by
  cases loc with
  | tile file offset =>
    cases file with
    | idx =>
      have below := chain.isLt
      rw [idx_mem_chainLocs_nil, freshKeeper]
      simp only [chainCell, freeOff, ptrSz, hashOff]
      split
      case isTrue start =>
        simp only [reduceCtorEq, false_iff]
        omega
      case isFalse =>
        split
        case isTrue inTable =>
          simp only [DbLock.chain.injEq, Fin.ext_iff]
          omega
        case isFalse outside =>
          simp only [reduceCtorEq, false_iff]
          omega
    | dat => simp [freshKeeper, chainLocs, bucketLocs]
  | size file =>
    cases file with
    | idx | dat => simp [freshKeeper, chainLocs, bucketLocs, listLocs]
  | content key => simp [freshKeeper, chainLocs, bucketLocs, listLocs]

theorem freshKeeper_eq_free (loc : DbLoc) :
    freshKeeper loc = .free ↔ loc ∈ listLocs freeOff [] := by
  cases loc with
  | tile file offset =>
    cases file with
    | idx =>
      rw [idx_mem_listLocs, freshKeeper]
      split
      case isTrue start => simp [cells, start]
      case isFalse elsewhere =>
        split
        case isTrue => simp [cells, elsewhere]
        case isFalse => simp [cells, elsewhere]
    | dat => simp [freshKeeper, listLocs]
  | size file =>
    cases file with
    | idx | dat => simp [freshKeeper, listLocs]
  | content key => simp [freshKeeper, listLocs]

theorem freshKeeper_eq_records {offset : ℕ} (notFree : offset ≠ freeOff)
    (outside : ¬ (offset < ptrSz * 138 ∧ offset % ptrSz = 0)) :
    freshKeeper (.tile .idx offset) = .records := by
  rw [freshKeeper, if_neg notFree, dif_neg outside]

theorem freshStore_tile (offset : ℕ) :
    freshStore.tile .idx offset = if offset < ptrSz * 138 then
        if offset % ptrSz = 0 then some (.ptr 0) else none
      else if offset = ptrSz * 138 then
        some .newline
      else
        none :=
  tileAt_tableTiles 138 offset

theorem freshStore_list {head : ℕ} (inTable : head < ptrSz * 138) (aligned : head % ptrSz = 0) :
    ListAt freshStore head [] := by
  have headTile : freshStore.tile .idx head = some (.ptr 0) := by
    rw [freshStore_tile, if_pos inTable, if_pos aligned]
  refine ⟨⟨0, headTile⟩, ⟨0, ?_, rfl⟩, by simp [cells], by simp⟩
  rw [nextAt, headTile]
  rfl

theorem invariant_fresh (keys : Set CString) (lock : DbLock) :
    invariant keys lock {loc | freshKeeper loc = lock} freshStore := by
  cases lock with
  | chain chain =>
    have below := chain.isLt
    refine ⟨[], ?_, ?_, ?_, ?_⟩
    · apply freshStore_list
      · simp only [chainCell, ptrSz, hashOff]
        omega
      · simp only [chainCell, ptrSz, hashOff]
        omega
    · ext loc
      exact freshKeeper_eq_chain loc chain
    · exact ⟨forall_mem_nil _, forall_mem_nil _, nodup_nil⟩
    · exact fun key _ => rfl
  | free =>
    refine ⟨[], ?_, ?_, forall_mem_nil _⟩
    · exact freshStore_list (by decide) (by decide)
    · ext loc
      exact freshKeeper_eq_free loc
  | records =>
    refine ⟨⟨rfl, ?_⟩, Nat.le_refl _, ⟨?_, ?_⟩, ?_⟩
    · intro offset beyond
      have afterTable : 967 ≤ offset := beyond
      apply freshKeeper_eq_records
      · simp only [freeOff]
        omega
      · simp only [ptrSz]
        omega
    · exact freshKeeper_eq_records (by decide) (by decide)
    · rw [freshStore_tile, if_neg (by decide), if_pos (by decide)]
    · intro offset ofRecords notNewline
      have keeper : freshKeeper (.tile .idx offset) = .records := ofRecords
      rw [freshKeeper] at keeper
      rw [freshStore_tile]
      split
      case isTrue inTable =>
        split
        case isTrue aligned =>
          rw [dif_pos ⟨inTable, aligned⟩] at keeper
          split at keeper
          · cases keeper
          · cases keeper
        case isFalse => rfl
      case isFalse =>
        have elsewhere : offset ≠ ptrSz * 138 := notNewline
        rw [if_neg elsewhere]
  | data =>
    refine ⟨⟨rfl, fun offset _ => rfl⟩, ?_⟩
    intro offset ofData
    have keeper : freshKeeper (.tile .idx offset) = .data := ofData
    rw [freshKeeper] at keeper
    split at keeper
    · cases keeper
    · split at keeper
      · cases keeper
      · cases keeper

def freshHold : DbHold where
  own := ∅
  lent := ∅
  held := fun _ => none
  offsets := openedOffsets
  store := freshStore

omit [DecidableEq Process] in
theorem freshService_sound (keys : Set CString) :
    Service.Sound (discipline keys) (fun _ => none) (freshService Process) := by
  refine ⟨fun loc => .lock (freshKeeper loc), freshStore, fun _ => freshHold, ?_, ?_⟩
  · refine ⟨freshStore_holds, rfl, rfl, ⟨?_, nofun, ?_, nofun, ?_⟩, ⟨?_, nofun, nofun⟩⟩
    · intro lock _
      have sameLocs :
          {loc | Owner.lock (freshKeeper loc) =
            (Owner.lock lock : Owner Process DbLock)} = {loc | freshKeeper loc = lock} := by
        ext loc
        simp
      rw [sameLocs]
      exact invariant_fresh keys lock
    · intro process loc
      simp [freshHold]
    · rintro process loc (own | lent)
      · cases own
      · cases lent
    · intro process lock mode
      simp [freshHold, freshService, Grant.Held]
  · intro process
    exact ⟨rfl, ⟨rfl, rfl⟩, ⟨rfl, rfl, fun _ => rfl⟩⟩

end Skyc.Apue.Db
