import Skyc.Apue.Db.Working

/-!
# Finding, deleting and adding entries

The parts of the calls under the lock of a chain.  The lock of the free list is
held only while an entry is moved.
-/

namespace Skyc.Apue.Db

open Skyc.Lib Program List Set Store Safe

variable {keys : Set CString} {call : Call} {hold : DbHold} {db : DB}
  {offsets : DbFile → ℕ} {store : DbStore} {chain : Bucket}
  {first second entries original : List Entry} {entry : Entry}

/-! ## Finding a key -/

variable {rest : DB × ℤ → DbProgram (DB × Answer)}

theorem safe_search {key : CString} (list : ListAt store (chainCell chain) entries)
    (visible : ∀ cell ∈ cells (chainCell chain) entries, .tile .idx cell ∈ hold.visible)
    (known : ∀ entry ∈ entries, entry.key ∈ keys) (droppable : DbDroppable keys hold store)
    (atCell : db.ptroff = chainCell chain) (absent : (∀ entry ∈ entries, entry.key ≠ key) →
      ∀ offsets other, db.SameTable other →
        DbSafe keys call (rest (other, -1)) (hold.moved offsets store))
    (present : ∀ first entry second follower, entries = first ++ entry :: second → entry.key = key →
      store.tile .idx entry.offset = some (.index follower entry.record) →
      ∀ offsets other, db.SameTable other → other.Shows entry.offset follower entry.record →
        other.ptroff = lastCell (chainCell chain) first →
          DbSafe keys call (rest (other, 0)) (hold.moved offsets store)) :
    DbSafe keys call (readptr db.ptroff >>= fun offset =>
        .loop (chainStep key.bytes) (db, offset) fun found =>
          rest (found.1, if found.2 = 0 then -1 else 0))
      (hold.moved offsets store) := by
  obtain ⟨next, headTile⟩ := list.headTile
  have points : nextAt store (chainCell chain) = some next := by
    rw [nextAt, headTile]
    rfl
  rw [atCell]
  apply safe_readptr (visible _ mem_cons_self) points
  intro offsets
  apply safe_chainLoop points list.chain _ known droppable atCell
  · intro apart offsets other sameTable
    simp only [if_pos]
    exact absent apart offsets other sameTable
  · intro first entry second follower split sameKey index offsets other sameTable shows behindCell
    have member : entry ∈ entries := by
      rw [split]
      exact mem_append_cons_self
    have nonzero : ¬ ((entry.offset : ℤ) = 0) := by
      have positive := list.chain.positive member
      omega
    simp only [if_neg nonzero]
    exact present first entry second follower split sameKey index offsets
      other sameTable shows behindCell
  · intro entry member
    exact visible _ (mem_cons_of_mem _ (mem_map_of_mem member))

theorem hash_eq (geometry : db.nhash = nhashDef) (key : CString) :
    hash db key.bytes = bucket key := by
  rw [hash, geometry]
  rfl

/-- The handle that `_db_find_and_lock` starts its search with. -/
def DB.forKey (db : DB) (key : CString) : DB :=
  { db with
    chainoff := chainCell (bucket key), ptroff := chainCell (bucket key) }

theorem DB.forKey_at {key : CString} (nhash : db.nhash = nhashDef)
    (hashoff : db.hashoff = hashOff) : (db.forKey key).At (bucket key) := ⟨nhash, hashoff, rfl⟩

theorem findAndLock_bind {key : CString} (nhash : db.nhash = nhashDef)
    (hashoff : db.hashoff = hashOff) (writelock : Bool) (rest : DB × ℤ → DbProgram (DB × Answer)) :
    (findAndLock db key.bytes writelock >>= rest) =
      .lock .idx (if writelock then .exclusive else .shared) (DbLock.region (.chain (bucket key)))
        (readptr (db.forKey key).ptroff >>= fun offset =>
          .loop (chainStep key.bytes) (db.forKey key, offset) fun found =>
            rest (found.1, if found.2 = 0 then -1 else 0)) := by
  have cell : ((hash db key.bytes : ℕ) : ℤ) * (ptrSz : ℕ) + db.hashoff =
      chainCell (bucket key) := by
    rw [hash_eq nhash, hashoff, chainCell]
    rfl
  have region : chainRegion (db.forKey key) = DbLock.region (.chain (bucket key)) :=
    (DB.forKey_at nhash hashoff).chainRegion_eq
  simp only [findAndLock, cell, bind_bind, lockRegion_bind, lock_bind,
    repeatFrom_bind, loop_bind, pure_eq_done, done_bind]
  rfl

/-- The search under an exclusive lock has found the entry of its key. -/
structure Found (keys : Set CString) (key : CString) (hold : DbHold)
    (store : DbStore) (db : DB) (first : List Entry) (entry : Entry)
    (second : List Entry) (follower : Pointer) : Prop where
  works : Works keys (bucket key) (first ++ entry :: second) hold store (first ++ entry :: second) ∅
  sameKey : entry.key = key
  index : store.tile .idx entry.offset = some (.index follower entry.record)
  atChain : db.At (bucket key)
  shows : db.Shows entry.offset follower entry.record
  ptroff : db.ptroff = lastCell (chainCell (bucket key)) first

/-- The search under an exclusive lock has come to the end of the chain. -/
structure Missing (keys : Set CString) (key : CString) (hold : DbHold)
    (store : DbStore) (db : DB) (entries : List Entry) : Prop where
  works : Works keys (bucket key) entries hold store entries ∅
  absent : ∀ entry ∈ entries, entry.key ≠ key
  atChain : db.At (bucket key)

theorem works_of_acquire {key : CString} {taken : Set DbLoc} (empty : hold.Empty) (invariant :
      ChainInvariant keys (bucket key) taken store entries) :
    Works keys (bucket key) entries (hold.acquire (.chain (bucket key)) taken) store entries ∅ where
  __ := invariant
  lent := empty.lent
  exclusive := hold.held_acquire_self _ taken
  only := by
    intro lock different
    exact (Function.update_of_ne different ..).trans (empty.held lock)
  own := by
    rw [union_empty, ← invariant.locs, Hold.acquire, empty.own]
    exact empty_union taken
  apart := disjoint_empty _

theorem safe_findAndLock {key : CString}
    (empty : hold.Empty) (nhash : db.nhash = nhashDef) (hashoff : db.hashoff = hashOff)
    (absent : ∀ entries hold offsets store other, Missing keys key hold store other entries →
      DbSafe keys call (rest (other, -1)) (hold.moved offsets store))
    (present : ∀ first entry second follower hold offsets store other,
      Found keys key hold store other first entry second follower →
        DbSafe keys call (rest (other, 0)) (hold.moved offsets store)) :
    DbSafe keys call (findAndLock db key.bytes true >>= rest) (hold.moved offsets store) := by
  have atChain : (db.forKey key).At (bucket key) := DB.forKey_at nhash hashoff
  rw [findAndLock_bind nhash hashoff]
  apply takeLock (DbLock.chain (bucket key)) rfl rfl (empty.held _)
  rintro taken found - - ⟨entries, invariant⟩
  have works := works_of_acquire empty invariant
  apply safe_search works.list _ works.members.known
    (works.droppable (empty_subset _)) rfl
  · intro apart offsets other sameTable
    exact absent entries _ offsets found other ⟨works, apart, atChain.of_sameTable sameTable⟩
  · intro first entry second follower split sameKey index offsets other sameTable shows ptroff
    subst split
    exact present first entry second follower _ offsets found other
      ⟨works, sameKey, index, atChain.of_sameTable sameTable, shows, ptroff⟩
  · intro cell member
    exact .inl (works.cell_mem member)

structure Reads (keys : Set CString) (chain : Bucket) (hold : DbHold)
    (store : DbStore) (entries : List Entry) : Prop where
  own : hold.own = ∅
  lent : hold.lent = chainLocs chain entries
  shared : hold.held (.chain chain) = some .shared
  only : ∀ lock, lock ≠ .chain chain → hold.held lock = none
  list : ListAt store (chainCell chain) entries
  members : ChainEntries keys chain entries
  contents : ∀ key, bucket key = chain → store.contents key = lookup entries key

theorem Reads.visible (reads : Reads keys chain hold store entries)
    {loc : DbLoc} (member : loc ∈ listLocs (chainCell chain) entries) : loc ∈ hold.visible := by
  apply Or.inr
  rw [reads.lent]
  exact Or.inl member

theorem Reads.droppable (reads : Reads keys chain hold store entries) :
    DbDroppable keys hold store := by
  refine fun offsets => .shared reads.own fun lock => ?_
  rw [Hold.moved]
  by_cases here : lock = .chain chain
  · simp [here, reads.shared]
  · simp [reads.only lock here]

theorem reads_of_borrow {taken : Set DbLoc} (empty : hold.Empty)
    (invariant : ChainInvariant keys chain taken store entries) :
    Reads keys chain (hold.borrow (.chain chain) taken) store entries where
  __ := invariant
  own := empty.own
  lent := by
    rw [← invariant.locs, Hold.borrow, empty.lent]
    exact empty_union taken
  shared := Function.update_self ..
  only := by
    intro lock apart
    exact (Function.update_of_ne apart ..).trans (empty.held lock)

theorem safe_findAndLock_shared {key : CString}
    (empty : hold.Empty) (nhash : db.nhash = nhashDef) (hashoff : db.hashoff = hashOff)
    (absent : ∀ entries hold offsets store other, Reads keys (bucket key) hold store entries →
      (∀ entry ∈ entries, entry.key ≠ key) →
      other.At (bucket key) → DbSafe keys call (rest (other, -1)) (hold.moved offsets store))
    (present : ∀ entries hold offsets store other entry follower,
      Reads keys (bucket key) hold store entries →
      entry ∈ entries → entry.key = key →
      other.At (bucket key) →
      other.Shows entry.offset follower entry.record →
        DbSafe keys call (rest (other, 0)) (hold.moved offsets store)) :
    DbSafe keys call (findAndLock db key.bytes false >>= rest) (hold.moved offsets store) := by
  have atChain : (db.forKey key).At (bucket key) := DB.forKey_at nhash hashoff
  rw [findAndLock_bind nhash hashoff]
  have unheld : (hold.moved offsets store).held (.chain (bucket key)) = none := empty.held _
  refine lockShared unheld ?_
  rintro taken found - ⟨entries, invariant⟩
  have reads := reads_of_borrow empty invariant
  apply safe_search reads.list _ reads.members.known reads.droppable rfl
  · intro apart offsets other sameTable
    exact absent entries _ offsets found other reads apart (atChain.of_sameTable sameTable)
  · intro first entry second follower split sameKey _ offsets other sameTable shows _
    have member : entry ∈ entries := by
      rw [split]
      exact mem_append_cons_self
    exact present entries _ offsets found other entry follower reads
      member sameKey (atChain.of_sameTable sameTable) shows
  · intro cell member
    exact reads.visible (idx_mem_listLocs.mpr member)

/-! ## Deleting an entry -/

def blank (text : CString) : CString where
  bytes := replicate text.bytes.length space
  noNul := by
    rw [mem_replicate]
    exact fun member => absurd member.2 (by decide)

theorem length_blank (text : CString) :
    (blank text).bytes.length = text.bytes.length := length_replicate

def Entry.deleted (entry : Entry) : Entry :=
  entry.rewrite (blank entry.key) (blank entry.data)
    (length_blank entry.key) (length_blank entry.data)

theorem safe_moveToFree {head : ℕ} {block : Block} {follower next pointer : Pointer}
    {rest : DB → DbProgram (DB × Answer)} (list : ListAt store head (first ++ entry :: second))
    (ownList : listLocs head (first ++ entry :: second) ⊆ hold.own)
    (ownFree : listLocs freeOff entries ⊆ hold.own) (apart :
      Disjoint (listLocs head (first ++ entry :: second)) (listLocs freeOff entries)) (index :
      store.tile .idx entry.offset = some (.index follower entry.record))
    (freeHead : store.tile .idx freeOff = some (.ptr next))
    (cellBlock : store.tile .idx (lastCell head first) = some block)
    (blockNext : block.next = some pointer) (target : (pointer : ℕ) = entry.offset)
    (idxbuf : db.idxbuf = (blank entry.key).bytes) (idxoff : db.idxoff = entry.offset)
    (ptrval : db.ptrval = (follower : ℕ)) (ptroff : db.ptroff = lastCell head first)
    (continues : ∀ offsets other, db.SameTable other →
      DbSafe keys call (rest other) (hold.moved offsets
        (moveEntry store entry.deleted next freeOff pointer
          (lastCell head first) (block.setNext follower)))) :
    DbSafe keys call (writedat db (blank entry.data).bytes entry.datoff .seekSet >>=
        fun db => readptr freeOff >>= fun freeptr =>
          writeidx db db.idxbuf db.idxoff .seekSet freeptr >>=
            fun after => writeptr freeOff after.idxoff >>= fun _ =>
              writeptr after.ptroff db.ptrval >>= fun _ => rest after)
      (hold.moved offsets store) := by
  have member : entry ∈ first ++ entry :: second := mem_append_cons_self
  have ownData : .tile .dat entry.datoff ∈ hold.own :=
    ownList (dat_mem_listLocs.mpr (mem_map_of_mem member))
  have ownIndex : .tile .idx entry.offset ∈ hold.own := ownList (idx_mem_listLocs.mpr
    (mem_cons_of_mem _ (mem_map_of_mem member)))
  have cellMember : lastCell head first ∈ cells head (first ++ second) := by
    rw [cells, map_append, ← cons_append]
    exact mem_append_left _ (lastCell_mem_cells head first)
  have inList : (.tile .idx (lastCell head first) : DbLoc) ∈
      listLocs head (first ++ entry :: second) := by
    rw [listLocs_insert]
    exact .inl (idx_mem_listLocs.mpr cellMember)
  have cellNotFree : lastCell head first ≠ freeOff := by
    intro same
    rw [same] at inList
    exact disjoint_left.mp apart inList (.inl rfl)
  have cellNotEntry : lastCell head first ≠ entry.offset := by
    intro same
    rw [same] at cellMember
    exact disjoint_left.mp list.disjoint_entry (idx_mem_listLocs.mpr cellMember) (by simp)
  have freeNotEntry : freeOff ≠ entry.offset := (list.chain.positive member).symm
  have dataSame : ∀ place, (store.setTile .dat entry.datoff (.data (blank entry.data))).tile
    .idx place = store.tile .idx place := fun place => tile_setTile_of_ne _ _ (by simp)
  have freePoints : nextAt (store.setTile .dat entry.datoff (.data (blank entry.data)))
      freeOff = some next := by
    rw [nextAt, dataSame, freeHead]
    rfl
  have indexThere := (dataSame entry.offset).trans index
  have freeThere : ∀ new, ((store.setTile .dat entry.datoff (.data (blank entry.data))).setTile
      .idx entry.offset new).tile .idx freeOff = some (.ptr next) := by
    intro new
    rw [tile_setTile_of_ne _ _ (idx_ne freeNotEntry), dataSame]
    exact freeHead
  have cellThere : ∀ new head',
      (((store.setTile .dat entry.datoff (.data (blank entry.data))).setTile
        .idx entry.offset new).setTile .idx freeOff head').tile .idx
          (lastCell head first) = some block := by
    intro new head'
    rw [tile_setTile_of_ne _ _ (idx_ne cellNotFree),
      tile_setTile_of_ne _ _ (idx_ne cellNotEntry), dataSame]
    exact cellBlock
  have sameText : entry.deleted.record.text.length =
    entry.record.text.length := length_text_rewrite _ _
  have lengths : (blank entry.data).bytes.length + 1 = entry.record.datlen := by
    rw [length_blank, entry.fits]
  have toPointer : (entry.offset : ℤ) = (pointer : ℕ) := by rw [target]
  apply safe_writedat_seekSet ownData (list.chain.stored member).data (length_blank entry.data)
  intro offsets
  apply safe_readptr (.inl (ownFree (.inl rfl))) freePoints
  intro offsets
  simp only [idxbuf, idxoff]
  apply safe_writeidx_seekSet ownIndex indexThere sameText rfl lengths
  intro offsets
  simp only [ptroff, ptrval, toPointer]
  apply safe_writeptr (ownFree (.inl rfl)) (freeThere _) rfl
  intro offsets
  apply safe_writeptr (ownList inList) (cellThere _ _) blockNext
  intro offsets
  exact continues offsets _ ⟨rfl, rfl, rfl⟩

theorem deleted_readable (entry : Entry) : sep ∉ entry.deleted.key.bytes := by
  intro member
  have isSpace : sep = space := (mem_replicate.mp member).2
  exact absurd isSpace (by decide)

section Dodelete

variable {taken : Set DbLoc} {free : List Entry} {block : Block} {follower next pointer : Pointer}

theorem FreeInvariant.moveEntry (invariant : FreeInvariant taken store free)
    (list : ListAt store (chainCell chain) (first ++ entry :: second)) (disjoint :
      Disjoint (chainLocs chain (first ++ entry :: second)) taken)
    (freeHead : store.tile .idx freeOff = some (.ptr next))
    (target : (pointer : ℕ) = entry.offset) :
    FreeInvariant (taken ∪ entryLocs [entry]) (moveEntry store entry.deleted next freeOff pointer
      (lastCell (chainCell chain) first) block) (entry.deleted :: free) := by
  have member : entry ∈ first ++ entry :: second := mem_append_cons_self
  have points : nextAt store freeOff = some next := by
    rw [nextAt, freeHead]
    rfl
  have apart : Disjoint (listLocs (chainCell chain) (first ++ entry :: second))
      (listLocs freeOff free) := by
    rw [← invariant.locs]
    exact disjoint.mono_left subset_union_left
  have distinct : entry.offset ∉ cells (chainCell chain) (first ++ second) := by
    rw [← idx_mem_listLocs]
    exact fun inList =>
      disjoint_left.mp list.disjoint_entry inList (by simp)
  refine ⟨?_, ?_, ?_⟩
  · exact invariant.list.moveEntry_in apart rfl rfl distinct
      (list.chain.positive member) points target
  · rw [listLocs_cons, Entry.deleted, entryLocs_rewrite, invariant.locs]
  · exact forall_mem_cons.mpr ⟨deleted_readable entry, invariant.readable⟩

theorem Works.moveEntry (works :
      Works keys chain original hold store (first ++ entry :: second) ∅)
    (invariant : FreeInvariant taken store free) (disjoint : Disjoint hold.own taken)
    (follows : nextAt store entry.offset = some follower) (found :
      store.tile .idx (lastCell (chainCell chain) first) = some block) :
    Works keys chain original ((hold.acquire .free taken).give .free (taken ∪ entryLocs [entry]))
      (moveEntry store entry.deleted next freeOff pointer
        (lastCell (chainCell chain) first) (block.setNext follower)) (first ++ second) ∅ := by
  have apart : Disjoint (listLocs (chainCell chain) (first ++ entry :: second))
      (listLocs freeOff free) := by
    rw [← invariant.locs]
    exact disjoint.mono_left fun loc inList =>
      works.chainLocs_subset (.inl inList)
  have own : hold.own = chainLocs chain (first ++ second) ∪ entryLocs [entry] := by
    rw [works.own, union_empty, chainLocs_insert]
  have left : Disjoint (chainLocs chain (first ++ second)) (taken ∪ entryLocs [entry]) := by
    rw [own] at disjoint
    exact Disjoint.union_right (disjoint.mono_left subset_union_left)
      (Disjoint.union_left works.list.disjoint_entry (disjoint_bucketLocs_entryLocs chain [entry]))
  apply works.exchange (by simp) _ (disjoint_empty _) _ works.members_without
  · exact fun key _ => rfl
  · rw [own, union_assoc, union_comm (entryLocs [entry]), union_sdiff_right, union_empty]
    exact left.sdiff_eq_left
  · exact works.list.moveEntry_away apart rfl rfl follows found

theorem safe_dodelete {key : CString} {rest : DB → DbProgram (DB × Answer)} (found :
      Found keys key hold store db first entry second follower)
    (continues : ∀ hold offsets store other,
      Works keys (bucket key) (first ++ entry :: second) hold store (first ++ second) ∅ →
        other.At (bucket key) → DbSafe keys call (rest other) (hold.moved offsets store)) :
    DbSafe keys call (dodelete db >>= rest) (hold.moved offsets store) := by
  have shows := found.shows
  have datlen : db.datlen - 1 = entry.data.bytes.length := by
    rw [shows.datlen, entry.fits]
    rfl
  simp only [dodelete, bind_bind, lockRegion_bind, lock_bind,
    unlockRegion_bind, unlock_bind, pure_eq_done, done_bind, datlen,
    shows.datoff, shows.idxbuf, map_const']
  apply takeLock DbLock.free rfl rfl (found.works.only .free (by simp))
  rintro taken met disjoint same ⟨free, invariant⟩
  have sameOwn : Store.Same hold.own store met := same.mono subset_union_left
  have works := found.works.congr (sameOwn.mono found.works.chainLocs_subset)
  have member : entry ∈ first ++ entry :: second := mem_append_cons_self
  have ownIndex : .tile .idx entry.offset ∈ hold.own :=
    works.cell_mem (mem_cons_of_mem _ (mem_map_of_mem member))
  have index : met.tile .idx entry.offset = some (.index follower entry.record) := by
    rw [← sameOwn.tile ownIndex]
    exact found.index
  have follows : nextAt met entry.offset = some follower := by
    rw [nextAt, index]
    rfl
  obtain ⟨next, freeHead⟩ := invariant.list.headTile
  obtain ⟨block, pointer, cellBlock, blockNext, target⟩ := works.list.lastCell_block
  have chainTaken := disjoint.mono_left works.chainLocs_subset
  have apart := chainTaken.mono_left subset_union_left
  rw [invariant.locs] at apart
  have given : taken ∪ entryLocs [entry] ⊆ (hold.acquire .free taken).own := by
    apply union_subset subset_union_right
    apply subset_union_of_subset_left
    apply Set.Subset.trans _ works.chainLocs_subset
    rw [chainLocs_insert]
    exact subset_union_right
  apply safe_moveToFree works.list _ _ apart index freeHead cellBlock blockNext target
  · rfl
  · exact shows.idxoff
  · exact shows.ptrval
  · exact found.ptroff
  · intro offsets other sameTable
    apply releaseLock DbLock.free rfl rfl (hold.held_acquire_self _ taken) given
    · exact ⟨_, invariant.moveEntry works.list chainTaken freeHead target⟩
    · apply continues _ _ _ _ (works.moveEntry invariant disjoint follows cellBlock)
      exact found.atChain.of_sameTable { sameTable with }
  · exact fun loc inList =>
      .inl (works.chainLocs_subset (.inl inList))
  · rw [← invariant.locs]
    exact subset_union_right

end Dodelete

/-! ## Taking a free entry -/

section Findfree

variable {taken : Set DbLoc} {free : List Entry} {block : Block} {follower : Pointer}

theorem FreeInvariant.unlink (invariant : FreeInvariant taken store (first ++ entry :: second))
    (follows : nextAt store entry.offset = some follower)
    (found : store.tile .idx (lastCell freeOff first) = some block) :
    FreeInvariant (listLocs freeOff (first ++ second)) (store.setTile .idx (lastCell freeOff first)
      (block.setNext follower)) (first ++ second) := by
  refine ⟨?_, rfl, ?_⟩
  · apply invariant.list.unlink follows found (tile_setTile_self ..)
    intro loc _ elsewhere
    exact (setTile_sameAt store _ elsewhere).symm
  · intro later member
    exact invariant.readable later ((ListAt.sublist_without first second entry).subset member)

section

variable (works : Works keys chain original hold store entries ∅)
  (invariant : FreeInvariant taken store (first ++ entry :: second))
  (disjoint : Disjoint hold.own taken) (new : Block)

include works invariant disjoint new

theorem Works.same_unlink :
    Store.Same (chainLocs chain entries) store
      (store.setTile .idx (lastCell freeOff first) new) := by
  have cellMember : (.tile .idx (lastCell freeOff first) : DbLoc) ∈ taken := by
    rw [invariant.locs, idx_mem_listLocs, cells, map_append, ← cons_append]
    exact mem_append_left _ (lastCell_mem_cells freeOff first)
  intro loc member
  apply (setTile_sameAt store new _).symm
  rintro rfl
  exact disjoint_left.mp disjoint (works.chainLocs_subset member) cellMember

theorem Works.takeEntry :
    Works keys chain original ((hold.acquire .free taken).give .free
        (listLocs freeOff (first ++ second)))
      (store.setTile .idx (lastCell freeOff first) new) entries (entryLocs [entry]) := by
  have kept := works.same_unlink invariant disjoint new
  have locs : taken = listLocs freeOff (first ++ second) ∪ entryLocs [entry] := by
    rw [invariant.locs, listLocs_insert]
  have own : hold.own = chainLocs chain entries := by rw [works.own, union_empty]
  rw [locs, own] at disjoint
  have fromRest := disjoint.mono_right subset_union_left
  have fromEntry := disjoint.mono_right subset_union_right
  apply works.exchange (by simp) _ fromEntry _ works.members
  · exact fun key _ => rfl
  · rw [locs, own, union_sdiff_distrib, fromRest.sdiff_eq_left,
      union_sdiff_left, invariant.list.disjoint_entry.symm.sdiff_eq_left]
  · exact (works.congr kept).list

end

/-- `_db_findfree` has taken an entry off the free list. -/
structure Reusable (keys : Set CString) (chain : Bucket)
    (original : List Entry) (hold : DbHold) (store : DbStore) (db : DB)
    (entries : List Entry) (entry : Entry) (follower : Pointer) : Prop where
  works : Works keys chain original hold store entries (entryLocs [entry])
  index : store.tile .idx entry.offset = some (.index follower entry.record)
  data : store.tile .dat entry.datoff = some (.data entry.data)
  positive : entry.offset ≠ 0
  pointer : ∃ pointer : Pointer, (pointer : ℕ) = entry.offset
  atChain : db.At chain
  shows : db.Shows entry.offset follower entry.record

theorem safe_findfree {keylen datlen : ℕ}
    (works : Works keys chain original hold store entries ∅) (atChain : db.At chain)
    (absent : ∀ hold offsets met other, Works keys chain original hold met entries ∅ →
      Store.Same (chainLocs chain entries) store met →
      other.At chain → DbSafe keys call (rest (other, -1)) (hold.moved offsets met))
    (present : ∀ hold offsets met other entry follower,
      Reusable keys chain original hold met other entries entry follower →
      entry.Matches keylen datlen →
      Store.Same (chainLocs chain entries) store met →
        DbSafe keys call (rest (other, 0)) (hold.moved offsets met)) :
    DbSafe keys call (findfree db keylen datlen >>= rest) (hold.moved offsets store) := by
  simp only [findfree, bind_bind, lockRegion_bind, lock_bind,
    repeatFrom_bind, loop_bind, unlockRegion_bind, unlock_bind, pure_eq_done, done_bind]
  apply takeLock DbLock.free rfl rfl (works.only .free (by simp))
  rintro taken met disjoint same ⟨free, invariant⟩
  have sameChain : Store.Same (chainLocs chain entries) store met :=
    same.mono fun loc member => .inl (works.chainLocs_subset member)
  have worksMet := works.congr sameChain
  have ownFree : listLocs freeOff free ⊆ (hold.acquire .free taken).own := by
    rw [← invariant.locs]
    exact subset_union_right
  obtain ⟨next, freeHead⟩ := invariant.list.headTile
  have points : nextAt met freeOff = some next := by
    rw [nextAt, freeHead]
    rfl
  apply safe_readptr (.inl (ownFree (.inl rfl))) points
  intro offsets
  apply safe_freeLoop points invariant.list.chain _ invariant.readable
  · intro offsets other saveoffset sameTable
    rw [onlyIf_bind_of_not _ _ (not_not.mpr rfl), if_pos rfl]
    apply releaseLock DbLock.free rfl rfl (hold.held_acquire_self _ taken) subset_union_right
    · exact ⟨free, invariant⟩
    · apply absent _ _ _ _ _ sameChain (atChain.of_sameTable sameTable)
      apply worksMet.exchange (by simp) _ worksMet.apart worksMet.list worksMet.members
      · exact fun key _ => rfl
      · rw [union_sdiff_right, disjoint.sdiff_eq_left]
        exact works.own
  · intro first entry second follower split suits index offsets other sameTable shows
    subst split
    have list := invariant.list
    have member : entry ∈ first ++ entry :: second := mem_append_cons_self
    have nonzero : (entry.offset : ℤ) ≠ 0 := by
      have positive := list.chain.positive member
      omega
    have follows : nextAt met entry.offset = some follower := by
      rw [nextAt, index]
      rfl
    obtain ⟨block, pointer, cellBlock, blockNext, target⟩ := list.lastCell_block
    have cellMember : lastCell freeOff first ∈ cells freeOff (first ++ second) := by
      rw [cells, map_append, ← cons_append]
      exact mem_append_left _ (lastCell_mem_cells freeOff first)
    have restOwn : listLocs freeOff (first ++ second) ⊆ (hold.acquire .free taken).own := by
      apply Set.Subset.trans _ ownFree
      rw [listLocs_insert]
      exact subset_union_left
    have entryNotCell : entry.offset ≠ lastCell freeOff first := by
      intro here
      rw [← here, ← idx_mem_listLocs] at cellMember
      exact disjoint_left.mp list.disjoint_entry cellMember (by simp)
    rw [onlyIf_bind_of _ _ nonzero, if_neg nonzero, shows.ptrval]
    apply safe_writeptr (restOwn (idx_mem_listLocs.mpr cellMember)) cellBlock blockNext
    intro offsets
    have worksAfter := worksMet.takeEntry invariant disjoint (block.setNext follower)
    have sameAfter := worksMet.same_unlink invariant disjoint (block.setNext follower)
    apply releaseLock DbLock.free rfl rfl (hold.held_acquire_self _ taken) restOwn
    · exact ⟨first ++ second, invariant.unlink follows cellBlock⟩
    · apply present _ _ _ _ entry follower _ suits
      · intro loc inChain
        exact (sameChain loc inChain).trans (sameAfter loc inChain)
      · refine ⟨worksAfter, ?_, ?_, list.chain.positive member,
          ⟨pointer, target⟩, atChain.of_sameTable sameTable, shows⟩
        · rw [tile_setTile_of_ne _ _ (idx_ne entryNotCell)]
          exact index
        · rw [tile_setTile_of_ne _ _ (by simp)]
          exact (list.chain.stored member).data
  · intro entry member
    apply Or.inl
    apply ownFree
    rw [idx_mem_listLocs]
    exact mem_cons_of_mem _ (mem_map_of_mem member)

end Findfree

/-! ## New entries -/

/-- A key that may get an entry in front of some entries of a chain. -/
structure Insertable (keys : Set CString) (chain : Bucket)
    (key : CString) (entries : List Entry) : Prop where
  belongs : bucket key = chain
  known : key ∈ keys
  fresh : ∀ entry ∈ entries, entry.key ≠ key

variable {offset flag : ℤ}

section Link

variable {key data : CString} {next pointer : Pointer}

theorem safe_link {rest : Unit → DbProgram (DB × Answer)} (works :
      Works keys chain original hold store entries (entryLocs [entry]))
    (insertable : Insertable keys chain entry.key entries) (target : (pointer : ℕ) = entry.offset)
    (positive : entry.offset ≠ 0) (stored : Stored store entry) (follows :
      nextAt store entry.offset = nextAt store (chainCell chain)) (continues : ∀ offsets store,
      Works keys chain original hold store (entry :: entries) ∅ →
        DbSafe keys call (rest ()) (hold.moved offsets store)) :
    DbSafe keys call (writeptr (chainCell chain) entry.offset >>= rest)
      (hold.moved offsets store) := by
  obtain ⟨head, headTile, -⟩ := works.exists_head
  rw [← target]
  apply safe_writeptr works.head_mem headTile rfl
  intro offsets
  exact continues offsets _ (works.link target positive stored follows insertable.belongs
    insertable.known insertable.fresh)

variable {rest : DB → DbProgram (DB × Answer)}

theorem safe_reuse {follower : Pointer} (reusable :
      Reusable keys chain original hold store db entries entry follower)
    (suits : entry.Matches key.bytes.length (data.bytes.length + 1))
    (insertable : Insertable keys chain key entries)
    (points : nextAt store (chainCell chain) = some next)
    (continues : ∀ offsets store other (new : Entry), new.key = key → new.data = data →
      Works keys chain original hold store (new :: entries) ∅ →
      other.At chain → DbSafe keys call (rest other) (hold.moved offsets store)) :
    DbSafe keys call (writedat db data.bytes db.datoff .seekSet >>= fun db =>
      writeidx db key.bytes db.idxoff .seekSet (next : ℕ) >>= fun db =>
        writeptr db.chainoff db.idxoff >>= fun _ => rest db) (hold.moved offsets store) := by
  obtain ⟨works, index, oldData, positive, ⟨pointer, target⟩, atChain, shows⟩ := reusable
  have sameKey : key.bytes.length = entry.key.bytes.length := suits.1.symm
  have sameData : data.bytes.length = entry.data.bytes.length := by
    have fits := entry.fits
    have suitsData := suits.2
    omega
  let new := entry.rewrite key data sameKey sameData
  have newLocs : entryLocs [new] = entryLocs [entry] := entryLocs_rewrite sameKey sameData
  have ownData : .tile .dat entry.datoff ∈ hold.own := works.extra_subset (by simp)
  have ownIndex : .tile .idx entry.offset ∈ hold.own := works.extra_subset (by simp)
  have indexThere : (store.setTile .dat entry.datoff (.data data)).tile .idx
      entry.offset = some (.index follower entry.record) := by
    rw [tile_setTile_of_ne _ _ (by simp)]
    exact index
  have sameText : new.record.text.length = entry.record.text.length :=
    length_text_rewrite sameKey sameData
  have dataMember : (.tile .dat entry.datoff : DbLoc) ∈ entryLocs [new] := by
    rw [newLocs]
    simp
  have indexMember : (.tile .idx entry.offset : DbLoc) ∈ entryLocs [new] := by
    rw [newLocs]
    simp
  rw [← newLocs] at works
  have worksData := works.setTile dataMember (.data data)
  have worksIndex := worksData.setTile indexMember (.index next new.record)
  have headNotEntry : chainCell chain ≠ entry.offset := by
    intro same
    rw [← same] at indexMember
    exact disjoint_left.mp works.apart (.inl (.inl rfl)) indexMember
  rw [shows.datoff]
  apply safe_writedat_seekSet ownData oldData sameData
  intro offsets
  simp only [shows.idxoff]
  apply safe_writeidx_seekSet ownIndex indexThere sameText rfl suits.2.symm
  intro offsets
  simp only [atChain.chainoff]
  apply safe_link worksIndex insertable target positive
  · refine ⟨⟨next, tile_setTile_self ..⟩, ?_⟩
    rw [tile_setTile_of_ne _ _ (by simp)]
    exact tile_setTile_self ..
  · have head : nextAt ((store.setTile .dat entry.datoff (.data data)).setTile .idx
        entry.offset (.index next new.record)) (chainCell chain) =
        some next := by
      rw [nextAt, tile_setTile_of_ne _ _ (idx_ne headNotEntry), tile_setTile_of_ne _ _ (by simp)]
      exact points
    have index : nextAt ((store.setTile .dat entry.datoff (.data data)).setTile .idx
        entry.offset (.index next new.record)) entry.offset =
        some next := by
      rw [nextAt, tile_setTile_self]
      rfl
    exact index.trans head.symm
  · intro offsets store linked
    exact continues offsets store _ new rfl rfl linked ⟨atChain.nhash, atChain.hashoff, rfl⟩

theorem safe_appendIndex {record : IndexRecord} (works :
      Works keys chain original hold store entries {.tile .dat record.datoff})
    (atChain : db.At chain) (insertable : Insertable keys chain record.key entries)
    (points : nextAt store (chainCell chain) = some next)
    (fits : record.datlen = data.bytes.length + 1)
    (stored : store.tile .dat record.datoff = some (.data data))
    (datoff : db.datoff = record.datoff) (datlen : db.datlen = record.datlen)
    (continues : ∀ hold offsets store other (new : Entry), new.key = record.key → new.data = data →
      Works keys chain original hold store (new :: entries) ∅ →
      other.At chain → DbSafe keys (.store key data flag) (rest other) (hold.moved offsets store)) :
    DbSafe keys (.store key data flag)
      (writeidx db record.key.bytes 0 .seekEnd (next : ℕ) >>= fun db =>
        writeptr db.chainoff db.idxoff >>= fun _ => rest db) (hold.moved offsets store) := by
  apply safe_writeidx_seekEnd atChain.nhash datoff datlen (works.only .records (by simp))
  intro idxoff offsets found afterTable foreign same index
  simp only [atChain.chainoff]
  by_cases beyond : (idxoff : ℤ) > ptrMax
  · simp only [writeptr, bind_bind]
    rw [failIf_bind_of _ (.inr beyond)]
    exact fails (fun _ _ _ _ => beyond) (not_not.mpr trivial)
  · let new : Entry := ⟨idxoff, record, data, fits⟩
    have small : idxoff < ptrMax + 1 := by omega
    have positive : idxoff ≠ 0 := by
      have start : 0 < recordsStart := by decide
      omega
    have newLocs : insert (.tile .idx idxoff) {.tile .dat record.datoff} = entryLocs [new] := by
      rw [entryLocs_singleton]
      rfl
    have worksIndex := works.gain foreign same
    rw [newLocs] at worksIndex
    have ownData : .tile .dat record.datoff ∈ hold.own := works.extra_subset rfl
    have dataThere : found.tile .dat record.datoff = some (.data data) := by
      rw [← same.tile ownData]
      exact stored
    have head : nextAt found (chainCell chain) = some next := by
      rw [nextAt, ← same.tile works.head_mem]
      exact points
    have follows : nextAt found idxoff = some next := by
      rw [nextAt, index]
      rfl
    apply safe_link worksIndex insertable
      (rfl : ((⟨idxoff, small⟩ : Pointer) : ℕ) = new.offset) positive
      ⟨⟨next, index⟩, dataThere⟩ (follows.trans head.symm)
    intro offsets store linked
    exact continues _ offsets store _ new rfl rfl linked ⟨atChain.nhash, atChain.hashoff, rfl⟩

theorem safe_appendRecord
    (works : Works keys chain original hold store entries ∅) (atChain : db.At chain)
    (inserts : original = entries ∨ flag ≠ dbInsertFlag)
    (insertable : Insertable keys chain key entries)
    (points : nextAt store (chainCell chain) = some next)
    (short : data.bytes.length + 1 ≤ datlenMax)
    (continues : ∀ hold offsets store other (new : Entry), new.key = key → new.data = data →
      Works keys chain original hold store (new :: entries) ∅ →
      other.At chain → DbSafe keys (.store key data flag) (rest other) (hold.moved offsets store)) :
    DbSafe keys (.store key data flag) (appendRecord db key.bytes data.bytes (next : ℕ) >>= rest)
      (hold.moved offsets store) := by
  simp only [appendRecord, bind_bind, pure_eq_done, done_bind]
  apply safe_writedat_seekEnd (works.only .data (by simp))
  intro datoff offsets found foreign same stored
  have worksData := works.gain foreign same
  rw [insert_empty_eq] at worksData
  have head : nextAt found (chainCell chain) = some next := by
    rw [nextAt, ← same.tile works.head_mem]
    exact points
  by_cases invalid : (recordText key.bytes datoff (data.bytes.length + 1)).length < idxlenMin ∨
    (recordText key.bytes datoff (data.bytes.length + 1)).length > idxlenMax
  · simp only [writeidx, bind_bind]
    rw [failIf_bind_of_not _ (pointer_in_range next), failIf_bind_of _ invalid]
    have tolerable : Tolerable (discipline keys) (.store key data flag) .writeidxInvalidLength
        ((hold.gain (.tile .dat datoff)).moved offsets found) := by
      intro files actual holds seen
      have there := (seen.tile (.inl (worksData.extra_subset rfl))).symm.trans stored
      have inside := holds.tile_inside there
      rw [encode_discipline, length_encode_data] at inside
      exact ⟨datoff, inside, invalid⟩
    -- an insertion leaves the chain as it was, and its data where nobody looks
    rcases inserts with rfl | replaces
    · exact stops tolerable (worksData.droppable (by simp [discipline]) offsets)
    · exact fails tolerable (not_not.mpr replaces)
  · obtain ⟨above, below⟩ := not_or.mp invalid
    let record : IndexRecord :=
      { key := key, datoff := datoff, datlen := data.bytes.length + 1,
        datlen_pos := Nat.succ_pos _, datlen_le := short,
        len_ge := not_lt.mp above,
        len_le := not_lt.mp below }
    have worksRecord : Works keys chain original (hold.gain (.tile .dat datoff)) found
      entries {.tile .dat record.datoff} := worksData
    apply safe_appendIndex worksRecord _ insertable head rfl stored rfl rfl continues
    exact { atChain with }

end Link

/-! ## Replacing data -/

section Replace

variable {data : CString}

theorem ListAt.setData {head : ℕ} (list : ListAt store head (first ++ entry :: second))
    (sameData : data.bytes.length = entry.data.bytes.length) :
    ListAt (store.setTile .dat entry.datoff (.data data)) head
      (first ++ entry.rewrite entry.key data rfl sameData :: second) := by
  have sameIndex : ∀ place, (store.setTile .dat entry.datoff (.data data)).tile .idx place =
    store.tile .idx place := fun place => tile_setTile_of_ne _ _ (by simp)
  have samePointer : ∀ place, nextAt (store.setTile .dat entry.datoff (.data data)) place =
      nextAt store place := by
    intro place
    rw [nextAt, nextAt, sameIndex]
  have elsewhere : ∀ loc ∈ listLocs head (first ++ second),
      store.SameAt (store.setTile .dat entry.datoff (.data data)) loc := by
    intro loc inList
    apply (setTile_sameAt store _ _).symm
    rintro rfl
    exact disjoint_left.mp list.disjoint_entry inList (by simp)
  obtain ⟨headNext, headTile⟩ := list.headTile
  have distinct := list.distinct
  have distinctData := list.distinctData
  simp only [cells, map_append, map_cons] at distinct distinctData
  refine ⟨⟨headNext, (sameIndex head).trans headTile⟩, ?_, ?_, ?_⟩
  · apply list.chain.splice
    · rw [← cons_append] at distinct
      exact distinct.of_append_left
    · intro earlier earlierMember stored
      apply stored.of_same (sameIndex _).symm
      apply elsewhere (.tile .dat earlier.datoff)
      rw [dat_mem_listLocs]
      exact mem_map_of_mem (mem_append_left _ earlierMember)
    · intro place _ _
      exact samePointer place
    · obtain ⟨⟨next, points, target⟩, positive, ⟨⟨follower, index⟩, -⟩,
        remaining⟩ := list.chain.suffix
      refine ⟨⟨next, (samePointer _).trans points, target⟩, positive,
        ⟨⟨follower, (sameIndex _).trans index⟩, tile_setTile_self ..⟩, ?_⟩
      apply remaining.redirect (samePointer _)
      intro loc inRest
      apply elsewhere loc
      exact .inr (entryLocs_mono (subset_append_right first second) inRest)
  · simp only [cells, map_append, map_cons]
    exact distinct
  · simp only [map_append, map_cons]
    exact distinctData

theorem Works.setData (works :
      Works keys chain original hold store (first ++ entry :: second) ∅)
    (sameData : data.bytes.length = entry.data.bytes.length) :
    Works keys chain original hold (store.setTile .dat entry.datoff (.data data))
      (first ++ entry.rewrite entry.key data rfl sameData :: second) ∅ := by
  have keysSame : (first ++ entry.rewrite entry.key data rfl sameData :: second).map Entry.key =
      (first ++ entry :: second).map Entry.key := by
    simp only [map_append, map_cons]
    rfl
  refine ⟨works.lent, works.exclusive, works.only, ?_,
    disjoint_empty _, works.list.setData sameData, ?_, ?_⟩
  · rw [works.own, chainLocs_insert, chainLocs_insert, entryLocs_rewrite]
  · refine ⟨?_, ?_, ?_⟩
    · intro later member
      have keyMember := mem_map_of_mem (f := Entry.key) member
      rw [keysSame] at keyMember
      obtain ⟨source, sourceMember, same⟩ := mem_map.mp keyMember
      rw [← same]
      exact works.members.belongs source sourceMember
    · intro later member
      have keyMember := mem_map_of_mem (f := Entry.key) member
      rw [keysSame] at keyMember
      obtain ⟨source, sourceMember, same⟩ := mem_map.mp keyMember
      rw [← same]
      exact works.members.known source sourceMember
    · rw [keysSame]
      exact works.members.distinct
  · exact works.contents

end Replace

end Skyc.Apue.Db
