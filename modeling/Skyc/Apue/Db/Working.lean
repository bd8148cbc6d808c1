import Skyc.Apue.Db.Search

/-!
# A process at work on a chain

`Works` describes a process that holds the lock of one hash chain: it owns the
chain and possibly the records of one more entry, which it is about to link or
has just unlinked.
-/

namespace Skyc.Apue.Db

open Skyc.Lib Program List Set Store

/-! ## Locations of lists -/

variable {store other : DbStore} {head : ℕ} {entry : Entry}
  {first second entries original : List Entry} {chain : Bucket}

theorem listLocs_insert (head : ℕ) (first second : List Entry) (entry : Entry) :
    listLocs head (first ++ entry :: second) =
      listLocs head (first ++ second) ∪ entryLocs [entry] := by
  ext loc
  simp only [listLocs, entryLocs, mem_append, mem_cons,
    not_mem_nil, or_false, exists_eq_left, mem_ofPred_eq, mem_union]
  constructor
  · rintro (here | ⟨found, before | rfl | after, here⟩)
    · exact .inl (.inl here)
    · exact .inl (.inr ⟨found, .inl before, here⟩)
    · exact .inr here
    · exact .inl (.inr ⟨found, .inr after, here⟩)
  · rintro ((here | ⟨found, before | after, here⟩) | here)
    · exact .inl here
    · exact .inr ⟨found, .inl before, here⟩
    · exact .inr ⟨found, .inr (.inr after), here⟩
    · exact .inr ⟨entry, .inr (.inl rfl), here⟩

theorem listLocs_cons (head : ℕ) (entry : Entry) (entries : List Entry) :
    listLocs head (entry :: entries) = listLocs head entries ∪ entryLocs [entry] :=
  listLocs_insert head [] entries entry

theorem ListAt.disjoint_entry (list : ListAt store head (first ++ entry :: second)) :
    Disjoint (listLocs head (first ++ second)) (entryLocs [entry]) := by
  have cellsApart : entry.offset ∉ cells head (first ++ second) := by
    have distinct := list.distinct
    simp only [cells, map_append, map_cons] at distinct ⊢
    rw [← cons_append] at distinct ⊢
    exact (nodup_middle.mp distinct).notMem
  have dataApart : entry.datoff ∉ (first ++ second).map Entry.datoff := by
    have distinct := list.distinctData
    simp only [map_append, map_cons] at distinct ⊢
    exact (nodup_middle.mp distinct).notMem
  rw [Set.disjoint_right]
  rintro loc ⟨found, member, here⟩
  cases mem_singleton.mp member
  rcases here with rfl | rfl
  · rw [idx_mem_listLocs]
    exact cellsApart
  · rw [dat_mem_listLocs]
    exact dataApart

theorem chainLocs_insert (chain : Bucket) (first second : List Entry) (entry : Entry) :
    chainLocs chain (first ++ entry :: second) =
      chainLocs chain (first ++ second) ∪ entryLocs [entry] := by
  rw [chainLocs, listLocs_insert, union_right_comm]
  rfl

theorem disjoint_bucketLocs_entryLocs (chain : Bucket) (entries : List Entry) :
    Disjoint (bucketLocs chain) (entryLocs entries) := by
  rw [Set.disjoint_left]
  rintro loc ⟨key, -, rfl⟩
  simp [entryLocs]

/-! ## Moving an entry to another list -/

/-- The entry with another key and other data of the same lengths. -/
def Entry.rewrite (entry : Entry) (key data : CString)
    (sameKey : key.bytes.length = entry.key.bytes.length)
    (sameData : data.bytes.length = entry.data.bytes.length) : Entry where
  offset := entry.offset
  record :=
    { entry.record with
      key := key
      len_ge := by
        have above := entry.record.len_ge
        simp only [recordText, length_append] at above ⊢
        rw [sameKey]
        exact above
      len_le := by
        have below := entry.record.len_le
        simp only [recordText, length_append] at below ⊢
        rw [sameKey]
        exact below }
  data := data
  fits := by
    rw [sameData]
    exact entry.fits

theorem length_text_rewrite {key data : CString}
    (sameKey : key.bytes.length = entry.key.bytes.length)
    (sameData : data.bytes.length = entry.data.bytes.length) :
    (entry.rewrite key data sameKey sameData).record.text.length = entry.record.text.length := by
  simp only [Entry.rewrite, IndexRecord.text, recordText, length_append, sameKey]

theorem entryLocs_singleton (entry : Entry) :
    entryLocs [entry] =
      {loc | loc = .tile .idx entry.offset ∨ loc = .tile .dat entry.datoff} := by
  ext loc
  simp [entryLocs]

theorem entryLocs_rewrite {key data : CString} (sameKey : key.bytes.length = entry.key.bytes.length)
    (sameData : data.bytes.length = entry.data.bytes.length) :
    entryLocs [entry.rewrite key data sameKey sameData] = entryLocs [entry] := by
  rw [entryLocs_singleton, entryLocs_singleton]
  rfl

/-- The store after an entry has been written in front of the list at `head`
and taken out of its old list by a new block in `cell`. -/
def moveEntry (store : DbStore) (moved : Entry) (next : Pointer)
    (head : ℕ) (pointer : Pointer) (cell : ℕ) (block : Block) : DbStore :=
  (((store.setTile .dat moved.datoff (.data moved.data)).setTile .idx
    moved.offset (.index next moved.record)).setTile .idx head
      (.ptr pointer)).setTile .idx cell block

section MoveEntry

variable {moved : Entry} {next pointer follower : Pointer} {source : ℕ} {block : Block}

theorem idx_ne {first second : ℕ} (apart : first ≠ second) :
    (.tile .idx first : DbLoc) ≠ .tile .idx second := fun same => apart (Loc.tile.inj same).2

theorem moveEntry_sameAt {loc : DbLoc} {cell : ℕ} (notData : loc ≠ .tile .dat moved.datoff)
    (notIndex : loc ≠ .tile .idx moved.offset)
    (notHead : loc ≠ .tile .idx head) (notCell : loc ≠ .tile .idx cell) :
    store.SameAt (moveEntry store moved next head pointer cell block) loc := by
  apply Store.SameAt.symm
  apply (setTile_sameAt _ _ notCell).trans
  apply (setTile_sameAt _ _ notHead).trans
  apply (setTile_sameAt _ _ notIndex).trans
  exact setTile_sameAt _ _ notData

section

variable (apart : Disjoint (listLocs source (first ++ entry :: second)) (listLocs head entries))
  (sameOffset : moved.offset = entry.offset) (sameDatoff : moved.datoff = entry.datoff)

include apart sameOffset sameDatoff

theorem ListAt.moveEntry_away (list : ListAt store source (first ++ entry :: second))
    (follows : nextAt store entry.offset = some follower)
    (found : store.tile .idx (lastCell source first) = some block) :
    ListAt (moveEntry store moved next head pointer (lastCell source first)
      (block.setNext follower)) source (first ++ second) := by
  apply list.unlink follows found (tile_setTile_self ..)
  intro loc member notCell
  have notEntry : loc ∉ entryLocs [entry] := disjoint_left.mp list.disjoint_entry member
  have notOther : loc ∉ listLocs head entries := by
    apply disjoint_left.mp apart
    rw [listLocs_insert]
    exact .inl member
  apply moveEntry_sameAt _ _ _ notCell
  · rintro rfl
    simp [sameDatoff] at notEntry
  · rintro rfl
    simp [sameOffset] at notEntry
  · rintro rfl
    exact notOther (.inl rfl)

theorem ListAt.moveEntry_in (list : ListAt store head entries)
    (distinct : entry.offset ∉ cells source (first ++ second)) (positive : entry.offset ≠ 0)
    (points : nextAt store head = some next) (target : (pointer : ℕ) = entry.offset) :
    ListAt (moveEntry store moved next head pointer (lastCell source first) block)
      head (moved :: entries) := by
  have foreign : ∀ loc ∈ listLocs source (first ++ entry :: second), loc ∉ listLocs head entries :=
    fun loc member => disjoint_left.mp apart member
  have entryForeign : ∀ loc ∈ entryLocs [entry], loc ∉ listLocs head entries := by
    intro loc member
    apply foreign
    rw [listLocs_insert]
    exact .inr member
  have cellMember : lastCell source first ∈ cells source (first ++ second) := by
    rw [cells, map_append, ← cons_append]
    exact mem_append_left _ (lastCell_mem_cells source first)
  have cellForeign : (.tile .idx (lastCell source first) : DbLoc) ∉ listLocs head entries := by
    apply foreign
    rw [listLocs_insert]
    exact .inl (idx_mem_listLocs.mpr cellMember)
  have headNotCell : head ≠ lastCell source first := by
    intro same
    rw [← same] at cellForeign
    exact cellForeign (.inl rfl)
  have offsetForeign : entry.offset ∉ cells head entries := by
    rw [← idx_mem_listLocs]
    exact entryForeign _ (by simp)
  have datoffForeign : entry.datoff ∉ entries.map Entry.datoff := by
    rw [← dat_mem_listLocs]
    exact entryForeign _ (by simp)
  have offsetNotHead : moved.offset ≠ head := by
    rw [sameOffset]
    exact fun same => offsetForeign (same ▸ mem_cons_self)
  have offsetNotCell : moved.offset ≠ lastCell source first := by
    rw [sameOffset]
    exact fun same => distinct (same ▸ cellMember)
  have index : (moveEntry store moved next head pointer (lastCell source first)
      block).tile .idx moved.offset = some (.index next moved.record) := by
    rw [moveEntry, tile_setTile_of_ne _ _ (idx_ne offsetNotCell),
      tile_setTile_of_ne _ _ (idx_ne offsetNotHead), tile_setTile_self]
  have data : (moveEntry store moved next head pointer (lastCell source first)
      block).tile .dat moved.datoff = some (.data moved.data) := by
    rw [moveEntry, tile_setTile_of_ne _ _ (by simp), tile_setTile_of_ne _ _ (by simp),
      tile_setTile_of_ne _ _ (by simp), tile_setTile_self]
  have headTile : (moveEntry store moved next head pointer (lastCell source first)
      block).tile .idx head = some (.ptr pointer) := by
    rw [moveEntry, tile_setTile_of_ne _ _ (idx_ne headNotCell), tile_setTile_self]
  have others : Store.Same (entryLocs entries) store
      (moveEntry store moved next head pointer (lastCell source first) block) := by
    intro loc member
    have inList : loc ∈ listLocs head entries := .inr member
    apply moveEntry_sameAt
    · rintro rfl
      rw [sameDatoff] at inList
      exact entryForeign _ (by simp) inList
    · rintro rfl
      rw [sameOffset] at inList
      exact entryForeign _ (by simp) inList
    · rintro rfl
      have headOnce := (nodup_cons.mp list.distinct).1
      exact headOnce (idx_mem_entryLocs.mp member)
    · rintro rfl
      exact cellForeign inList
  apply list.link headTile (target.trans sameOffset.symm)
    (sameOffset ▸ positive) ⟨⟨next, index⟩, data⟩ _ others
    (sameOffset ▸ offsetForeign) (sameDatoff ▸ datoffForeign)
  rw [points, nextAt, index]
  rfl

end

end MoveEntry

/-! ## Looking up a key -/

theorem lookup_cons (entry : Entry) (entries : List Entry) (key : CString) :
    lookup (entry :: entries) key = if entry.key = key then some entry.data
      else lookup entries key := by
  by_cases same : entry.key = key
  · simp [lookup, same]
  · simp [lookup, same]

theorem lookup_append (first second : List Entry) (key : CString) :
    lookup (first ++ second) key = (lookup first key).or (lookup second key) := by
  induction first with
  | nil => rfl
  | cons entry rest ih =>
    rw [cons_append, lookup_cons, lookup_cons, ih]
    split
    · rfl
    · rfl

theorem lookup_eq_none {key : CString} (absent : ∀ entry ∈ entries, entry.key ≠ key) :
    lookup entries key = none := by
  induction entries with
  | nil => rfl
  | cons entry rest ih =>
    rw [lookup_cons, if_neg (absent entry mem_cons_self)]
    exact ih (forall_mem_cons.mp absent).2

theorem key_apart (distinct : ((first ++ entry :: second).map Entry.key).Nodup) :
    ∀ later ∈ first ++ second, later.key ≠ entry.key := by
  intro later member same
  rw [map_append, map_cons, nodup_middle, ← map_append] at distinct
  exact distinct.notMem (same ▸ mem_map_of_mem member)

theorem lookup_insert (apart : ∀ later ∈ first ++ second, later.key ≠ entry.key) (key : CString) :
    lookup (first ++ entry :: second) key = if entry.key = key then some entry.data
      else lookup (first ++ second) key := by
  rw [lookup_append, lookup_append, lookup_cons]
  split
  case isTrue same =>
    rw [lookup_eq_none fun later member =>
      same ▸ apart later (mem_append_left _ member)]
    rfl
  case isFalse => rfl

theorem lookup_without (apart : ∀ later ∈ first ++ second, later.key ≠ entry.key) (key : CString) :
    lookup (first ++ second) key = if key = entry.key then none
      else lookup (first ++ entry :: second) key := by
  split
  case isTrue same =>
    rw [same]
    exact lookup_eq_none apart
  case isFalse different => rw [lookup_insert apart, if_neg fun same => different same.symm]

/-! ## The handle -/

structure DB.At (db : DB) (chain : Bucket) : Prop where
  nhash : db.nhash = nhashDef
  hashoff : db.hashoff = hashOff
  chainoff : db.chainoff = chainCell chain

theorem DB.At.of_sameTable {db later : DB} (atChain : db.At chain) (same : db.SameTable later) :
    later.At chain := ⟨same.nhash.trans atChain.nhash, same.hashoff.trans atChain.hashoff,
    same.chainoff.trans atChain.chainoff⟩

theorem DB.At.chainRegion_eq {db : DB} (atChain : db.At chain) :
    chainRegion db = DbLock.region (.chain chain) := by
  rw [chainRegion, atChain.chainoff]
  rfl

/-! ## Work -/

/-- A process that holds the lock of a chain, and nothing else but `extra`.
`original` are the entries that the contents still show. -/
structure Works (keys : Set CString) (chain : Bucket)
    (original : List Entry) (hold : DbHold) (store : DbStore)
    (entries : List Entry) (extra : Set DbLoc) : Prop where
  lent : hold.lent = ∅
  exclusive : hold.held (.chain chain) = some .exclusive
  only : ∀ lock, lock ≠ .chain chain → hold.held lock = none
  own : hold.own = chainLocs chain entries ∪ extra
  apart : Disjoint (chainLocs chain entries) extra
  list : ListAt store (chainCell chain) entries
  members : ChainEntries keys chain entries
  contents : ∀ key, bucket key = chain → store.contents key = lookup original key

namespace Works

variable {keys : Set CString} {hold : DbHold} {extra : Set DbLoc}
  {call : Call} {db : DB} {offsets : DbFile → ℕ}

section

variable (works : Works keys chain original hold store entries extra)
include works

theorem chainLocs_subset : chainLocs chain entries ⊆ hold.own := by
  rw [works.own]
  exact subset_union_left

theorem extra_subset : extra ⊆ hold.own := by
  rw [works.own]
  exact subset_union_right

theorem cell_mem {cell : ℕ} (member : cell ∈ cells (chainCell chain) entries) :
    .tile .idx cell ∈ hold.own := works.chainLocs_subset (.inl (idx_mem_listLocs.mpr member))

theorem head_mem : .tile .idx (chainCell chain) ∈ hold.own := works.cell_mem mem_cons_self

end


/-- As long as the chain is what the contents show, the process may be
terminated. -/
theorem droppable (works : Works keys chain entries hold store entries extra)
    (wasted : extra ⊆ (discipline keys).waste) : DbDroppable keys hold store := by
  have rest : hold.own \ chainLocs chain entries ⊆ extra := by
    rw [works.own, union_sdiff_left]
    exact sdiff_subset
  intro offsets
  exact .exclusive works.exclusive works.only works.chainLocs_subset (rest.trans wasted)
    ⟨entries, works.list, rfl, works.members, works.contents⟩

section

variable (works : Works keys chain original hold store entries extra)
include works

theorem congr (same : Store.Same (chainLocs chain entries) store other) :
    Works keys chain original hold other entries extra where
  __ := works
  list := works.list.congr (same.mono fun loc member => .inl member)
  contents := by
    intro key ofChain
    have sameContent : store.contents key = other.contents key :=
      same.content (.inr ⟨key, ofChain, rfl⟩)
    rw [← sameContent]
    exact works.contents key ofChain

omit works in
theorem members_without (works :
      Works keys chain original hold store (first ++ entry :: second) extra) :
    ChainEntries keys chain (first ++ second) := by
  have sublist := ListAt.sublist_without first second entry
  refine ⟨?_, ?_, works.members.distinct.sublist (sublist.map Entry.key)⟩
  · intro later member
    exact works.members.belongs later (sublist.subset member)
  · intro later member
    exact works.members.known later (sublist.subset member)

theorem setTile {file : DbFile} {offset : ℕ} (member : .tile file offset ∈ extra) (block : Block) :
    Works keys chain original hold (store.setTile file offset block) entries extra := by
  apply works.congr
  intro loc inChain
  apply (setTile_sameAt store block _).symm
  rintro rfl
  exact disjoint_left.mp works.apart inChain member

theorem exists_head :
    ∃ next : Pointer, store.tile .idx (chainCell chain) = some (.ptr next) ∧
      nextAt store (chainCell chain) = some next := by
  obtain ⟨next, headTile⟩ := works.list.headTile
  refine ⟨next, headTile, ?_⟩
  rw [nextAt, headTile]
  rfl

omit works in
theorem link (works :
      Works keys chain original hold store entries (entryLocs [entry]))
    {next : Pointer} (target : (next : ℕ) = entry.offset)
    (positive : entry.offset ≠ 0) (stored : Stored store entry) (follows :
      nextAt store entry.offset = nextAt store (chainCell chain))
    (belongs : bucket entry.key = chain) (known : entry.key ∈ keys)
    (fresh : ∀ later ∈ entries, later.key ≠ entry.key) :
    Works keys chain original hold (store.setTile .idx (chainCell chain) (.ptr next))
      (entry :: entries) ∅ := by
  have locs := chainLocs_insert chain [] entries entry
  have freshLocs : ∀ loc ∈ entryLocs [entry], loc ∉ chainLocs chain entries :=
    fun loc member inChain =>
      disjoint_left.mp works.apart inChain member
  have freshCell : entry.offset ∉ cells (chainCell chain) entries := by
    intro member
    exact freshLocs (.tile .idx entry.offset) (by simp) (.inl (idx_mem_listLocs.mpr member))
  have freshData : entry.datoff ∉ entries.map Entry.datoff := by
    intro member
    exact freshLocs (.tile .dat entry.datoff) (by simp) (.inl (dat_mem_listLocs.mpr member))
  have notHead : entry.offset ≠ chainCell chain := fun same => freshCell (same ▸ mem_cons_self)
  have elsewhere : ∀ loc : DbLoc, loc ≠ .tile .idx (chainCell chain) →
      store.SameAt (store.setTile .idx (chainCell chain) (.ptr next)) loc :=
    fun loc different => (setTile_sameAt store _ different).symm
  have sameIndex : store.tile .idx entry.offset =
      (store.setTile .idx (chainCell chain) (.ptr next)).tile .idx entry.offset :=
    elsewhere (.tile .idx entry.offset) fun same => notHead (Loc.tile.inj same).2
  have sameData : store.tile .dat entry.datoff =
      (store.setTile .idx (chainCell chain) (.ptr next)).tile .dat entry.datoff :=
    elsewhere (.tile .dat entry.datoff) (by simp)
  refine ⟨works.lent, works.exclusive, works.only, ?_, ?_, ?_, ?_, ?_⟩
  · rw [works.own, union_empty]
    exact locs.symm
  · exact disjoint_empty _
  · apply works.list.link (tile_setTile_self ..) target positive
      (stored.of_same sameIndex sameData) _ _ freshCell freshData
    · rw [← follows, nextAt, nextAt, sameIndex]
    · intro loc member
      apply elsewhere
      rintro rfl
      have distinct := works.list.distinct
      exact (nodup_cons.mp distinct).1 (idx_mem_entryLocs.mp member)
  · refine ⟨?_, ?_, ?_⟩
    · exact forall_mem_cons.mpr ⟨belongs, works.members.belongs⟩
    · exact forall_mem_cons.mpr ⟨known, works.members.known⟩
    · refine nodup_cons.mpr ⟨?_, works.members.distinct⟩
      intro member
      obtain ⟨later, laterMember, same⟩ := mem_map.mp member
      exact fresh later laterMember same
  · exact works.contents

theorem gain {loc : DbLoc} (foreign : loc ∉ hold.own) (same : Store.Same hold.own store other) :
    Works keys chain original (hold.gain loc) other entries (insert loc extra) := by
  have kept := works.congr (same.mono works.chainLocs_subset)
  refine ⟨works.lent, works.exclusive, works.only, ?_, ?_, kept.list, works.members, kept.contents⟩
  · have own : (hold.gain loc).own = insert loc hold.own := rfl
    rw [own, works.own, union_insert]
  · rw [disjoint_insert_right]
    exact ⟨fun member => foreign (works.chainLocs_subset member), works.apart⟩

/-- The process takes another lock and gives it back, with other locations
in exchange. -/
theorem exchange {lock : DbLock} (different : lock ≠ .chain chain)
    {taken given newExtra : Set DbLoc} {newEntries : List Entry} (own :
      (hold.own ∪ taken) \ given = chainLocs chain newEntries ∪ newExtra)
    (apart : Disjoint (chainLocs chain newEntries) newExtra)
    (list : ListAt other (chainCell chain) newEntries)
    (members : ChainEntries keys chain newEntries) (contents : ∀ key, bucket key = chain →
      other.contents key = store.contents key) :
    Works keys chain original ((hold.acquire lock taken).give lock given) other newEntries
      newExtra := by
  have sameHeld := hold.held_give_acquire taken given (works.only lock different)
  refine ⟨works.lent, ?_, ?_, own, apart, list, members, ?_⟩
  · rw [sameHeld]
    exact works.exclusive
  · rw [sameHeld]
    exact works.only
  · intro key ofChain
    rw [contents key ofChain]
    exact works.contents key ofChain

end

/-- The end of a call: the chain shows the effect of the call. -/
theorem finish (works : Works keys chain original hold store entries ∅)
    (ofCall : bucket call.key = chain) (atChain : db.At chain) {answer : Answer} (effect :
      ∀ key, bucket key = chain → lookup entries key = if key = call.key then
            (call.act (lookup original call.key)).1
          else lookup original key)
    (answered : (call.act (lookup original call.key)).2 = answer) :
    DbSafe keys call (.unlock .idx (chainRegion db) (.done (db, answer)))
      (hold.moved offsets store) := by
  have entryBefore : store.contents call.key = lookup original call.key :=
    works.contents call.key ofCall
  have after : ∀ key, bucket key = chain →
      database.apply store.contents call key = lookup entries key := by
    intro key ofChain
    rw [effect key ofChain, ← works.contents key ofChain, ← entryBefore]
    exact Function.update_apply ..
  have locs : hold.own = chainLocs chain entries := by rw [works.own, union_empty]
  have exclusive : (hold.moved offsets store).held (.chain chain) = some .exclusive :=
    works.exclusive
  rw [atChain.chainRegion_eq]
  refine Safe.finishExclusive ?_ exclusive ?_ ?_ ?_ ?_ ?_
  · exact works.lent
  · exact works.only
  · exact ⟨atChain.nhash, atChain.hashoff⟩
  · exact works.chainLocs_subset (.inr ⟨call.key, ofCall, rfl⟩)
  · rw [← answered, ← entryBefore]
    rfl
  · refine ⟨entries, ?_, locs, works.members, after⟩
    apply works.list.congr
    intro loc member
    cases loc with
    | tile | size => rfl
    | content key => simp [listLocs] at member

end Works

end Skyc.Apue.Db
