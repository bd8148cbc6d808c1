import Skyc.Apue.Db.Opening

/-!
# Many processes

Processes work on one database, their system calls and lock requests
interleaved in any order.  A limit of the record format can terminate a process
in the middle of its change.
-/

namespace Skyc.Apue.Db

open Skyc.Lib Program List Set

variable {Process : Type}

def dbMachine (Process : Type) [DecidableEq Process] :
    Machine (DbService Process) (Service.Label Process Call) where
  start := freshService Process
  next := Service.next program

/-! ## The lists of the index file -/

inductive DbList
  | chain (chain : Bucket)
  | free
deriving DecidableEq

namespace DbList

def head : DbList → ℕ
  | .chain place => chainCell place
  | .free => freeOff

def lock : DbList → DbLock
  | .chain place => .chain place
  | .free => .free

theorem lock_injective {first second : DbList} (same : first.lock = second.lock) :
    first = second := by
  cases first with
  | chain chain =>
    cases second with
    | chain other => rw [DbLock.chain.inj same]
    | free => cases same
  | free =>
    cases second with
    | chain other => cases same
    | free => rfl

theorem head_lt (list : DbList) : list.head < recordsStart := by
  cases list with
  | chain chain => exact (DbLock.chainCell_bounds chain).2
  | free => decide

end DbList

/-- All index records are on lists, each on one of them; every key is on its
chain at most once, with the data that `contents` says. -/
structure WellLinked (store : DbStore) (entries : DbList → List Entry)
    (contents : CString → Option CString) : Prop where
  lists : ∀ list, ListAt store list.head (entries list)
  records : ∀ {offset block}, recordsStart ≤ offset → store.tile .idx offset = some block →
    ∃ next record, block = .index next record
  once : ∀ {offset next record}, store.tile .idx offset = some (.index next record) →
    ∃! list, offset ∈ (entries list).map Entry.offset
  belongs : ∀ chain, ∀ entry ∈ entries (.chain chain), bucket entry.key = chain
  distinct : ∀ chain, ((entries (.chain chain)).map Entry.key).Nodup
  live : ∀ key, lookup (entries (.chain (bucket key))) key = contents key

/-! ## What the locks protect -/

def listEntries (chains : Bucket → List Entry) (free : List Entry) : DbList → List Entry
  | .chain chain => chains chain
  | .free => free

/-- The index file belongs to the locks, and every lock protects what it
should. -/
structure Protected (keys : Set CString) (owner : DbLoc → Owner Process DbLock)
    (store : DbStore) (chains : Bucket → List Entry) (free : List Entry) : Prop where
  index : ∀ offset, ∃ lock, owner (.tile .idx offset) = .lock lock
  chain : ∀ chain,
    ChainInvariant keys chain {loc | owner loc = .lock (.chain chain)} store (chains chain)
  free : FreeInvariant {loc | owner loc = .lock .free} store free
  records : RecordsInvariant {loc | owner loc = .lock .records} store
  data : DataInvariant {loc | owner loc = .lock .data} store

namespace Protected

variable {keys : Set CString} {owner : DbLoc → Owner Process DbLock} {store : DbStore}
  {chains : Bucket → List Entry} {free : List Entry} {offset : ℕ} {block : Block}

section

variable (holds : Protected keys owner store chains free)
include holds

theorem listAt (list : DbList) : ListAt store list.head (listEntries chains free list) := by
  cases list with
  | chain chain => exact (holds.chain chain).list
  | free => exact holds.free.list

theorem owner_eq_iff (list : DbList) :
    owner (.tile .idx offset) = .lock list.lock ↔
      offset ∈ cells list.head (listEntries chains free list) := by
  cases list with
  | chain chain =>
    have locs := (holds.chain chain).locs
    have same : owner (.tile .idx offset) = .lock (.chain chain) ↔
        (.tile .idx offset : DbLoc) ∈ chainLocs chain (chains chain) := by
      rw [← locs]
      rfl
    rw [DbList.lock, same, chainLocs]
    simp [bucketLocs, DbList.head, listEntries]
  | free =>
    have same : owner (.tile .idx offset) = .lock .free ↔
        (.tile .idx offset : DbLoc) ∈ listLocs freeOff free := by
      rw [← holds.free.locs]
      rfl
    rw [DbList.lock, same, idx_mem_listLocs]
    rfl

theorem exists_list
    (found : store.tile .idx offset = some block) (notNewline : offset ≠ recordsStart - 1) :
    ∃ list : DbList, offset ∈ cells list.head (listEntries chains free list) := by
  obtain ⟨lock, kept⟩ := holds.index offset
  cases lock with
  | chain chain => exact ⟨.chain chain, (holds.owner_eq_iff (.chain chain)).mp kept⟩
  | free => exact ⟨.free, (holds.owner_eq_iff .free).mp kept⟩
  | records =>
    have nothing := holds.records.only offset kept notNewline
    rw [nothing] at found
    cases found
  | data => exact absurd kept (holds.data.only offset)

theorem entry_of_cell {list : DbList}
    (member : offset ∈ cells list.head (listEntries chains free list)) :
    offset = list.head ∨ offset ∈ (listEntries chains free list).map Entry.offset ∧
      ∃ next record, store.tile .idx offset = some (.index next record) := by
  rcases mem_cons.mp member with here | later
  · exact Or.inl here
  · obtain ⟨entry, entryMember, rfl⟩ := mem_map.mp later
    obtain ⟨next, index⟩ := ((holds.listAt list).chain.stored entryMember).index
    exact Or.inr ⟨later, next, entry.record, index⟩

theorem records_of_found
    (behindTable : recordsStart ≤ offset) (found : store.tile .idx offset = some block) :
    ∃ next record, block = .index next record := by
  have notNewline : offset ≠ recordsStart - 1 := by
    simp only [recordsStart] at behindTable ⊢
    omega
  obtain ⟨list, member⟩ := holds.exists_list found notNewline
  rcases holds.entry_of_cell member with here | ⟨-, next, record, index⟩
  · have inTable := list.head_lt
    omega
  · rw [index] at found
    cases found
    exact ⟨next, record, rfl⟩

theorem existsUnique_list {next : Pointer} {record : IndexRecord}
    (found : store.tile .idx offset = some (.index next record)) :
    ∃! list, offset ∈ (listEntries chains free list).map Entry.offset := by
  have notNewline : offset ≠ recordsStart - 1 := by
    rintro rfl
    rw [holds.records.newline.2] at found
    cases found
  obtain ⟨list, member⟩ := holds.exists_list found notNewline
  have onList : offset ∈ (listEntries chains free list).map Entry.offset := by
    rcases holds.entry_of_cell member with rfl | ⟨onList, -⟩
    · obtain ⟨headNext, headTile⟩ := (holds.listAt list).headTile
      rw [headTile] at found
      cases found
    · exact onList
  refine ⟨list, onList, ?_⟩
  intro other onOther
  have kept := (holds.owner_eq_iff list).mpr member
  have otherKept := (holds.owner_eq_iff other).mpr (mem_cons_of_mem _ onOther)
  exact DbList.lock_injective (Owner.lock.inj (otherKept.symm.trans kept))

theorem wellLinked : WellLinked store (listEntries chains free) store.contents where
  lists := holds.listAt
  records := holds.records_of_found
  once := holds.existsUnique_list
  belongs := fun chain => (holds.chain chain).members.belongs
  distinct := fun chain => (holds.chain chain).members.distinct
  live := fun key =>
    ((holds.chain (bucket key)).contents key rfl).symm

end

end Protected

/-! ## Every run -/

/-- Whenever no process is in a call, and none has been terminated by a limit
of the record format while it replaced a record or linked a new one, all index
records are on one list each, and the chains hold what the calls that have
returned left. -/
theorem wellLinked_and_calls_kept [DecidableEq Process] {service : DbService Process}
    (reached : (dbMachine Process).Reachable service) (quiet : service.Quiet)
    (withinLimits : ∀ process call failure, (service.thread process).phase = .failed call failure →
      ¬ call.BeyondLimits failure) :
    (∃ store entries, Store.Holds Block.encode service.files store ∧
        WellLinked store entries (database.after (fun _ => none)
          (service.history.map Completed.call))) ∧
      service.history.map Completed.answer = database.answers (fun _ => none)
        (service.history.map Completed.call) := by
  rcases Service.sound_or_failed_of_reachable (safePrograms univ) (freshService_sound univ)
    (reached.mono fun _ label _ => by cases label <;> trivial) with sound | failed
  · obtain ⟨owner, store, holds, contents, answers, kept, protects⟩ := sound.quiet quiet
    choose chains chainInvariant using fun chain => protects (.chain chain)
    obtain ⟨free, freeInvariant⟩ := protects .free
    have linked := Protected.wellLinked
      ⟨fun _ => kept _ (by simp [discipline]), chainInvariant, freeInvariant,
        protects .records, protects .data⟩
    rw [contents] at linked
    exact ⟨⟨store, _, holds, linked⟩, answers⟩
  · obtain ⟨process, call, failure, phase, harmful⟩ := failed
    exact absurd (withinLimits process call failure phase) harmful

/-! ## Two processes -/

def bothIdle (service : DbService Bool) : Bool :=
  match (service.thread false).phase, (service.thread true).phase with
  | .idle, .idle => true
  | _, _ => false

theorem idle_of_bothIdle {service : DbService Bool}
    (idle : bothIdle service = true) (process : Bool) : (service.thread process).phase = .idle := by
  rw [bothIdle] at idle
  split at idle
  case h_1 first second =>
    cases process with
    | false => exact first
    | true => exact second
  case h_2 => cases idle

/-- Two stores on different chains: the second process locks its chain, then the first
one runs through. -/
def twoStores : List (Service.Label Bool Call) :=
  [Service.Label.start true (.store ⟨[106], by decide⟩ ⟨[50, 50], by decide⟩ 3),
    Service.Label.start false (.store ⟨[107], by decide⟩ ⟨[49], by decide⟩ 1)] ++
    List.replicate 4 (Service.Label.step true) ++ List.replicate 22 (Service.Label.step false) ++
    List.replicate 18 (Service.Label.step true)

theorem wellLinked_and_calls_kept_twoStores :
    ∃ service : DbService Bool, (dbMachine Bool).Reachable service ∧ bothIdle service = true ∧
      (∃ store entries, Store.Holds Block.encode service.files store ∧
        WellLinked store entries (database.after (fun _ => none)
          (service.history.map Completed.call))) := by
  obtain ⟨service, reached, idle⟩ :=
    Machine.exists_reachable_of_run (dbMachine Bool) twoStores bothIdle (by decide +kernel)
  have quiet : service.Quiet := by
    intro process
    rw [Service.busy, idle_of_bothIdle idle process]
  have withinLimits : ∀ process call failure,
      (service.thread process).phase = .failed call failure → ¬ call.BeyondLimits failure := by
    intro process call failure failed
    rw [idle_of_bothIdle idle process] at failed
    cases failed
  exact ⟨service, reached, idle, (wellLinked_and_calls_kept reached quiet withinLimits).1⟩

/-! ## An unfinished store -/

/-- The longest key that fits with its data at the start of the data file. -/
def longKey : CString where
  bytes := List.replicate 1019 97
  noNul := fun member => absurd (List.mem_replicate.mp member).2 (by decide)

def shortKey : CString :=
  ⟨[98], by decide⟩

def oneByte : CString :=
  ⟨[49], by decide⟩

def twoBytes : CString :=
  ⟨[50, 50], by decide⟩

def nineBytes : CString :=
  ⟨List.replicate 9 57, by decide⟩

/-- While the second process is about to store under `longKey`, the first one
stores under that key and under another one.  The second process then deletes
the record and cannot append the new one, whose offset has a digit more. -/
def unfinishedStore : List (Service.Label Bool Call) :=
  [Service.Label.start false (.store longKey oneByte dbInsertFlag),
    Service.Label.start true (.store longKey twoBytes dbStoreFlag)] ++
    List.replicate 22 (Service.Label.step false) ++
    [Service.Label.start false (.store shortKey nineBytes dbInsertFlag)] ++
    List.replicate 22 (Service.Label.step false) ++ List.replicate 25 (Service.Label.step true) ++
    [Service.Label.start false (.fetch longKey)] ++ List.replicate 5 (Service.Label.step false)

/-- No call deletes `longKey` or stores anything else there and returns, but
its data is gone. -/
def lostKey (service : DbService Bool) : Bool :=
  !service.busy false && !service.busy true && service.history.map Completed.call =
      [.store longKey oneByte dbInsertFlag,
        .store shortKey nineBytes dbInsertFlag, .fetch longKey] &&
    service.history.map Completed.answer = [.code 0 none, .code 0 none, .data none]

theorem returned_store_lost :
    ∃ service : DbService Bool, (dbMachine Bool).Reachable service ∧ service.Quiet ∧
      service.history.map Completed.call = [.store longKey oneByte dbInsertFlag,
        .store shortKey nineBytes dbInsertFlag, .fetch longKey] ∧
      service.history.map Completed.answer = [.code 0 none, .code 0 none, .data none] := by
  obtain ⟨service, reached, lost⟩ :=
    Machine.exists_reachable_of_run (dbMachine Bool) unfinishedStore lostKey (by decide +kernel)
  simp only [lostKey, Bool.and_eq_true, Bool.not_eq_true', decide_eq_true_eq] at lost
  obtain ⟨⟨⟨firstRests, secondRests⟩, calls⟩, answers⟩ := lost
  refine ⟨service, reached, ?_, calls, answers⟩
  intro process
  cases process with
  | false => exact firstRests
  | true => exact secondRests

end Skyc.Apue.Db
