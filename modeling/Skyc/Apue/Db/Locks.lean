import Skyc.Apue.Db.Lists

/-!
# The locks and what they protect

The lock of a hash chain is the first byte of its head; it owns the chain with its
records and the contents of its keys.  The free list is protected in the same way,
the ends of the two files by locks on the regions that grow.
-/

namespace Skyc.Apue.Db

open Skyc.Lib Region

/-! ## The abstract database -/

def Call.key : Call → CString
  | .store key _ _ => key
  | .delete key => key
  | .fetch key => key

/-- What a call does to the data of its key, and its answer. -/
def Call.act : Call → Option CString → Option CString × Answer
  | .store _ data flag, old =>
    if flag ≠ dbInsertFlag ∧ flag ≠ dbReplaceFlag ∧ flag ≠ dbStoreFlag then
      (old, .code (-1) (some .einval))
    else if old = none ∧ flag = dbReplaceFlag then
      (old, .code (-1) (some .enoent))
    else if old ≠ none ∧ flag = dbInsertFlag then
      (old, .code 1 none)
    else
      (some data, .code 0 none)
  | .delete _, old => (none, .code (if old = none then -1 else 0) none)
  | .fetch _, old => (old, .data (old.map CString.bytes))

def database : KeyedObject CString (Option CString) Call Answer where
  key := Call.key
  act := Call.act

/-- The failures that a call may end in when the keys are from `keys`: the
limits of the record format, for data that is in the data file already, data of
a wrong length, and a key with a separator somewhere in the database. -/
def Call.MayFail (keys : Set CString) : Call → DbError → (DbFile → List UInt8) → Prop
  | .store key data _, .writeidxInvalidLength, files =>
    ∃ datoff : ℕ, datoff + (data.bytes.length + 1) ≤ (files .dat).length ∧
      let text := recordText key.bytes datoff (data.bytes.length + 1)
      text.length < idxlenMin ∨ text.length > idxlenMax
  | .store _ _ _, .writeptrInvalidPtr ptrval, _ => ptrval > ptrMax
  | .store _ data _, .storeInvalidDataLength, _ =>
    data.bytes.length + 1 < datlenMin ∨ data.bytes.length + 1 > datlenMax
  | _, .readidxTooManySeparators, _ => ∃ key ∈ keys, sep ∈ key.bytes
  | _, _, _ => False

/-- The failures in the middle of a change: the index record that replaces a
deleted one is too long, or the new one starts where no pointer reaches. -/
def Call.BeyondLimits : Call → DbError → Prop
  | .store _ _ flag, .writeidxInvalidLength => flag ≠ dbInsertFlag
  | _, .writeptrInvalidPtr _ => True
  | _, _ => False

/-! ## The locks -/

abbrev Bucket := Fin 137

theorem toNat_hash_lt (key : List UInt8) : (hashFrom 1 0 key % nhashDef).toNat < 137 := by
  rw [UInt64.toNat_mod]
  exact Nat.mod_lt _ (by decide)

def bucket (key : CString) : Bucket :=
  ⟨(hashFrom 1 0 key.bytes % nhashDef).toNat, toNat_hash_lt key.bytes⟩

def chainCell (chain : Bucket) : ℕ :=
  chain * ptrSz + hashOff

def recordsStart : ℕ := 967

inductive DbLock
  | chain (chain : Bucket)
  | free
  | records
  | data
deriving DecidableEq

namespace DbLock

def file : DbLock → DbFile
  | .chain _ => .idx
  | .free => .idx
  | .records => .idx
  | .data => .dat

def region : DbLock → Region
  | .chain bucket => Region.ofLen (chainCell bucket) 1
  | .free => freeRegion
  | .records => Region.ofLen recordsStart 0
  | .data => Region.ofLen 0 0

theorem covers_start (lock : DbLock) : lock.region.Covers lock.region.start := by
  cases lock with
  | chain | free => exact (covers_ofLen_one _ _).mpr rfl
  | records | data => exact (covers_ofLen_zero _ _).mpr (Nat.le_refl _)

theorem chainCell_bounds (bucket : Bucket) :
    freeOff < chainCell bucket ∧ chainCell bucket < recordsStart := by
  have small := bucket.isLt
  simp only [chainCell, hashOff, ptrSz, recordsStart, freeOff]
  omega

theorem chainCell_injective {first second : Bucket} (same : chainCell first = chainCell second) :
    first = second := by
  simp only [chainCell, hashOff, ptrSz] at same
  apply Fin.ext
  omega

/-- No lock covers the first byte of another one. -/
theorem separate {lock other : DbLock} (sameFile : other.file = lock.file)
    (covers : lock.region.Covers other.region.start) : other = lock := by
  cases lock with
  | chain bucket =>
    have here := (covers_ofLen_one _ _).mp covers
    have bounds := chainCell_bounds bucket
    cases other with
    | chain second => rw [chainCell_injective here]
    | free => exact absurd here bounds.1.ne
    | records => exact absurd here bounds.2.ne'
    | data => cases sameFile
  | free =>
    have here := (covers_ofLen_one _ _).mp covers
    cases other with
    | chain second => exact absurd here (Nat.ne_of_gt (chainCell_bounds second).1)
    | free => rfl
    | records => exact absurd here (by decide)
    | data => cases sameFile
  | records =>
    have here := (covers_ofLen_zero _ _).mp covers
    cases other with
    | chain second => exact absurd here (Nat.not_le_of_gt (chainCell_bounds second).2)
    | free => exact absurd here (by decide)
    | records => rfl
    | data => cases sameFile
  | data =>
    cases other with
    | data => rfl
    | chain | free | records => cases sameFile

end DbLock

/-! ## The invariants -/

def bucketLocs (chain : Bucket) : Set DbLoc :=
  {loc | ∃ key, bucket key = chain ∧ loc = .content key}

def lookup (entries : List Entry) (key : CString) : Option CString :=
  (entries.find? fun entry => entry.key = key).map Entry.data

def chainLocs (chain : Bucket) (entries : List Entry) : Set DbLoc :=
  listLocs (chainCell chain) entries ∪ bucketLocs chain

/-- Entries with different keys that belong to a chain. -/
structure ChainEntries (keys : Set CString) (chain : Bucket) (entries : List Entry) : Prop where
  belongs : ∀ entry ∈ entries, bucket entry.key = chain
  known : ∀ entry ∈ entries, entry.key ∈ keys
  distinct : (entries.map Entry.key).Nodup

structure ChainInvariant (keys : Set CString) (chain : Bucket)
    (locs : Set DbLoc) (store : DbStore) (entries : List Entry) : Prop where
  list : ListAt store (chainCell chain) entries
  locs : locs = chainLocs chain entries
  members : ChainEntries keys chain entries
  contents : ∀ key, bucket key = chain → store.contents key = lookup entries key

structure FreeInvariant (locs : Set DbLoc) (store : DbStore) (entries : List Entry) : Prop where
  list : ListAt store freeOff entries
  locs : locs = listLocs freeOff entries
  readable : ∀ entry ∈ entries, sep ∉ entry.key.bytes

/-- The lock on the end of a file owns what is behind it. -/
structure EndInvariant (file : DbFile) (locs : Set DbLoc) (store : DbStore) : Prop where
  size : .size file ∈ locs
  beyond : ∀ offset, store.size file ≤ offset → .tile file offset ∈ locs

/-- The lock on the data file owns nothing of the index file. -/
structure DataInvariant (locs : Set DbLoc) (store : DbStore) : Prop where
  ends : EndInvariant .dat locs store
  only : ∀ offset, .tile .idx offset ∉ locs

/-- The lock on the records of the index file also owns the newline in front
of them and all offsets where no record starts. -/
structure RecordsInvariant (locs : Set DbLoc) (store : DbStore) : Prop where
  ends : EndInvariant .idx locs store
  start : recordsStart ≤ store.size .idx
  newline : .tile .idx (recordsStart - 1) ∈ locs ∧
    store.tile .idx (recordsStart - 1) = some .newline
  only : ∀ offset, .tile .idx offset ∈ locs →
    offset ≠ recordsStart - 1 → store.tile .idx offset = none

def invariant (keys : Set CString) : DbLock → Set DbLoc → DbStore → Prop
  | .chain chain, locs, store => ∃ entries, ChainInvariant keys chain locs store entries
  | .free, locs, store => ∃ entries, FreeInvariant locs store entries
  | .records, locs, store => RecordsInvariant locs store
  | .data, locs, store => DataInvariant locs store

theorem EndInvariant.congr {file : DbFile} {locs : Set DbLoc}
    {first second : DbStore} (ends : EndInvariant file locs first)
    (same : Store.Same locs first second) : EndInvariant file locs second := by
  refine ⟨ends.size, fun offset beyond => ends.beyond offset ?_⟩
  rw [same.size ends.size]
  exact beyond

theorem invariant_congr {keys : Set CString} {lock : DbLock}
    {locs : Set DbLoc} {first second : DbStore} (same : Store.Same locs first second)
    (holds : invariant keys lock locs first) : invariant keys lock locs second := by
  cases lock with
  | chain chain =>
    obtain ⟨entries, holds⟩ := holds
    have inLocs : chainLocs chain entries ⊆ locs := subset_of_eq holds.locs.symm
    refine ⟨entries, ?_, holds.locs, holds.members, ?_⟩
    · exact holds.list.congr (same.mono fun loc member => inLocs (Or.inl member))
    · intro key ofChain
      have sameContent : first.contents key = second.contents key :=
        same.content (inLocs (Or.inr ⟨key, ofChain, rfl⟩))
      rw [← sameContent]
      exact holds.contents key ofChain
  | free =>
    obtain ⟨entries, holds⟩ := holds
    refine ⟨entries, ?_, holds.locs, holds.readable⟩
    exact holds.list.congr (holds.locs ▸ same)
  | records =>
    refine ⟨holds.ends.congr same, ?_, ⟨holds.newline.1, ?_⟩, ?_⟩
    · rw [← same.size holds.ends.size]
      exact holds.start
    · rw [← same.tile holds.newline.1]
      exact holds.newline.2
    · intro offset member
      rw [← same.tile member]
      exact holds.only offset member
  | data => exact ⟨holds.ends.congr same, holds.only⟩

def discipline (keys : Set CString) :
    Discipline DbFile DbError Block CString (Option CString) DbLock Call DB Answer where
  toKeyedObject := database
  encode := Block.encode
  encode_ne_nil := Block.encode_ne_nil
  file := DbLock.file
  region := DbLock.region
  covers_start := DbLock.covers_start
  separate := DbLock.separate
  invariant := invariant keys
  invariant_congr := invariant_congr
  admits := fun call => call.key ∈ keys
  tolerates := Call.MayFail keys
  harmless := fun call failure => ¬ call.BeyondLimits failure
  waste := {loc | ∃ datoff, loc = .tile .dat datoff}
  good := fun db => db.nhash = nhashDef ∧ db.hashoff = hashOff

end Skyc.Apue.Db
