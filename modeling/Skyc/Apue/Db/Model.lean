import Skyc.Lib.CString
import Skyc.Lib.Decimal
import Skyc.Lib.FileProgram

/-!
# The database library

`db.c` keeps a map from strings to strings in an index file and a data file.  The
index file starts with the head of the free list, 137 heads of hash chains and a
newline; index records follow.  All numbers are decimal text.

The functions are programs over the files.  A request for a record lock succeeds
in the end; `err_dump` and `err_quit` terminate the process.
-/

namespace Skyc.Apue.Db

open Skyc.Lib Program

/-! ## Constants and data types -/

abbrev idxlenSz : ℕ := 4
abbrev sep : UInt8 := 58
abbrev space : UInt8 := 32
abbrev newline : UInt8 := 10
abbrev ptrSz : ℕ := 7
abbrev ptrMax : ℕ := 9999999
abbrev nhashDef : UInt64 := 137
abbrev freeOff : ℕ := 0
abbrev hashOff : ℕ := ptrSz
abbrev idxlenMin : ℕ := 6
abbrev idxlenMax : ℕ := 1024
abbrev datlenMin : ℕ := 2
abbrev datlenMax : ℕ := 1024
abbrev dbInsertFlag : ℤ := 1
abbrev dbReplaceFlag : ℤ := 2
abbrev dbStoreFlag : ℤ := 3

inductive DbFile
  | idx
  | dat
deriving DecidableEq, Repr

/-- The calls of `err_dump` and `err_quit`. -/
inductive DbError
  | openInit
  | readptrLseek
  | readptrRead
  | readidxLseek
  | readidxReadv
  | readidxInvalidLength
  | readidxRead
  | readidxMissingNewline
  | readidxMissingFirstSeparator
  | readidxMissingSecondSeparator
  | readidxTooManySeparators
  | readidxStartingOffset
  | readdatLseek
  | readdatRead
  | readdatMissingNewline
  | writedatLseek
  | writedatWritev
  | writeidxInvalidPtr (ptrval : ℤ)
  | writeidxInvalidLength
  | writeidxLseek
  | writeidxWritev
  | writeptrInvalidPtr (ptrval : ℤ)
  | writeptrLseek
  | writeptrWrite
  | storeInvalidDataLength
  | rewindLseek
deriving DecidableEq, Repr

def DbError.message : DbError → String
  | .openInit => "db_open: index file init write error"
  | .readptrLseek => "_db_readptr: lseek error to ptr field"
  | .readptrRead => "_db_readptr: read error of ptr field"
  | .readidxLseek => "_db_readidx: lseek error"
  | .readidxReadv => "_db_readidx: readv error of index record"
  | .readidxInvalidLength => "_db_readidx: invalid length"
  | .readidxRead => "_db_readidx: read error of index record"
  | .readidxMissingNewline => "_db_readidx: missing newline"
  | .readidxMissingFirstSeparator => "_db_readidx: missing first separator"
  | .readidxMissingSecondSeparator => "_db_readidx: missing second separator"
  | .readidxTooManySeparators => "_db_readidx: too many separators"
  | .readidxStartingOffset => "_db_readidx: starting offset < 0"
  | .readdatLseek => "_db_readdat: lseek error"
  | .readdatRead => "_db_readdat: read error"
  | .readdatMissingNewline => "_db_readdat: missing newline"
  | .writedatLseek => "_db_writedat: lseek error"
  | .writedatWritev => "_db_writedat: writev error of data record"
  | .writeidxInvalidPtr ptrval => "_db_writeidx: invalid ptr: " ++ toString ptrval
  | .writeidxInvalidLength => "_db_writeidx: invalid length"
  | .writeidxLseek => "_db_writeidx: lseek error"
  | .writeidxWritev => "_db_writeidx: writev error of index record"
  | .writeptrInvalidPtr ptrval => "_db_writeptr: invalid ptr: " ++ toString ptrval
  | .writeptrLseek => "_db_writeptr: lseek error to ptr field"
  | .writeptrWrite => "_db_writeptr: write error of ptr field"
  | .storeInvalidDataLength => "db_store: invalid data length"
  | .rewindLseek => "db_rewind: lseek error"

/-- The counters of `DB`. -/
structure Counts where
  delok : UInt64
  delerr : UInt64
  fetchok : UInt64
  fetcherr : UInt64
  stor1 : UInt64
  stor2 : UInt64
  stor3 : UInt64
  stor4 : UInt64
  storerr : UInt64
deriving DecidableEq, Repr

/-- `DB` without the descriptors and the name.  The buffers are the strings
in them. -/
structure DB where
  idxbuf : List UInt8
  datbuf : List UInt8
  idxoff : ℤ
  idxlen : ℕ
  datoff : ℤ
  datlen : ℕ
  ptrval : ℤ
  ptroff : ℤ
  chainoff : ℤ
  hashoff : ℤ
  nhash : UInt64
  cnt : Counts
deriving DecidableEq, Repr

abbrev DbProgram := Program DbFile DbError

/-- Conversion of a `long` to `size_t`. -/
def sizeT (value : ℤ) : ℕ :=
  (value % 2 ^ 64).toNat

/-! ## Reading -/

/-- The loop of `_db_hash`; the characters are signed. -/
def hashFrom : ℕ → UInt64 → List UInt8 → UInt64
  | _, hval, [] => hval
  | i, hval, c :: key => hashFrom (i + 1) (hval + UInt64.ofInt (c.toInt8.toInt * i)) key

def hash (db : DB) (key : List UInt8) : ℕ :=
  (hashFrom 1 0 key % db.nhash).toNat

def readptr (offset : ℤ) : DbProgram ℤ := do
  let position ← perform (.lseek .idx offset .seekSet)
  failIf (position = -1) .readptrLseek
  let asciiptr ← perform (.read .idx ptrSz)
  failIf (asciiptr.length ≠ ptrSz) .readptrRead
  return atol asciiptr

/-- What `_db_readidx` makes of the text of an index record: the key, the
data offset and the data length. -/
def splitRecord (text : List UInt8) : DbProgram (List UInt8 × ℤ × ℕ) :=
  match strchr text sep with
  | none => .abort .readidxMissingFirstSeparator
  | some (key, ptr1) =>
    match strchr ptr1 sep with
    | none => .abort .readidxMissingSecondSeparator
    | some (datoff, ptr2) => do
      failIf ((strchr ptr2 sep).isSome = true) .readidxTooManySeparators
      failIf (atol datoff < 0) .readidxStartingOffset
      failIf (sizeT (atol ptr2) = 0 ∨ sizeT (atol ptr2) > datlenMax) .readidxInvalidLength
      return (key, atol datoff, sizeT (atol ptr2))

def readidx (db : DB) (offset : ℤ) : DbProgram (DB × ℤ) := do
  let idxoff ← perform (.lseek .idx offset (if offset = 0 then .seekCur else .seekSet))
  failIf (idxoff = -1) .readidxLseek
  let asciiptrlen ← perform (.read .idx (ptrSz + idxlenSz))
  if asciiptrlen.length ≠ ptrSz + idxlenSz then
    if asciiptrlen.length = 0 ∧ offset = 0 then
      return ({ db with idxoff }, -1)
    else
      .abort .readidxReadv
  else
    let ptrval := atol (asciiptrlen.take ptrSz)
    let idxlen := sizeT (atol (asciiptrlen.drop ptrSz))
    failIf (idxlen < idxlenMin ∨ idxlen > idxlenMax) .readidxInvalidLength
    let idxbuf ← perform (.read .idx idxlen)
    failIf (idxbuf.length ≠ idxlen) .readidxRead
    failIf (idxbuf.getLast? ≠ some newline) .readidxMissingNewline
    let (key, datoff, datlen) ← splitRecord (cString idxbuf.dropLast)
    return ({ db with
      idxbuf := key, idxoff, idxlen, datoff, datlen, ptrval }, ptrval)

def readdat (db : DB) : DbProgram DB := do
  let position ← perform (.lseek .dat db.datoff .seekSet)
  failIf (position = -1) .readdatLseek
  let datbuf ← perform (.read .dat db.datlen)
  failIf (datbuf.length ≠ db.datlen) .readdatRead
  failIf (datbuf.getLast? ≠ some newline) .readdatMissingNewline
  return { db with datbuf := cString datbuf.dropLast }

def chainRegion (db : DB) : Region :=
  Region.ofLen db.chainoff.toNat 1

/-- The body of the loop of `_db_find_and_lock`. -/
def chainStep (key : List UInt8) : DB × ℤ → DbProgram ((DB × ℤ) ⊕ (DB × ℤ))
  | (db, offset) => do
    if offset = 0 then
      pure (.inr (db, offset))
    else
      let (db, nextoffset) ← readidx db offset
      if db.idxbuf = key then
        pure (.inr (db, offset))
      else
        pure (.inl ({ db with ptroff := offset }, nextoffset))

/-- `_db_find_and_lock`. -/
def findAndLock (db : DB) (key : List UInt8) (writelock : Bool) : DbProgram (DB × ℤ) := do
  let chainoff : ℤ := hash db key * ptrSz + db.hashoff
  let db := { db with chainoff, ptroff := chainoff }
  lockRegion .idx (if writelock then .exclusive else .shared) (chainRegion db)
  let offset ← readptr db.ptroff
  let (db, offset) ← repeatFrom (db, offset) (chainStep key)
  return (db, if offset = 0 then -1 else 0)

/-! ## Writing -/

def writedat (db : DB) (data : List UInt8) (offset : ℤ) (whence : Whence) : DbProgram DB := do
  onlyIf (whence = .seekEnd) (lockRegion .dat .exclusive (Region.ofLen 0 0))
  let datoff ← perform (.lseek .dat offset whence)
  failIf (datoff = -1) .writedatLseek
  let written ← perform (.write .dat (data ++ [newline]))
  failIf (written ≠ data.length + 1) .writedatWritev
  onlyIf (whence = .seekEnd) (unlockRegion .dat (Region.ofLen 0 0))
  return { db with datoff, datlen := data.length + 1 }

/-- The text of an index record after its pointer and its length. -/
def recordText (key : List UInt8) (datoff : ℤ) (datlen : ℕ) : List UInt8 :=
  key ++ sep :: (printInt datoff ++ sep :: (decimal datlen ++ [newline]))

def recordsRegion (db : DB) : Region :=
  Region.ofLen ((db.nhash.toNat + 1) * ptrSz + 1) 0

def writeidx (db : DB) (key : List UInt8) (offset : ℤ) (whence : Whence)
    (ptrval : ℤ) : DbProgram DB := do
  failIf (ptrval < 0 ∨ ptrval > ptrMax) (.writeidxInvalidPtr ptrval)
  let idxbuf := recordText key db.datoff db.datlen
  let len := idxbuf.length
  failIf (len < idxlenMin ∨ len > idxlenMax) .writeidxInvalidLength
  let asciiptrlen := padLeft ptrSz (printInt ptrval) ++ padLeft idxlenSz (decimal len)
  onlyIf (whence = .seekEnd) (lockRegion .idx .exclusive (recordsRegion db))
  let idxoff ← perform (.lseek .idx offset whence)
  failIf (idxoff = -1) .writeidxLseek
  let written ← perform (.write .idx (asciiptrlen ++ idxbuf))
  failIf (written ≠ ptrSz + idxlenSz + len) .writeidxWritev
  onlyIf (whence = .seekEnd) (unlockRegion .idx (recordsRegion db))
  return { db with ptrval, idxbuf, idxoff }

def writeptr (offset ptrval : ℤ) : DbProgram Unit := do
  failIf (ptrval < 0 ∨ ptrval > ptrMax) (.writeptrInvalidPtr ptrval)
  let position ← perform (.lseek .idx offset .seekSet)
  failIf (position = -1) .writeptrLseek
  let written ← perform (.write .idx (padLeft ptrSz (printInt ptrval)))
  failIf (written ≠ ptrSz) .writeptrWrite

def freeRegion : Region :=
  Region.ofLen freeOff 1

def dodelete (db : DB) : DbProgram DB := do
  let db := { db with
    datbuf := List.replicate (db.datlen - 1) space
    idxbuf := db.idxbuf.map fun _ => space }
  lockRegion .idx .exclusive freeRegion
  let db ← writedat db db.datbuf db.datoff .seekSet
  let freeptr ← readptr freeOff
  let saveptr := db.ptrval
  let db ← writeidx db db.idxbuf db.idxoff .seekSet freeptr
  writeptr freeOff db.idxoff
  writeptr db.ptroff saveptr
  unlockRegion .idx freeRegion
  return db

/-- The body of the loop of `_db_findfree`; the state holds `saveoffset`
and `offset`. -/
def freeStep (keylen datlen : ℕ) : DB × ℤ × ℤ → DbProgram ((DB × ℤ × ℤ) ⊕ (DB × ℤ × ℤ))
  | (db, saveoffset, offset) => do
    if offset = 0 then
      pure (.inr (db, saveoffset, offset))
    else
      let (db, nextoffset) ← readidx db offset
      if db.idxbuf.length = keylen ∧ db.datlen = datlen then
        pure (.inr (db, saveoffset, offset))
      else
        pure (.inl (db, offset, nextoffset))

def findfree (db : DB) (keylen datlen : ℕ) : DbProgram (DB × ℤ) := do
  lockRegion .idx .exclusive freeRegion
  let offset ← readptr freeOff
  let (db, saveoffset, offset) ← repeatFrom (db, (freeOff : ℤ), offset) (freeStep keylen datlen)
  onlyIf (offset ≠ 0) (writeptr saveoffset db.ptrval)
  unlockRegion .idx freeRegion
  return (db, if offset = 0 then -1 else 0)

/-! ## The calls -/

inductive Errno
  | einval
  | enoent
deriving DecidableEq, Repr

/-- What a call returns: a code, with the error number it sets, or the data
of a key. -/
inductive Answer
  | code (rc : ℤ) (errno : Option Errno)
  | data (data : Option (List UInt8))
deriving DecidableEq, Repr

inductive Call
  | store (key data : CString) (flag : ℤ)
  | delete (key : CString)
  | fetch (key : CString)
deriving DecidableEq, Repr

/-- What `db_fetch` does with the result of the search. -/
def fetchFound (db : DB) (found : ℤ) : DbProgram (DB × Option (List UInt8)) := do
  if found < 0 then
    return ({ db with cnt.fetcherr := db.cnt.fetcherr + 1 }, none)
  else
    let db ← readdat db
    return ({ db with cnt.fetchok := db.cnt.fetchok + 1 }, some db.datbuf)

/-- `db_fetch`. -/
def dbFetch (db : DB) (key : List UInt8) : DbProgram (DB × Answer) := do
  let (db, found) ← findAndLock db key false
  let (db, ptr) ← fetchFound db found
  unlockRegion .idx (chainRegion db)
  return (db, .data ptr)

/-- What `db_delete` does with the result of the search. -/
def deleteFound (db : DB) (found : ℤ) : DbProgram (DB × ℤ) := do
  if found = 0 then
    let db ← dodelete db
    return ({ db with cnt.delok := db.cnt.delok + 1 }, 0)
  else
    return ({ db with cnt.delerr := db.cnt.delerr + 1 }, -1)

/-- `db_delete`. -/
def dbDelete (db : DB) (key : List UInt8) : DbProgram (DB × Answer) := do
  let (db, found) ← findAndLock db key true
  let (db, rc) ← deleteFound db found
  unlockRegion .idx (chainRegion db)
  return (db, .code rc none)

/-- New records at the ends of both files, in front of the chain that starts
with `ptrval`. -/
def appendRecord (db : DB) (key data : List UInt8) (ptrval : ℤ) : DbProgram DB := do
  let db ← writedat db data 0 .seekEnd
  let db ← writeidx db key 0 .seekEnd ptrval
  writeptr db.chainoff db.idxoff
  return db

/-- The branch of `db_store` for a key without a record. -/
def storeAbsent (db : DB) (key data : List UInt8) (flag : ℤ) : DbProgram (DB × Answer) := do
  if flag = dbReplaceFlag then
    return ({ db with cnt.storerr := db.cnt.storerr + 1 }, .code (-1) (some .enoent))
  else
    let ptrval ← readptr db.chainoff
    let (db, free) ← findfree db key.length (data.length + 1)
    if free < 0 then
      let db ← appendRecord db key data ptrval
      return ({ db with cnt.stor1 := db.cnt.stor1 + 1 }, .code 0 none)
    else
      let db ← writedat db data db.datoff .seekSet
      let db ← writeidx db key db.idxoff .seekSet ptrval
      writeptr db.chainoff db.idxoff
      return ({ db with cnt.stor2 := db.cnt.stor2 + 1 }, .code 0 none)

/-- The branch of `db_store` for a key with a record. -/
def storePresent (db : DB) (key data : List UInt8) (flag : ℤ) : DbProgram (DB × Answer) := do
  if flag = dbInsertFlag then
    return ({ db with cnt.storerr := db.cnt.storerr + 1 }, .code 1 none)
  else if data.length + 1 ≠ db.datlen then
    let db ← dodelete db
    let ptrval ← readptr db.chainoff
    let db ← appendRecord db key data ptrval
    return ({ db with cnt.stor3 := db.cnt.stor3 + 1 }, .code 0 none)
  else
    let db ← writedat db data db.datoff .seekSet
    return ({ db with cnt.stor4 := db.cnt.stor4 + 1 }, .code 0 none)

/-- What `db_store` does with the result of the search. -/
def storeFound (db : DB) (key data : List UInt8) (flag found : ℤ) : DbProgram (DB × Answer) :=
  if found < 0 then
    storeAbsent db key data flag
  else
    storePresent db key data flag

/-- `db_store`. -/
def dbStore (db : DB) (key data : List UInt8) (flag : ℤ) : DbProgram (DB × Answer) := do
  if flag ≠ dbInsertFlag ∧ flag ≠ dbReplaceFlag ∧ flag ≠ dbStoreFlag then
    return (db, .code (-1) (some .einval))
  else
    failIf (data.length + 1 < datlenMin ∨ data.length + 1 > datlenMax) .storeInvalidDataLength
    let (db, found) ← findAndLock db key true
    let (db, answer) ← storeFound db key data flag found
    unlockRegion .idx (chainRegion db)
    return (db, answer)

def program : Call → DB → DbProgram (DB × Answer)
  | .store key data flag, db => dbStore db key.bytes data.bytes flag
  | .delete key, db => dbDelete db key.bytes
  | .fetch key, db => dbFetch db key.bytes

/-! ## Opening a database -/

/-- `_db_alloc`, which zeroes the structure, and the settings of
`db_open`. -/
def allocated : DB where
  idxbuf := []
  datbuf := []
  idxoff := 0
  idxlen := 0
  datoff := 0
  datlen := 0
  ptrval := 0
  ptroff := 0
  chainoff := 0
  hashoff := hashOff
  nhash := nhashDef
  cnt := ⟨0, 0, 0, 0, 0, 0, 0, 0, 0⟩

/-- `db_rewind`. -/
def dbRewind (db : DB) : DbProgram DB := do
  let idxoff ← perform (.lseek .idx ((db.nhash.toNat + 1) * ptrSz + 1 : ℕ) .seekSet)
  failIf (idxoff = -1) .rewindLseek
  return { db with idxoff }

def emptyTable : List UInt8 :=
  (List.replicate (nhashDef.toNat + 1) (padLeft ptrSz (printInt 0))).flatten ++ [newline]

/-- `db_open` once both files are open; `create` says that the flags hold
`O_CREAT` and `O_TRUNC`. -/
def dbOpen (create : Bool) : DbProgram DB := do
  onlyIf (create = true) do
    lockRegion .idx .exclusive (Region.ofLen 0 0)
    let size ← perform (.fstat .idx)
    onlyIf (size = 0) do
      let written ← perform (.write .idx emptyTable)
      failIf (written ≠ emptyTable.length) .openInit
    unlockRegion .idx (Region.ofLen 0 0)
  dbRewind allocated

end Skyc.Apue.Db
