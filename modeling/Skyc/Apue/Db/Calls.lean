import Skyc.Apue.Db.Entries
import Skyc.Lib.DisciplineSound

/-!
# The calls keep the locking discipline

`db_fetch`, `db_delete` and `db_store` lock the chain of their key, find its
entry and give the chain back in the state that the map has after the call.
-/

namespace Skyc.Apue.Db

open Skyc.Lib Program Option List

variable {keys : Set CString} {hold : DbHold} {db : DB} {offsets : DbFile → ℕ} {store : DbStore}
  {first second entries : List Entry} {entry : Entry} {key data : CString}

/-- What the handle shows outside of a call. -/
abbrev DB.Good (db : DB) : Prop :=
  db.nhash = nhashDef ∧ db.hashoff = hashOff

/-! ## `db_fetch` -/

variable {chain : Bucket} {value : Option CString}

theorem Reads.finish (reads : Reads keys chain hold store entries)
    (ofKey : bucket key = chain) (atChain : db.At chain) (looked : lookup entries key = value) :
    DbSafe keys (.fetch key) (.unlock .idx (chainRegion db)
      (.done (db, .data (value.map CString.bytes)))) (hold.moved offsets store) := by
  have shared : (hold.moved offsets store).held (.chain chain) = some .shared := reads.shared
  rw [atChain.chainRegion_eq]
  refine Safe.finishShared ?_ shared ?_ ?_ ?_ ?_
  · exact reads.own
  · exact reads.only
  · exact ⟨atChain.nhash, atChain.hashoff⟩
  · change _ ∈ hold.lent
    rw [reads.lent]
    exact .inr ⟨key, ofKey, rfl⟩
  · rw [← looked, ← reads.contents key ofKey]
    rfl

theorem lookup_of_mem (members : ChainEntries keys chain entries) (member : entry ∈ entries) :
    lookup entries entry.key = some entry.data := by
  obtain ⟨first, second, rfl⟩ := append_of_mem member
  rw [lookup_insert (key_apart members.distinct), if_pos rfl]

theorem safe_dbFetch (empty : hold.Empty) (good : db.Good) :
    DbSafe keys (.fetch key) (dbFetch db key.bytes) (hold.moved offsets store) := by
  apply safe_findAndLock_shared empty good.1 good.2
  · intro entries hold offsets store other reads absent atChain
    simp only [fetchFound, if_pos (by decide : (-1 : ℤ) < 0),
      unlockRegion_bind, pure_eq_done, done_bind]
    apply reads.finish rfl _ (lookup_eq_none absent)
    exact { atChain with }
  · intro entries hold offsets store other entry follower reads member sameKey atChain shows
    have looked : lookup entries key = some entry.data := by
      rw [← sameKey]
      exact lookup_of_mem reads.members member
    have visible : .tile .dat entry.datoff ∈ hold.visible :=
      reads.visible (dat_mem_listLocs.mpr (mem_map_of_mem member))
    have datlen : other.datlen = entry.data.bytes.length + 1 := by rw [shows.datlen, entry.fits]
    simp only [fetchFound, if_neg (by decide : ¬ ((0 : ℤ) < 0)), bind_bind,
      unlockRegion_bind, pure_eq_done, done_bind]
    apply safe_readdat shows.datoff datlen visible (reads.list.chain.stored member).data
    intro offsets
    apply reads.finish rfl _ looked
    exact { atChain with }

/-! ## `db_delete` -/

theorem safe_dbDelete (empty : hold.Empty) (good : db.Good) :
    DbSafe keys (.delete key) (dbDelete db key.bytes) (hold.moved offsets store) := by
  have ofCall : bucket (Call.delete key).key = bucket key := rfl
  apply safe_findAndLock empty good.1 good.2
  · intro entries hold offsets store other missing
    have atChain := missing.atChain
    have looked := lookup_eq_none missing.absent
    simp only [deleteFound, if_neg (by decide : ¬ ((-1 : ℤ) = 0)),
      unlockRegion_bind, pure_eq_done, done_bind]
    apply missing.works.finish ofCall
    · exact { atChain with }
    · intro later _
      split
      case isTrue same =>
        rw [same]
        exact looked
      case isFalse => rfl
    · simp only [Call.act, Call.key, looked, if_pos]
  · intro first entry second follower hold offsets store other found
    have apart := key_apart found.works.members.distinct
    simp only [deleteFound, if_pos, bind_bind, unlockRegion_bind, pure_eq_done, done_bind]
    apply safe_dodelete found
    intro hold offsets store after works atChain
    apply works.finish ofCall
    · exact { atChain with }
    · intro later _
      rw [lookup_without apart, found.sameKey]
      rfl
    · have looked := lookup_insert apart key
      rw [if_pos found.sameKey] at looked
      simp only [Call.act, Call.key, looked, reduceCtorEq, if_false]

/-! ## `db_store` -/

section Store

variable {call : Call} {flag : ℤ} {rest : DB × Answer → DbProgram (DB × Answer)}

/-- The rest of a call gives the chain back once the chain shows the effect
of the call. -/
def GivesBack (keys : Set CString) (call : Call)
    (rest : DB × Answer → DbProgram (DB × Answer)) : Prop :=
  ∀ {hold : DbHold} {offsets : DbFile → ℕ} {store : DbStore} {db : DB}
    {original entries : List Entry} {answer : Answer},
    Works keys (bucket call.key) original hold store entries ∅ →
    db.At (bucket call.key) →
    (∀ key, bucket key = bucket call.key →
      lookup entries key = if key = call.key then (call.act (lookup original call.key)).1
        else lookup original key) →
    (call.act (lookup original call.key)).2 = answer →
      DbSafe keys call (rest (db, answer)) (hold.moved offsets store)

theorem givesBack_unlock (keys : Set CString) (call : Call) :
    GivesBack keys call fun (db, answer) =>
      unlockRegion .idx (chainRegion db) >>= fun _ => pure (db, answer) :=
  fun works atChain effect answered =>
    works.finish rfl atChain effect answered

/-- The flags that `db_store` takes. -/
def ValidFlag (flag : ℤ) : Prop :=
  flag = dbInsertFlag ∨ flag = dbReplaceFlag ∨ flag = dbStoreFlag

theorem not_invalid (valid : ValidFlag flag) :
    ¬ (flag ≠ dbInsertFlag ∧ flag ≠ dbReplaceFlag ∧ flag ≠ dbStoreFlag) := by
  rintro ⟨notInsert, notReplace, notStore⟩
  rcases valid with same | same | same
  · exact notInsert same
  · exact notReplace same
  · exact notStore same

theorem act_store (valid : ValidFlag flag) (old : Option CString) :
    (Call.store key data flag).act old = if old = none ∧ flag = dbReplaceFlag then
        (old, .code (-1) (some .enoent))
      else if old ≠ none ∧ flag = dbInsertFlag then
        (old, .code 1 none)
      else
        (some data, .code 0 none) := by
  rw [Call.act, if_neg (not_invalid valid)]

theorem lookup_new {new : Entry} (sameKey : new.key = key)
    (sameData : new.data = data) (later : CString) :
    lookup (new :: entries) later = if later = key then some data else lookup entries later := by
  rw [lookup_cons, sameKey, sameData]
  simp only [eq_comm]

theorem lookup_kept (looked : lookup entries key = value) (later : CString) :
    lookup entries later = if later = key then value else lookup entries later := by
  split
  case isTrue same =>
    rw [same]
    exact looked
  case isFalse => rfl

theorem lookup_replaced (apart : ∀ later ∈ first ++ second, later.key ≠ entry.key)
    (sameData : data.bytes.length = entry.data.bytes.length) (later : CString) :
    lookup (first ++ entry.rewrite entry.key data rfl sameData :: second) later =
      if later = entry.key then some data
      else lookup (first ++ entry :: second) later := by
  have newApart : ∀ later ∈ first ++ second,
    later.key ≠ (entry.rewrite entry.key data rfl sameData).key := apart
  have new : lookup (first ++ entry.rewrite entry.key data rfl sameData :: second) later =
    if entry.key = later then some data
    else lookup (first ++ second) later := lookup_insert newApart later
  rw [new, lookup_insert apart]
  split
  case isTrue same => rw [if_pos same.symm]
  case isFalse different => rw [if_neg fun same => different same.symm]

section

variable (valid : ValidFlag flag) (known : key ∈ keys) (short : data.bytes.length + 1 ≤ datlenMax)
  (givesBack : GivesBack keys (.store key data flag) rest)

include valid known short givesBack

theorem safe_storeAbsent (missing : Missing keys key hold store db entries) :
    DbSafe keys (.store key data flag) (storeAbsent db key.bytes data.bytes flag >>= rest)
      (hold.moved offsets store) := by
  have looked := lookup_eq_none missing.absent
  have atChain := missing.atChain
  rw [storeAbsent]
  by_cases replace : flag = dbReplaceFlag
  · have refused : (Call.store key data flag).act none = (none, .code (-1) (some .enoent)) := by
      rw [act_store valid, if_pos ⟨rfl, replace⟩]
    rw [if_pos replace]
    apply givesBack missing.works
    · exact { atChain with }
    · intro later _
      simp only [Call.key, looked, refused]
      exact lookup_kept looked later
    · simp only [Call.key, looked, refused]
  · have accepted : (Call.store key data flag).act none = (some data, .code 0 none) := by
      rw [act_store valid, if_neg fun both => replace both.2, if_neg fun both => both.1 rfl]
    have insertable : Insertable keys (bucket key) key entries := ⟨rfl, known, missing.absent⟩
    have added : ∀ {hold : DbHold} {offsets : DbFile → ℕ} {store : DbStore} {db : DB} {new : Entry},
        new.key = key → new.data = data →
        Works keys (bucket key) entries hold store (new :: entries) ∅ →
        db.At (bucket key) → DbSafe keys (.store key data flag) (rest (db, .code 0 none))
          (hold.moved offsets store) := by
      intro hold offsets store db new sameKey sameData works atChain
      apply givesBack works atChain
      · intro later _
        simp only [Call.key, looked, accepted]
        exact lookup_new sameKey sameData later
      · simp only [Call.key, looked, accepted]
    obtain ⟨next, -, points⟩ := missing.works.exists_head
    have pointsIn : ∀ {met : DbStore}, Store.Same (chainLocs (bucket key) entries) store met →
        nextAt met (chainCell (bucket key)) = some next := by
      intro met same
      rw [nextAt, ← same.tile (.inl (.inl rfl))]
      exact points
    rw [if_neg replace, atChain.chainoff]
    simp only [bind_bind]
    apply safe_readptr (.inl missing.works.head_mem) points
    intro offsets
    apply safe_findfree missing.works atChain
    · intro hold offsets met other works same otherAt
      simp only [if_pos (by decide : (-1 : ℤ) < 0), bind_bind, pure_eq_done, done_bind]
      apply safe_appendRecord works otherAt (.inl rfl) insertable (pointsIn same) short
      intro hold offsets store after new sameKey sameData works afterAt
      apply added sameKey sameData works
      exact { afterAt with }
    · intro hold offsets met other entry follower reusable suits same
      simp only [if_neg (by decide : ¬ ((0 : ℤ) < 0)), bind_bind, pure_eq_done, done_bind]
      apply safe_reuse reusable suits insertable (pointsIn same)
      intro offsets store after new sameKey sameData works afterAt
      apply added sameKey sameData works
      exact { afterAt with }

theorem safe_storePresent {follower : Pointer}
    (found : Found keys key hold store db first entry second follower) :
    DbSafe keys (.store key data flag) (storePresent db key.bytes data.bytes flag >>= rest)
      (hold.moved offsets store) := by
  have apart := key_apart found.works.members.distinct
  have atChain := found.atChain
  have looked : lookup (first ++ entry :: second) key = some entry.data := by
    rw [lookup_insert apart, if_pos found.sameKey]
  rw [storePresent]
  by_cases insert : flag = dbInsertFlag
  · have refused : (Call.store key data flag).act (some entry.data) =
        (some entry.data, .code 1 none) := by
      rw [act_store valid, if_neg fun both => some_ne_none _ both.1,
        if_pos ⟨some_ne_none _, insert⟩]
    rw [if_pos insert]
    apply givesBack found.works
    · exact { atChain with }
    · intro later _
      simp only [Call.key, looked, refused]
      exact lookup_kept looked later
    · simp only [Call.key, looked, refused]
  · have accepted : (Call.store key data flag).act (some entry.data) =
        (some data, .code 0 none) := by
      rw [act_store valid, if_neg fun both => some_ne_none _ both.1,
        if_neg fun both => insert both.2]
    rw [if_neg insert]
    by_cases longer : data.bytes.length + 1 ≠ db.datlen
    · rw [if_pos longer]
      simp only [bind_bind, pure_eq_done, done_bind]
      apply safe_dodelete found
      intro hold offsets store other works otherAt
      obtain ⟨next, -, points⟩ := works.exists_head
      have insertable : Insertable keys (bucket key) key (first ++ second) := by
        refine ⟨rfl, known, ?_⟩
        rw [← found.sameKey]
        exact apart
      rw [otherAt.chainoff]
      apply safe_readptr (.inl works.head_mem) points
      intro offsets
      apply safe_appendRecord works otherAt (.inr insert) insertable points short
      intro hold offsets store after new sameKey sameData works afterAt
      apply givesBack works
      · exact { afterAt with }
      · intro later _
        simp only [Call.key, looked, accepted]
        rw [lookup_new sameKey sameData, lookup_without apart, found.sameKey]
        split
        · rfl
        · rfl
      · simp only [Call.key, looked, accepted]
    · have sameData : data.bytes.length = entry.data.bytes.length := by
        have fits := entry.fits
        have datlen := found.shows.datlen
        omega
      have member : entry ∈ first ++ entry :: second := mem_append_cons_self
      have ownData : .tile .dat entry.datoff ∈ hold.own := found.works.chainLocs_subset
        (.inl (dat_mem_listLocs.mpr (mem_map_of_mem member)))
      have works := found.works.setData sameData
      rw [if_neg longer, found.shows.datoff]
      simp only [bind_bind, pure_eq_done, done_bind]
      apply safe_writedat_seekSet ownData (found.works.list.chain.stored member).data sameData
      intro offsets
      apply givesBack works
      · exact { atChain with }
      · intro later _
        simp only [Call.key, looked, accepted]
        rw [lookup_replaced apart sameData, found.sameKey]
      · simp only [Call.key, looked, accepted]

end

theorem safe_dbStore (known : key ∈ keys) (empty : hold.Empty) (good : db.Good) :
    DbSafe keys (.store key data flag)
      (dbStore db key.bytes data.bytes flag) (hold.moved offsets store) := by
  rw [dbStore]
  by_cases invalid : flag ≠ dbInsertFlag ∧ flag ≠ dbReplaceFlag ∧ flag ≠ dbStoreFlag
  · rw [if_pos invalid]
    apply Safe.returns
    · exact { empty with }
    · exact good
    · intro old
      exact if_pos invalid
  · have valid : ValidFlag flag := by
      by_contra notValid
      obtain ⟨notInsert, rest⟩ := not_or.mp notValid
      obtain ⟨notReplace, notStore⟩ := not_or.mp rest
      exact invalid ⟨notInsert, notReplace, notStore⟩
    rw [if_neg invalid]
    by_cases badLength : data.bytes.length + 1 < datlenMin ∨ data.bytes.length + 1 > datlenMax
    · rw [failIf_bind_of _ badLength]
      apply Safe.stops fun _ _ _ _ => badLength
      refine .shared empty.own fun lock => ?_
      simp [Hold.moved, empty.held]
    · have short : data.bytes.length + 1 ≤ datlenMax := not_lt.mp (not_or.mp badLength).2
      rw [failIf_bind_of_not _ badLength]
      apply safe_findAndLock empty good.1 good.2
      · intro entries hold offsets store other missing
        exact safe_storeAbsent valid known short (givesBack_unlock keys _) missing
      · intro first entry second follower hold offsets store other found
        exact safe_storePresent valid known short (givesBack_unlock keys _) found

end Store

theorem safePrograms (keys : Set CString) : Service.SafePrograms (discipline keys) program := by
  intro call db hold known good empty
  cases call with
  | store key data flag => exact safe_dbStore known empty good
  | delete key => exact safe_dbDelete empty good
  | fetch key => exact safe_dbFetch empty good

end Skyc.Apue.Db
