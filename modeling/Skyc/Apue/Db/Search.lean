import Skyc.Apue.Db.Primitives

/-!
# Following a list

`_db_find_and_lock` follows a hash chain until it finds its key, and
`_db_findfree` follows the free list until it finds a record of the right
lengths.  Both remember the cell in front of the record where they stop.
-/

namespace Skyc.Apue.Db

open Skyc.Lib Program List

/-! ## The handle -/

/-- The fields that say where the chains are. -/
structure DB.SameTable (db other : DB) : Prop where
  nhash : other.nhash = db.nhash
  hashoff : other.hashoff = db.hashoff
  chainoff : other.chainoff = db.chainoff

theorem DB.SameTable.refl (db : DB) : db.SameTable db := ⟨rfl, rfl, rfl⟩

theorem DB.SameTable.trans {first second third : DB}
    (left : first.SameTable second) (right : second.SameTable third) :
    first.SameTable third := ⟨right.nhash.trans left.nhash, right.hashoff.trans left.hashoff,
    right.chainoff.trans left.chainoff⟩

structure DB.Shows (db : DB) (offset : ℕ) (next : Pointer) (record : IndexRecord) : Prop where
  idxbuf : db.idxbuf = record.key.bytes
  idxoff : db.idxoff = offset
  datoff : db.datoff = record.datoff
  datlen : db.datlen = record.datlen
  ptrval : db.ptrval = (next : ℕ)

theorem DB.withRecord_shows (db : DB) (offset : ℕ) (next : Pointer) (record : IndexRecord) :
    (db.withRecord offset next record).Shows offset next record := ⟨rfl, rfl, rfl, rfl, rfl⟩

theorem DB.withRecord_sameTable (db : DB) (offset : ℕ) (next : Pointer) (record : IndexRecord) :
    db.SameTable (db.withRecord offset next record) := ⟨rfl, rfl, rfl⟩

variable {keys : Set CString} {call : Call} {hold : DbHold} {db : DB}
  {offsets : DbFile → ℕ} {store : DbStore} {cell offset : ℕ} {entries : List Entry}

theorem mayFail_separators {key : CString} (known : key ∈ keys) (hasSep : sep ∈ key.bytes) :
    ∀ files, call.MayFail keys .readidxTooManySeparators files := by
  intro files
  cases call with
  | store | delete | fetch => exact ⟨key, known, hasSep⟩

/-! ## The loop of `_db_find_and_lock` -/

/-- The search stops at the end of the chain or at the first entry with the key. -/
theorem safe_chainLoop {key : CString} {next : Pointer} {rest : DB × ℤ → DbProgram (DB × Answer)}
    (points : nextAt store cell = some next) (chain : Chain store cell entries)
    (visible : ∀ entry ∈ entries, .tile .idx entry.offset ∈ hold.visible)
    (known : ∀ entry ∈ entries, entry.key ∈ keys) (droppable : DbDroppable keys hold store)
    (atCell : db.ptroff = cell) (absent : (∀ entry ∈ entries, entry.key ≠ key) →
      ∀ offsets other, db.SameTable other →
        DbSafe keys call (rest (other, 0)) (hold.moved offsets store))
    (present : ∀ first entry second follower, entries = first ++ entry :: second → entry.key = key →
      store.tile .idx entry.offset = some (.index follower entry.record) →
      ∀ offsets other, db.SameTable other → other.Shows entry.offset follower entry.record →
        other.ptroff = lastCell cell first →
          DbSafe keys call (rest (other, entry.offset)) (hold.moved offsets store)) :
    DbSafe keys call (.loop (chainStep key.bytes) (db, ((next : ℕ) : ℤ)) rest)
      (hold.moved offsets store) := by
  induction entries generalizing cell next db offsets with
  | nil =>
    obtain ⟨again, pointsAgain, target⟩ := chain
    rw [points] at pointsAgain
    cases pointsAgain
    rw [target]
    apply Safe.loop
    exact absent (by simp) offsets db (.refl db)
  | cons entry remaining ih =>
    obtain ⟨⟨again, pointsAgain, target⟩, positive, stored, chain⟩ := chain
    rw [points] at pointsAgain
    cases pointsAgain
    obtain ⟨follower, index⟩ := stored.index
    have nonzero : ¬ ((entry.offset : ℤ) = 0) := by omega
    rw [target]
    apply Safe.loop
    simp only [unroll, chainStep, if_neg nonzero, bind_bind]
    apply safe_readidx (visible entry mem_cons_self) index positive
    · exact fun hasSep =>
        ⟨mayFail_separators (known entry mem_cons_self) hasSep, droppable⟩
    · intro offsets
      by_cases same : entry.key = key
      · have sameBytes : (db.withRecord entry.offset follower entry.record).idxbuf =
          key.bytes := congrArg CString.bytes same
        simp only [if_pos sameBytes, pure_eq_done, done_bind, Sum.elim_inr]
        exact present [] entry remaining follower rfl same index offsets
          _ (db.withRecord_sameTable ..) (db.withRecord_shows ..) atCell
      · have otherBytes : ¬ ((db.withRecord entry.offset follower
          entry.record).idxbuf = key.bytes) := fun equal => same (CString.ext equal)
        simp only [if_neg otherBytes, pure_eq_done, done_bind, Sum.elim_inl]
        have table : db.SameTable
            { db.withRecord entry.offset follower entry.record with
              ptroff := entry.offset } :=
          ⟨rfl, rfl, rfl⟩
        apply ih _ chain
        · exact (forall_mem_cons.mp visible).2
        · exact (forall_mem_cons.mp known).2
        · rfl
        · intro apart offsets other sameTable
          apply absent _ offsets other (table.trans sameTable)
          exact forall_mem_cons.mpr ⟨same, apart⟩
        · intro first found second after split sameKey index offsets other sameTable
          apply present (entry :: first) found second after _ sameKey
            index offsets other (table.trans sameTable)
          rw [split, cons_append]
        · rw [nextAt, index]
          rfl

/-! ## The loop of `_db_findfree` -/

/-- A free record that `_db_findfree` takes. -/
def Entry.Matches (entry : Entry) (keylen datlen : ℕ) : Prop :=
  entry.key.bytes.length = keylen ∧ entry.record.datlen = datlen

/-- The search stops at the end of the free list or at the first record of the right lengths. -/
theorem safe_freeLoop {keylen datlen : ℕ} {next : Pointer}
    {rest : DB × ℤ × ℤ → DbProgram (DB × Answer)} (points : nextAt store cell = some next)
    (chain : Chain store cell entries) (visible : ∀ entry ∈ entries,
      .tile .idx entry.offset ∈ hold.visible) (readable : ∀ entry ∈ entries, sep ∉ entry.key.bytes)
    (absent : ∀ offsets other saveoffset, db.SameTable other →
      DbSafe keys call (rest (other, saveoffset, 0)) (hold.moved offsets store))
    (present : ∀ first entry second follower,
      entries = first ++ entry :: second → entry.Matches keylen datlen →
      store.tile .idx entry.offset = some (.index follower entry.record) →
      ∀ offsets other, db.SameTable other → other.Shows entry.offset follower entry.record →
        DbSafe keys call (rest (other, ((lastCell cell first : ℕ) : ℤ), entry.offset))
          (hold.moved offsets store)) :
    DbSafe keys call (.loop (freeStep keylen datlen) (db, (cell : ℤ), ((next : ℕ) : ℤ)) rest)
      (hold.moved offsets store) := by
  induction entries generalizing cell next db offsets with
  | nil =>
    obtain ⟨again, pointsAgain, target⟩ := chain
    rw [points] at pointsAgain
    cases pointsAgain
    rw [target]
    apply Safe.loop
    exact absent offsets db cell (.refl db)
  | cons entry remaining ih =>
    obtain ⟨⟨again, pointsAgain, target⟩, positive, stored, chain⟩ := chain
    rw [points] at pointsAgain
    cases pointsAgain
    obtain ⟨follower, index⟩ := stored.index
    have nonzero : ¬ ((entry.offset : ℤ) = 0) := by omega
    rw [target]
    apply Safe.loop
    simp only [unroll, freeStep, if_neg nonzero, bind_bind]
    apply safe_readidx (visible entry mem_cons_self) index positive
    · exact fun hasSep =>
        absurd hasSep (readable entry mem_cons_self)
    · intro offsets
      by_cases suits : entry.Matches keylen datlen
      · have lengths : (db.withRecord entry.offset follower entry.record).idxbuf.length = keylen ∧
          (db.withRecord entry.offset follower entry.record).datlen = datlen := suits
        simp only [if_pos lengths, pure_eq_done, done_bind, Sum.elim_inr]
        exact present [] entry remaining follower rfl suits index offsets
          _ (db.withRecord_sameTable ..) (db.withRecord_shows ..)
      · have lengths : ¬ ((db.withRecord entry.offset follower
                entry.record).idxbuf.length = keylen ∧
              (db.withRecord entry.offset follower entry.record).datlen = datlen) := suits
        simp only [if_neg lengths, pure_eq_done, done_bind, Sum.elim_inl]
        have table := db.withRecord_sameTable entry.offset follower entry.record
        apply ih _ chain
        · exact (forall_mem_cons.mp visible).2
        · exact (forall_mem_cons.mp readable).2
        · exact fun offsets other saveoffset sameTable =>
            absent offsets other saveoffset (table.trans sameTable)
        · intro first found second after split suits index offsets other sameTable
          apply present (entry :: first) found second after _ suits
            index offsets other (table.trans sameTable)
          rw [split, cons_append]
        · rw [nextAt, index]
          rfl

end Skyc.Apue.Db
