import Skyc.Apue.Db.Locks

/-!
# Reading and writing blocks

Each lemma takes the rest of the call as a continuation: the whole is safe if the
rest is safe with the fields that were read, or in the store that was written.
-/

namespace Skyc.Apue.Db

open Skyc.Lib Program Function List Set Safe Block

abbrev DbHold := Hold DbFile Block CString (Option CString) DbLock

abbrev DbSafe (keys : Set CString) (call : Call)
    (program : DbProgram (DB × Answer)) (hold : DbHold) : Prop :=
  Safe (discipline keys) call program hold

/-- A process that may be terminated wherever its files stand. -/
abbrev DbDroppable (keys : Set CString) (hold : DbHold) (store : DbStore) : Prop :=
  ∀ offsets, Droppable (discipline keys) (hold.moved offsets store)

variable {keys : Set CString} {call : Call} {hold : DbHold} {db : DB}
  {offsets : DbFile → ℕ} {store : DbStore} {offset : ℕ}

theorem natCast_ne_neg_one (number : ℕ) : ¬ ((number : ℤ) = -1) := by
  omega

theorem position_after_seek (offsets : DbFile → ℕ) (file : DbFile) (offset : ℕ) :
    update offsets file offset file = offset + 0 := update_self ..

theorem pointer_in_range (next : Pointer) :
    ¬ (((next : ℕ) : ℤ) < 0 ∨ ((next : ℕ) : ℤ) > ptrMax) := by
  have below := next.isLt
  omega

theorem length_in_range (record : IndexRecord) :
    ¬ (record.text.length < idxlenMin ∨ record.text.length > idxlenMax) := by
  have above : idxlenMin ≤ record.text.length := record.len_ge
  have below := record.length_text_le
  omega

theorem encode_discipline (block : Block) : (discipline keys).encode block = block.encode := rfl

/-! ## Pointers -/

variable {next : Pointer} {record : IndexRecord} {rest : DB → DbProgram (DB × Answer)}
  {data : CString} {file : DbFile} {taken : Set DbLoc}

theorem safe_readptr {rest : ℤ → DbProgram (DB × Answer)}
    (visible : .tile .idx offset ∈ hold.visible) (points : nextAt store offset = some next)
    (continues : ∀ offsets, DbSafe keys call (rest (next : ℕ)) (hold.moved offsets store)) :
    DbSafe keys call (readptr offset >>= rest) (hold.moved offsets store) := by
  obtain ⟨block, found, points⟩ := Option.bind_eq_some_iff.mp points
  simp only [readptr, perform_bind, system_bind, bind_bind, pure_eq_done, done_bind]
  apply seekSet
  rw [failIf_bind_of_not _ (natCast_ne_neg_one offset)]
  have inside : 0 + ptrSz ≤ block.encode.length := by
    rw [zero_add]
    exact ptrSz_le_length_encode points
  apply read visible found (position_after_seek ..) inside
  have bytes : readAt ((discipline keys).encode block) 0 ptrSz =
    ptrField next := readAt_ptrField points
  have complete : ¬ ((ptrField next).length ≠ ptrSz) := not_not.mpr (length_ptrField next)
  rw [bytes, failIf_bind_of_not _ complete, atol_ptrField]
  exact continues _

theorem safe_writeptr {block : Block} {old : Pointer} {rest : Unit → DbProgram (DB × Answer)}
    (own : .tile .idx offset ∈ hold.own) (found : store.tile .idx offset = some block)
    (points : block.next = some old) (continues : ∀ offsets, DbSafe keys call (rest ())
      (hold.moved offsets (store.setTile .idx offset (block.setNext next)))) :
    DbSafe keys call (writeptr offset (next : ℕ) >>= rest) (hold.moved offsets store) := by
  have field : padLeft ptrSz (printInt (next : ℕ)) = ptrField next := by
    rfl
  simp only [writeptr, perform_bind, system_bind, bind_bind]
  rw [failIf_bind_of_not _ (pointer_in_range next)]
  apply seekSet
  rw [failIf_bind_of_not _ (natCast_ne_neg_one offset), field]
  have inside : 0 + (ptrField next).length ≤ block.encode.length := by
    rw [zero_add, length_ptrField]
    exact ptrSz_le_length_encode points
  have written := (writeAt_ptrField points next).symm
  apply write own found (position_after_seek ..) inside written
  rw [failIf_bind_of_not _ (not_not.mpr (length_ptrField next))]
  exact continues _

/-! ## Index records -/

def DB.withRecord (db : DB) (offset : ℕ) (next : Pointer) (record : IndexRecord) : DB :=
  { db with
    idxbuf := record.key.bytes
    idxoff := offset
    idxlen := record.text.length
    datoff := record.datoff
    datlen := record.datlen
    ptrval := (next : ℕ) }

theorem safe_readidx
    {rest : DB × ℤ → DbProgram (DB × Answer)} (visible : .tile .idx offset ∈ hold.visible)
    (found : store.tile .idx offset = some (.index next record)) (positive : offset ≠ 0)
    (unreadable : sep ∈ record.key.bytes →
      (∀ files, call.MayFail keys .readidxTooManySeparators files) ∧
        DbDroppable keys hold store) (continues : ∀ offsets,
      DbSafe keys call (rest (db.withRecord offset next record, (next : ℕ)))
        (hold.moved offsets store)) :
    DbSafe keys call (readidx db offset >>= rest) (hold.moved offsets store) := by
  have nonzero : ¬ ((offset : ℤ) = 0) := by omega
  simp only [readidx, if_neg nonzero, perform_bind, system_bind, bind_bind]
  apply seekSet
  rw [failIf_bind_of_not _ (natCast_ne_neg_one offset)]
  have encodeLength := length_encode_index next record
  have headInside : 0 + (ptrSz + idxlenSz) ≤ (encode (.index next record)).length := by omega
  apply read visible found (position_after_seek ..) headInside
  have headBytes : readAt ((discipline keys).encode (.index next record)) 0
    (ptrSz + idxlenSz) = ptrField next ++ record.lenField := readAt_index_head next record
  have headComplete : ¬ ((ptrField next ++ record.lenField).length ≠ ptrSz + idxlenSz) := by
    rw [length_append, length_ptrField, record.length_lenField]
    exact not_not.mpr rfl
  rw [headBytes, if_neg headComplete]
  simp only [take_left' (length_ptrField next),
    drop_left' (length_ptrField next), atol_ptrField, sizeT_lenField, bind_bind, system_bind]
  rw [failIf_bind_of_not _ (length_in_range record)]
  have textInside : ptrSz + idxlenSz + record.text.length ≤
      (encode (.index next record)).length := by
    omega
  apply read visible found (update_self ..) textInside
  have textBytes : readAt ((discipline keys).encode (.index next record))
    (ptrSz + idxlenSz) record.text.length = record.text := readAt_index_text next record
  have newlineLast : ¬ (record.text.getLast? ≠ some newline) := by
    rw [text_eq, getLast?_concat]
    exact not_not.mpr rfl
  rw [zero_add, textBytes, failIf_bind_of_not _ (not_not.mpr rfl), failIf_bind_of_not _ newlineLast]
  by_cases hasSep : sep ∈ record.key.bytes
  · rw [splitRecord_text_of_sep hasSep]
    obtain ⟨tolerated, droppable⟩ := unreadable hasSep
    exact stops (fun files _ _ _ => tolerated files) (droppable _)
  · rw [splitRecord_text hasSep]
    exact continues _

theorem text_of_fields (sameOffset : db.datoff = record.datoff)
    (sameLength : db.datlen = record.datlen) :
    recordText record.key.bytes db.datoff db.datlen = record.text := by
  rw [sameOffset, sameLength]
  rfl

theorem encode_index_eq (next : Pointer) (record : IndexRecord) :
    padLeft ptrSz (printInt (next : ℕ)) ++
        padLeft idxlenSz (decimal record.text.length) ++ record.text =
      Block.encode (.index next record) := by
  rw [printInt_natCast, append_assoc]
  rfl

theorem safe_writeidx_seekSet {old : Pointer} {oldRecord : IndexRecord}
    (own : .tile .idx offset ∈ hold.own)
    (found : store.tile .idx offset = some (.index old oldRecord))
    (sameText : record.text.length = oldRecord.text.length) (sameOffset : db.datoff = record.datoff)
    (sameLength : db.datlen = record.datlen) (continues : ∀ offsets, DbSafe keys call
      (rest { db with
        ptrval := (next : ℕ), idxbuf := record.text, idxoff := offset })
      (hold.moved offsets (store.setTile .idx offset (.index next record)))) :
    DbSafe keys call (writeidx db record.key.bytes offset .seekSet (next : ℕ) >>= rest)
      (hold.moved offsets store) := by
  have notEnd : ¬ (Whence.seekSet = Whence.seekEnd) := by decide
  simp only [writeidx, text_of_fields sameOffset sameLength,
    encode_index_eq, bind_bind, perform_bind, system_bind, pure_eq_done, done_bind]
  rw [failIf_bind_of_not _ (pointer_in_range next), failIf_bind_of_not _ (length_in_range record),
    onlyIf_bind_of_not _ _ notEnd]
  apply seekSet
  rw [failIf_bind_of_not _ (natCast_ne_neg_one offset)]
  have newLength := length_encode_index next record
  have oldLength := length_encode_index old oldRecord
  have keepsLength : (encode (.index next record)).length =
      (encode (.index old oldRecord)).length := by
    omega
  apply overwrite (.index next record) own found (update_self ..) rfl keepsLength
  rw [encode_discipline, failIf_bind_of_not _ (not_not.mpr newLength),
    onlyIf_bind_of_not _ _ notEnd]
  exact continues _

/-! ## Data records -/

theorem safe_readdat {datoff : ℕ}
    (sameOffset : db.datoff = datoff) (sameLength : db.datlen = data.bytes.length + 1)
    (visible : .tile .dat datoff ∈ hold.visible)
    (found : store.tile .dat datoff = some (.data data)) (continues : ∀ offsets,
      DbSafe keys call (rest { db with datbuf := data.bytes }) (hold.moved offsets store)) :
    DbSafe keys call (readdat db >>= rest) (hold.moved offsets store) := by
  simp only [readdat, sameOffset, sameLength, perform_bind, system_bind,
    bind_bind, pure_eq_done, done_bind]
  apply seekSet
  rw [failIf_bind_of_not _ (natCast_ne_neg_one datoff)]
  have inside : 0 + (data.bytes.length + 1) ≤ (encode (.data data)).length := by
    rw [length_encode_data, zero_add]
  apply read visible found (position_after_seek ..) inside
  have bytes : readAt ((discipline keys).encode (.data data)) 0
      (data.bytes.length + 1) = data.bytes ++ [newline] := by
    rw [encode_discipline, readAt, drop_zero, ← length_encode_data, take_length]
    rfl
  have complete : ¬ ((data.bytes ++ [newline]).length ≠ data.bytes.length + 1) := by simp
  have newlineLast : ¬ ((data.bytes ++ [newline]).getLast? ≠ some newline) := by simp
  rw [bytes, failIf_bind_of_not _ complete, failIf_bind_of_not _ newlineLast, dropLast_concat,
    cString_of_notMem data.noNul]
  have continues := continues (update (update offsets .dat datoff) .dat
    (datoff + (0 + (data.bytes.length + 1))))
  rw [sameOffset, sameLength] at continues
  exact continues

theorem safe_writedat_seekSet {old : CString} {datoff : ℕ} (own : .tile .dat datoff ∈ hold.own)
    (found : store.tile .dat datoff = some (.data old))
    (sameLength : data.bytes.length = old.bytes.length) (continues : ∀ offsets, DbSafe keys call
      (rest { db with datoff, datlen := data.bytes.length + 1 })
      (hold.moved offsets (store.setTile .dat datoff (.data data)))) :
    DbSafe keys call (writedat db data.bytes datoff .seekSet >>= rest)
      (hold.moved offsets store) := by
  have notEnd : ¬ (Whence.seekSet = Whence.seekEnd) := by decide
  simp only [writedat, bind_bind, perform_bind, system_bind, pure_eq_done, done_bind]
  rw [onlyIf_bind_of_not _ _ notEnd]
  apply seekSet
  rw [failIf_bind_of_not _ (natCast_ne_neg_one datoff)]
  have keepsLength : (encode (.data data)).length = (encode (.data old)).length := by
    rw [length_encode_data, length_encode_data, sameLength]
  apply overwrite (.data data) own found (update_self ..) rfl keepsLength
  rw [encode_discipline, failIf_bind_of_not _ (not_not.mpr (length_encode_data data)),
    onlyIf_bind_of_not _ _ notEnd]
  exact continues _

/-! ## The ends of the files -/

def appended (store : DbStore) (file : DbFile) (block : Block) : DbStore :=
  (store.setTile file (store.size file) block).setSize file (store.size file + block.encode.length)

/-- What the lock on the end of a file gets back after an append. -/
def behind (taken : Set DbLoc) (file : DbFile) (offset : ℕ) : Set DbLoc :=
  {loc | loc ∈ taken ∧ loc ≠ .tile file offset}

theorem appended_sameAt {loc : DbLoc} (block : Block)
    (notTile : loc ≠ .tile file (store.size file)) (notSize : loc ≠ .size file) :
    (appended store file block).SameAt store loc := (Store.setSize_sameAt _ _ notSize).trans
    (Store.setTile_sameAt store block notTile)

theorem tile_appended_self (file : DbFile) (block : Block) :
    (appended store file block).tile file (store.size file) = some block := by
  exact Store.tile_setTile_self ..

theorem size_appended (file : DbFile) (block : Block) :
    (appended store file block).size file = store.size file + block.encode.length :=
  Store.size_setSize_self ..

theorem EndInvariant.appended (ends : EndInvariant file taken store) (block : Block) :
    EndInvariant file (behind taken file (store.size file)) (appended store file block) where
  size := ⟨ends.size, by simp⟩
  beyond := by
    intro offset beyond
    have positive := length_pos_of_ne_nil block.encode_ne_nil
    rw [size_appended] at beyond
    have further : store.size file < offset := by omega
    refine ⟨ends.beyond offset further.le, ?_⟩
    intro same
    cases same
    exact lt_irrefl _ further

theorem DataInvariant.appended (invariant : DataInvariant taken store) (block : Block) :
    DataInvariant (behind taken .dat (store.size .dat)) (appended store .dat block) where
  ends := invariant.ends.appended block
  only := fun offset member => invariant.only offset member.1

theorem RecordsInvariant.appended (records : RecordsInvariant taken store) (block : Block) :
    RecordsInvariant (behind taken .idx (store.size .idx)) (appended store .idx block) := by
  have start := records.start
  have tileElsewhere : ∀ offset, offset ≠ store.size .idx →
      (Db.appended store .idx block).tile .idx offset = store.tile .idx offset := by
    intro offset apart
    have notTile : (Loc.tile .idx offset : DbLoc) ≠ .tile .idx (store.size .idx) :=
      fun same => apart (Loc.tile.inj same).2
    exact appended_sameAt block notTile (by simp)
  have newlineElsewhere : recordsStart - 1 ≠ store.size .idx := by
    simp only [recordsStart] at start ⊢
    omega
  refine ⟨records.ends.appended block, ?_, ⟨⟨records.newline.1, ?_⟩, ?_⟩, ?_⟩
  · rw [size_appended]
    omega
  · exact fun same => newlineElsewhere (Loc.tile.inj same).2
  · rw [tileElsewhere _ newlineElsewhere]
    exact records.newline.2
  · intro offset member
    have elsewhere : offset ≠ store.size .idx := by
      intro same
      subst same
      exact member.2 rfl
    rw [tileElsewhere offset elsewhere]
    exact records.only offset member.1

theorem give_behind {lock : DbLock}
    (unheld : hold.held lock = none) (disjoint : Disjoint hold.own taken)
    (member : .tile file offset ∈ taken) :
    (hold.acquire lock taken).give lock (behind taken file offset) =
      hold.gain (.tile file offset) := hold.give_acquire unheld disjoint member

theorem Same.appended {found : DbStore}
    (ends : EndInvariant file taken found) (disjoint : Disjoint hold.own taken)
    (same : Store.Same hold.visible store found) (block : Block) :
    Store.Same hold.own store (appended found file block) := by
  intro loc own
  have foreign : loc ∉ taken := disjoint_left.mp disjoint own
  have notTile : loc ≠ .tile file (found.size file) := by
    intro here
    subst here
    exact foreign (ends.beyond _ (le_refl _))
  have notSize : loc ≠ .size file := by
    intro here
    subst here
    exact foreign ends.size
  exact (same loc (.inl own)).trans (appended_sameAt block notTile notSize).symm

theorem safe_writedat_seekEnd
    (unheld : hold.held .data = none) (continues : ∀ (datoff : ℕ) offsets found,
      .tile .dat datoff ∉ hold.own →
      Store.Same hold.own store found →
      found.tile .dat datoff = some (.data data) →
        DbSafe keys call (rest { db with datoff, datlen := data.bytes.length + 1 })
          ((hold.gain (.tile .dat datoff)).moved offsets found)) :
    DbSafe keys call (writedat db data.bytes 0 .seekEnd >>= rest) (hold.moved offsets store) := by
  simp only [writedat, bind_bind, perform_bind, system_bind, pure_eq_done, done_bind]
  rw [onlyIf_bind_of _ _ trivial, lockRegion_bind]
  apply takeLock DbLock.data rfl rfl unheld
  intro taken found disjoint same invariant
  have invariant : DataInvariant taken found := invariant
  have ends := invariant.ends
  have member := ends.beyond _ (le_refl _)
  have ownSize := hold.mem_own_acquire DbLock.data ends.size
  have ownTile := hold.mem_own_acquire DbLock.data member
  apply seekEnd (.inl ownSize)
  rw [failIf_bind_of_not _ (natCast_ne_neg_one _)]
  apply append (.data data) ownSize ownTile (update_self ..) rfl
  rw [encode_discipline, failIf_bind_of_not _ (not_not.mpr (length_encode_data data)),
    onlyIf_bind_of _ _ trivial, unlockRegion_bind]
  apply releaseLock DbLock.data rfl rfl (hold.held_acquire_self DbLock.data taken)
    (fun loc member => .inr member.1) (invariant.appended (.data data))
  rw [give_behind unheld disjoint member]
  apply continues
  · exact fun own => disjoint_left.mp disjoint own member
  · exact Same.appended ends disjoint same (.data data)
  · exact tile_appended_self .dat (.data data)

theorem safe_writeidx_seekEnd (geometry : db.nhash = nhashDef)
    (sameOffset : db.datoff = record.datoff) (sameLength : db.datlen = record.datlen)
    (unheld : hold.held .records = none) (continues : ∀ (idxoff : ℕ) offsets found,
      recordsStart ≤ idxoff →
      .tile .idx idxoff ∉ hold.own →
      Store.Same hold.own store found →
      found.tile .idx idxoff = some (.index next record) → DbSafe keys call (rest { db with
            ptrval := (next : ℕ), idxbuf := record.text, idxoff })
          ((hold.gain (.tile .idx idxoff)).moved offsets found)) :
    DbSafe keys call (writeidx db record.key.bytes 0 .seekEnd (next : ℕ) >>= rest)
      (hold.moved offsets store) := by
  have atRegion : (discipline keys).region .records = recordsRegion db := by
    rw [recordsRegion, geometry]
    rfl
  simp only [writeidx, text_of_fields sameOffset sameLength,
    encode_index_eq, bind_bind, perform_bind, system_bind, pure_eq_done, done_bind]
  rw [failIf_bind_of_not _ (pointer_in_range next), failIf_bind_of_not _ (length_in_range record),
    onlyIf_bind_of _ _ trivial, lockRegion_bind]
  apply takeLock DbLock.records rfl atRegion unheld
  intro taken found disjoint same records
  have records : RecordsInvariant taken found := records
  have ends := records.ends
  have member := ends.beyond _ (le_refl _)
  have ownSize := hold.mem_own_acquire DbLock.records ends.size
  have ownTile := hold.mem_own_acquire DbLock.records member
  apply seekEnd (.inl ownSize)
  rw [failIf_bind_of_not _ (natCast_ne_neg_one _)]
  apply append (.index next record) ownSize ownTile (update_self ..) rfl
  rw [encode_discipline, failIf_bind_of_not _ (not_not.mpr (length_encode_index next record)),
    onlyIf_bind_of _ _ trivial, unlockRegion_bind]
  apply releaseLock DbLock.records rfl atRegion (hold.held_acquire_self DbLock.records taken)
    (fun loc member => .inr member.1) (records.appended (.index next record))
  rw [give_behind unheld disjoint member]
  apply continues
  · exact records.start
  · exact fun own => disjoint_left.mp disjoint own member
  · exact Same.appended ends disjoint same (.index next record)
  · exact tile_appended_self .idx (.index next record)

end Skyc.Apue.Db
