import Skyc.Apue.Db.Opening

/-!
# One process

A process that creates a database and then stores, deletes and fetches sees
a finite map, whatever the order of its calls, until a call terminates it.
-/

namespace Skyc.Apue.Db

open Skyc.Lib Program List

/-- A key that can be told from the separators, from the end of a record and
from a deleted record. -/
structure ValidKey (key : CString) : Prop where
  nonempty : key.bytes ≠ []
  noSep : sep ∉ key.bytes
  noNewline : newline ∉ key.bytes
  notBlank : ∃ char ∈ key.bytes, char ≠ space

/-- The calls on valid keys, with 1 to 1023 characters of data and one of
the three flags. -/
def ValidCall : Call → Prop
  | .store key data flag =>
    ValidKey key ∧ 1 ≤ data.bytes.length ∧ data.bytes.length ≤ 1023 ∧ ValidFlag flag
  | .delete key => ValidKey key
  | .fetch key => ValidKey key

instance (key : CString) : Decidable (ValidKey key) :=
  decidable_of_iff (key.bytes ≠ [] ∧ sep ∉ key.bytes ∧ newline ∉ key.bytes ∧
    ∃ char ∈ key.bytes, char ≠ space) ⟨fun ⟨nonempty, noSep, noNewline, notBlank⟩ =>
      ⟨nonempty, noSep, noNewline, notBlank⟩,
    fun valid =>
      ⟨valid.nonempty, valid.noSep, valid.noNewline, valid.notBlank⟩⟩

instance (flag : ℤ) : Decidable (ValidFlag flag) :=
  inferInstanceAs (Decidable (_ ∨ _ ∨ _))

instance : DecidablePred ValidCall
  | .store _ _ _ => inferInstanceAs (Decidable (_ ∧ _ ∧ _ ∧ _))
  | .delete key => inferInstanceAs (Decidable (ValidKey key))
  | .fetch key => inferInstanceAs (Decidable (ValidKey key))

def ready : DbProgram DB × (DbFile → ℕ) × (DbFile → List UInt8) ×
      List (Grant Unit DbFile) → Option (DbService Unit)
  | (.done db, offsets, files, locks) => some ⟨files, locks, fun _ => ⟨offsets, db, .idle⟩, []⟩
  | _ => none

/-- `db_open` creates a database in two empty files. -/
def createDatabase : Option (DbService Unit) :=
  ((dbOpen true).solo () 5 (fun _ => []) [] (fun _ => 0)).bind ready

/-- A process creates a database and makes some calls, with `fuel` steps for
each of them. -/
def session (fuel : ℕ) (calls : List Call) : Option (DbService Unit) :=
  createDatabase.bind fun service =>
    service.serveAll program () fuel calls

theorem session_add {fuel : ℕ} {calls : List Call} {final : DbService Unit}
    (served : session fuel calls = some final) (more : ℕ) :
    session (fuel + more) calls = some final := by
  obtain ⟨service, created, serves⟩ := Option.bind_eq_some_iff.mp served
  rw [session, created]
  exact Service.serveAll_add serves more

theorem createDatabase_eq : createDatabase = some (freshService Unit) := by
  rw [createDatabase, solo_dbOpen_create, Option.bind_some]
  rfl

theorem ValidCall.validKey {call : Call} (valid : ValidCall call) : ValidKey call.key := by
  cases call with
  | store key data flag => exact valid.1
  | delete | fetch => exact valid

/-- The limits that terminate a call: the length of the index record for data
that has been written to the data file, and the size of the index file. -/
def Call.Exceeds : Call → DbError → (DbFile → List UInt8) → Prop
  | .store key data _, .writeidxInvalidLength, files =>
    ∃ datoff : ℕ, datoff + (data.bytes.length + 1) ≤ (files .dat).length ∧
      (recordText key.bytes datoff (data.bytes.length + 1)).length > idxlenMax
  | .store _ _ _, .writeptrInvalidPtr ptrval, _ => ptrval > ptrMax
  | _, _, _ => False

theorem idxlenMin_le_recordText {key : List UInt8} (nonempty : key ≠ []) (datoff datlen : ℕ) :
    idxlenMin ≤ (recordText key datoff datlen).length := by
  have keyLength := length_pos_of_ne_nil nonempty
  have datoffLength := length_pos_of_ne_nil (decimal_ne_nil datoff)
  have datlenLength := length_pos_of_ne_nil (decimal_ne_nil datlen)
  simp only [recordText, printInt_natCast, length_append, length_cons, length_nil, idxlenMin]
  omega

theorem exceeds_of_mayFail {call : Call} {failure : DbError} {files : DbFile → List UInt8}
    (valid : ValidCall call) (mayFail : call.MayFail {key | ValidKey key} failure files) :
    call.Exceeds failure files := by
  have readable : ¬ ∃ key ∈ {key | ValidKey key}, sep ∈ key.bytes := by
    rintro ⟨key, validKey, hasSep⟩
    exact validKey.noSep hasSep
  cases call with
  | store key data flag =>
    obtain ⟨validKey, longEnough, shortEnough, -⟩ := valid
    cases failure with
    | writeidxInvalidLength =>
      obtain ⟨datoff, written, outside⟩ := mayFail
      have long := idxlenMin_le_recordText validKey.nonempty datoff (data.bytes.length + 1)
      exact ⟨datoff, written, outside.resolve_left (Nat.not_lt.mpr long)⟩
    | storeInvalidDataLength =>
      have outside : data.bytes.length + 1 < datlenMin ∨
        data.bytes.length + 1 > datlenMax := mayFail
      simp only [datlenMin, datlenMax] at outside
      omega
    | readidxTooManySeparators => exact readable mayFail
    | _ => exact mayFail
  | delete | fetch =>
    cases failure with
    | readidxTooManySeparators => exact readable mayFail
    | _ => exact mayFail

/-- The database is a finite map: the calls that return give the answers of
the map, and only a limit of the record format terminates a call. -/
theorem session_answers_as_map (calls : List Call) (valid : ∀ call ∈ calls, ValidCall call) :
    ∃ fuel final answered, (∀ more, session (fuel + more) calls = some final) ∧
      final.history.map Completed.call = answered ∧
      final.history.map Completed.answer = database.answers (fun _ => none) answered ∧
      (answered = calls ∨ ∃ call rest failure, calls = answered ++ call :: rest ∧
        (final.thread ()).phase = .failed call failure ∧
        call.Exceeds failure final.files) := by
  have admitted : ∀ call ∈ calls, (discipline {key | ValidKey key}).admits call :=
    fun call member => (valid call member).validKey
  obtain ⟨fuel, final, served, explained, ends⟩ :=
    Service.exists_serveAll (safePrograms {key | ValidKey key})
      (freshService_sound {key | ValidKey key}) (fun _ => rfl)
      (rfl : ((freshService Unit).thread ()).phase = .idle) admitted
  refine ⟨fuel, final, final.history.map Completed.call, ?_, rfl, explained, ?_⟩
  · intro more
    rw [session, createDatabase_eq]
    exact served more
  · rcases ends with ⟨-, all⟩ | ⟨before, call, rest, failure, split, done, phase, tolerated⟩
    · exact Or.inl all
    · have member : call ∈ calls := by
        rw [split]
        exact mem_append_cons_self
      have answered : final.history.map Completed.call = before := done
      rw [answered]
      exact Or.inr ⟨call, rest, failure, split, phase,
        exceeds_of_mayFail (valid call member) tolerated⟩

private theorem noNul_k : (0 : UInt8) ∉ [107] := by decide

private theorem noNul_one : (0 : UInt8) ∉ [49] := by decide

private theorem noNul_two : (0 : UInt8) ∉ [50] := by decide

def fourCalls : List Call :=
  [.store ⟨[107], noNul_k⟩ ⟨[49], noNul_one⟩ dbInsertFlag,
    .store ⟨[107], noNul_k⟩ ⟨[50], noNul_two⟩ dbInsertFlag,
    .delete ⟨[107], noNul_k⟩, .fetch ⟨[107], noNul_k⟩]

theorem session_answers_as_map_fourCalls :
    (∀ call ∈ fourCalls, ValidCall call) ∧
      ∃ fuel final, (∀ more, session (fuel + more) fourCalls = some final) ∧
        final.history.map Completed.call = fourCalls ∧
        final.history.map Completed.answer = database.answers (fun _ => none) fourCalls := by
  refine ⟨by decide, ?_⟩
  obtain ⟨fuel, final, answered, ends, calls, answers, -⟩ :=
    session_answers_as_map fourCalls (by decide)
  have all : (session 40 fourCalls).map (·.history.map Completed.call) = some fourCalls := by
    decide +kernel
  obtain ⟨reached, served, returned⟩ := Option.map_eq_some_iff.mp all
  have same : some final = some reached := by
    rw [← ends 40, Nat.add_comm, session_add served]
  cases same
  rw [returned] at calls
  exact ⟨fuel, final, ends, returned, calls ▸ answers⟩

end Skyc.Apue.Db
