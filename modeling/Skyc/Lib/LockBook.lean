import Skyc.Lib.Discipline

/-!
# The lock table of a discipline

`LockBook` ties the locks that the processes hold to the table of record
locks: the first byte of the range of a lock tells who holds it, and a grant
is always a part of the range of a held lock.
-/

namespace Skyc.Lib

open Function List Grant

variable {Process File Failure Tile Key Value Lock Call Handle Answer : Type}
  (rules : Discipline File Failure Tile Key Value Lock Call Handle Answer)

/-- The processes hold the locks that the table says, and nothing else is in
the table. -/
structure LockBook (locks : List (Grant Process File))
    (held : Process → Lock → Option LockMode) : Prop where
  table : ∀ process lock mode, held process lock = some mode ↔
    Grant.Held locks process (rules.file lock) mode (rules.region lock).start
  grants : ∀ grant ∈ locks, ∃ lock, held grant.process lock ≠ none ∧ grant.file = rules.file lock ∧
    ∀ byte, grant.region.Covers byte → (rules.region lock).Covers byte
  excludes : ∀ {process other lock}, held process lock = some .exclusive → held other lock ≠ none →
    other = process

namespace LockBook

variable {rules} {locks : List (Grant Process File)} {held : Process → Lock → Option LockMode}
  {process : Process} {lock : Lock} {mode : LockMode}

variable (rules) in
theorem covers_start_iff (lock other : Lock) :
    (rules.file other = rules.file lock ∧ (rules.region lock).Covers (rules.region other).start) ↔
      other = lock := by
  constructor
  · rintro ⟨sameFile, covers⟩
    exact rules.separate sameFile covers
  · rintro rfl
    exact ⟨rfl, rules.covers_start other⟩

variable (book : LockBook rules locks held)

include book in
theorem shared_of_grantable (grantable :
      Grant.Grantable locks process (rules.file lock) mode (rules.region lock))
    {other : Process} {otherMode : LockMode} (apart : other ≠ process)
    (holds : held other lock = some otherMode) :
    otherMode = .shared ∧ mode = .shared := grantable.shared ((book.table _ _ _).mp holds) apart
    (rules.covers_start lock)

include book in
theorem ne_of_mem (without : ∀ lock, held process lock = none) {grant : Grant Process File}
    (member : grant ∈ locks) : grant.process ≠ process := by
  rintro rfl
  obtain ⟨lock, holds, -⟩ := book.grants grant member
  exact holds (without lock)

variable [DecidableEq Process] [DecidableEq File] [DecidableEq Lock]

omit [DecidableEq File] in
theorem held_elsewhere (held : Process → Lock → Option LockMode)
    {process other : Process} {lock place : Lock} (value : Option LockMode)
    (elsewhere : ¬ (other = process ∧ place = lock)) :
    update held process (update (held process) lock value) other place = held other place := by
  rcases eq_or_ne other process with rfl | apart
  · rw [update_self, update_of_ne]
    exact fun same => elsewhere ⟨rfl, same⟩
  · rw [update_of_ne apart]

include book in
theorem acquire (unheld : held process lock = none) (grantable :
      Grant.Grantable locks process (rules.file lock) mode (rules.region lock)) :
    LockBook rules (Grant.acquire locks process (rules.file lock) mode
      (rules.region lock)) (update held process
      (update (held process) lock (some mode))) := by
  constructor
  · intro other place placeMode
    rw [held_acquire, ← book.table]
    by_cases here : other = process ∧ place = lock
    · obtain ⟨rfl, rfl⟩ := here
      have covers := rules.covers_start place
      simp [covers, eq_comm]
    · have elsewhere : ¬ (other = process ∧ rules.file place = rules.file lock ∧
          (rules.region lock).Covers (rules.region place).start) := by
        rw [covers_start_iff]
        exact here
      rw [held_elsewhere held _ here]
      tauto
  · intro grant member
    rcases mem_cons.mp member with rfl | member
    · exact ⟨lock, by simp, rfl, fun _ covers => covers⟩
    · obtain ⟨source, sourceMember, sameProcess, sameFile, inside, -⟩ :=
        exists_of_mem_release member
      obtain ⟨place, holds, file, within⟩ := book.grants source sourceMember
      refine ⟨place, ?_, sameFile.trans file, fun byte covers => within byte (inside byte covers)⟩
      have elsewhere : ¬ (source.process = process ∧ place = lock) := by
        rintro ⟨rfl, rfl⟩
        exact holds unheld
      rw [sameProcess, held_elsewhere held _ elsewhere]
      exact holds
  · intro first second place exclusive holds
    by_contra distinct
    rcases eq_or_ne place lock with rfl | elsewhere
    · rcases eq_or_ne first process with rfl | otherFirst
      · rw [update_of_ne distinct] at holds
        obtain ⟨otherMode, otherHolds⟩ := Option.ne_none_iff_exists'.mp holds
        have shared := book.shared_of_grantable grantable distinct otherHolds
        simp [shared.2] at exclusive
      · rw [update_of_ne otherFirst] at exclusive
        have shared := book.shared_of_grantable grantable otherFirst exclusive
        exact absurd shared.1 (by decide)
    · rw [held_elsewhere held _ fun here => elsewhere here.2] at exclusive holds
      exact distinct (book.excludes exclusive holds)

include book in
theorem release (process : Process) (lock : Lock) :
    LockBook rules (Grant.release locks process (rules.file lock)
      (rules.region lock)) (update held process (update (held process) lock none)) := by
  constructor
  · intro other place placeMode
    rw [held_release, covers_start_iff, ← book.table]
    by_cases here : other = process ∧ place = lock
    · obtain ⟨rfl, rfl⟩ := here
      simp
    · rw [held_elsewhere held _ here]
      tauto
  · intro grant member
    obtain ⟨source, sourceMember, sameProcess, sameFile, inside, left⟩ :=
      exists_of_mem_release member
    obtain ⟨place, holds, file, within⟩ := book.grants source sourceMember
    have elsewhere : ¬ (source.process = process ∧ place = lock) := by
      rintro ⟨ownProcess, rfl⟩
      obtain ⟨byte, covers, outside⟩ := left ownProcess file
      exact outside (within byte (inside byte covers))
    refine ⟨place, ?_, sameFile.trans file, fun byte covers => within byte (inside byte covers)⟩
    rw [sameProcess, held_elsewhere held _ elsewhere]
    exact holds
  · intro first second place exclusive holds
    have firstElsewhere : ¬ (first = process ∧ place = lock) := by
      rintro ⟨rfl, rfl⟩
      simp at exclusive
    have secondElsewhere : ¬ (second = process ∧ place = lock) := by
      rintro ⟨rfl, rfl⟩
      simp at holds
    rw [held_elsewhere held _ firstElsewhere] at exclusive
    rw [held_elsewhere held _ secondElsewhere] at holds
    exact book.excludes exclusive holds

include book in
omit [DecidableEq File] [DecidableEq Lock] in
theorem drop (process : Process) :
    LockBook rules (locks.filter fun grant => grant.process ≠ process)
      (update held process fun _ => none) := by
  constructor
  · intro other place placeMode
    rcases eq_or_ne other process with rfl | apart
    · rw [update_self]
      constructor
      · exact nofun
      · rintro ⟨grant, member, sameProcess, -⟩
        have kept := (mem_filter.mp member).2
        simp [sameProcess] at kept
    · rw [update_of_ne apart, book.table]
      constructor
      · rintro ⟨grant, member, sameProcess, facts⟩
        refine ⟨grant, mem_filter.mpr ⟨member, ?_⟩, sameProcess, facts⟩
        simpa [sameProcess] using apart
      · rintro ⟨grant, member, facts⟩
        exact ⟨grant, (mem_filter.mp member).1, facts⟩
  · intro grant member
    obtain ⟨member, kept⟩ := mem_filter.mp member
    have apart : grant.process ≠ process := by simpa using kept
    rw [update_of_ne apart]
    exact book.grants grant member
  · intro first second place exclusive holds
    have firstOther : first ≠ process := by
      rintro rfl
      simp at exclusive
    have secondOther : second ≠ process := by
      rintro rfl
      simp at holds
    rw [update_of_ne firstOther] at exclusive
    rw [update_of_ne secondOther] at holds
    exact book.excludes exclusive holds

end LockBook

end Skyc.Lib
