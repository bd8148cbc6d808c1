import Mathlib

/-!
# Advisory record locks

The byte-range locks of `fcntl`.  A request replaces what the process itself holds
on the range; it is granted when no other process holds an overlapping range in a
conflicting mode.  `Held` is the meaning of the table, byte by byte.
-/

namespace Skyc.Lib

open List Option

/-- A range of bytes; without `stop` it reaches to the end of any file. -/
structure Region where
  start : ℕ
  stop : Option ℕ
deriving DecidableEq, Repr

namespace Region

/-- The range of `l_start` and `l_len`, where length zero means no end. -/
def ofLen (start len : ℕ) : Region :=
  ⟨start, if len = 0 then none else some (start + len)⟩

def Covers (region : Region) (byte : ℕ) : Prop :=
  region.start ≤ byte ∧ ∀ stop ∈ region.stop, byte < stop

def meet (first second : Region) : Region where
  start := max first.start second.start
  stop :=
    match first.stop, second.stop with
    | none, stop => stop
    | stop, none => stop
    | some left, some right => some (min left right)

def IsEmpty (region : Region) : Prop :=
  ∃ stop ∈ region.stop, stop ≤ region.start

instance (region : Region) : Decidable region.IsEmpty :=
  match stops : region.stop with
  | none => isFalse (by simp [IsEmpty, stops])
  | some stop => decidable_of_iff (stop ≤ region.start) (by simp [IsEmpty, stops])

/-- What is left of a range without the bytes of `cut`. -/
def minus (region cut : Region) : List Region :=
  let pieces :=
    region.meet ⟨0, some cut.start⟩ :: match cut.stop with
      | none => []
      | some stop => [region.meet ⟨stop, none⟩]
  pieces.filter fun piece => ¬ piece.IsEmpty

theorem covers_ofLen_one (start byte : ℕ) : (ofLen start 1).Covers byte ↔ byte = start := by
  simp only [ofLen, Covers, Nat.one_ne_zero, if_false, mem_def, some.injEq, forall_eq']
  omega

theorem covers_ofLen_zero (start byte : ℕ) : (ofLen start 0).Covers byte ↔ start ≤ byte := by
  simp [ofLen, Covers]

theorem covers_meet (first second : Region) (byte : ℕ) :
    (first.meet second).Covers byte ↔ first.Covers byte ∧ second.Covers byte := by
  obtain ⟨firstStart, firstStop⟩ := first
  obtain ⟨secondStart, secondStop⟩ := second
  cases firstStop with
  | none =>
    simp only [Covers, meet, Nat.max_le, mem_def, reduceCtorEq, false_imp_iff, implies_true]
    tauto
  | some left =>
    cases secondStop with
    | none =>
      simp only [Covers, meet, Nat.max_le, mem_def, reduceCtorEq, false_imp_iff, implies_true]
      tauto
    | some right =>
      simp only [Covers, meet, Nat.max_le, mem_def, some.injEq, forall_eq', Nat.lt_min]
      tauto

variable {region : Region}

theorem not_isEmpty_of_covers {byte : ℕ} (covers : region.Covers byte) : ¬ region.IsEmpty := by
  rintro ⟨stop, stops, before⟩
  have inside := covers.2 stop stops
  have after := covers.1
  omega

theorem covers_start_of_not_isEmpty (nonempty : ¬ region.IsEmpty) : region.Covers region.start := by
  refine ⟨Nat.le_refl _, fun stop stops => ?_⟩
  by_contra early
  exact nonempty ⟨stop, stops, not_lt.mp early⟩

theorem exists_mem_filter_iff (pieces : List Region) (byte : ℕ) :
    (∃ piece ∈ pieces.filter fun piece => ¬ piece.IsEmpty, piece.Covers byte) ↔
      ∃ piece ∈ pieces, piece.Covers byte := by
  simp only [mem_filter, decide_eq_true_eq]
  constructor
  · rintro ⟨piece, ⟨member, -⟩, covers⟩
    exact ⟨piece, member, covers⟩
  · rintro ⟨piece, member, covers⟩
    exact ⟨piece, ⟨member, not_isEmpty_of_covers covers⟩, covers⟩

theorem exists_mem_minus_iff (region cut : Region) (byte : ℕ) :
    (∃ piece ∈ region.minus cut, piece.Covers byte) ↔ region.Covers byte ∧ ¬ cut.Covers byte := by
  obtain ⟨cutStart, cutStop⟩ := cut
  rw [minus, exists_mem_filter_iff]
  cases cutStop with
  | none =>
    have outside : (Region.mk 0 (some cutStart)).Covers byte ↔
        ¬ (Region.mk cutStart none).Covers byte := by
      simp [Covers]
    simp only [mem_singleton, exists_eq_left, covers_meet, outside]
  | some stop =>
    have outside : (Region.mk 0 (some cutStart)).Covers byte ∨ (Region.mk stop none).Covers byte ↔
        ¬ (Region.mk cutStart (some stop)).Covers byte := by
      simp only [Covers, mem_def, some.injEq, forall_eq', reduceCtorEq, false_imp_iff, implies_true,
        and_true]
      omega
    simp only [mem_cons, not_mem_nil, or_false, exists_eq_or_imp, exists_eq_left, covers_meet,
      ← and_or_left, outside]

theorem covers_of_mem_minus {cut piece : Region} (member : piece ∈ region.minus cut) :
    (∀ byte, piece.Covers byte → region.Covers byte) ∧
      ∃ byte, piece.Covers byte ∧ ¬ cut.Covers byte := by
  have outside : ∀ byte, piece.Covers byte →
    region.Covers byte ∧ ¬ cut.Covers byte := fun byte covers =>
    (exists_mem_minus_iff _ _ _).mp ⟨piece, member, covers⟩
  have nonempty : ¬ piece.IsEmpty := by simpa using (mem_filter.mp member).2
  have covers := covers_start_of_not_isEmpty nonempty
  exact ⟨fun byte inside => (outside byte inside).1, piece.start, covers, (outside _ covers).2⟩

end Region

/-- `F_RDLCK` and `F_WRLCK`. -/
inductive LockMode
  | shared
  | exclusive
deriving DecidableEq, Repr

structure Grant (Process File : Type) where
  process : Process
  file : File
  mode : LockMode
  region : Region
deriving DecidableEq, Repr

namespace Grant

variable {Process File : Type}

variable {table : List (Grant Process File)} {process : Process} {file : File}

section Table

variable [DecidableEq Process] [DecidableEq File] (table process file) (mode : LockMode)
  (region : Region)

/-- The table after a process gives up the bytes of `cut`. -/
def release (cut : Region) : List (Grant Process File) :=
  table.flatMap fun grant =>
    if grant.process = process ∧ grant.file = file then
      (grant.region.minus cut).map fun piece =>
        { grant with region := piece }
    else
      [grant]

def acquire : List (Grant Process File) :=
  ⟨process, file, mode, region⟩ :: release table process file region

/-- No other process holds an overlapping range in a conflicting mode. -/
def Grantable : Prop :=
  ∀ grant ∈ table, grant.process ≠ process → grant.file = file →
    ¬ (grant.region.meet region).IsEmpty → grant.mode = .shared ∧ mode = .shared

instance : Decidable (Grantable table process file mode region) :=
  inferInstanceAs (Decidable (∀ grant ∈ table, _ → _ → _ → _))

/-- `process` holds `byte` of `file` in the given mode. -/
def Held (byte : ℕ) : Prop :=
  ∃ grant ∈ table, grant.process = process ∧ grant.file = file ∧ grant.mode = mode ∧
    grant.region.Covers byte

theorem held_release (other : Process) (place : File) (cut : Region) (byte : ℕ) :
    Held (release table process file cut) other place mode byte ↔
      Held table other place mode byte ∧ ¬ (other = process ∧ place = file ∧ cut.Covers byte) := by
  constructor
  · rintro ⟨grant, member, rfl, rfl, rfl, covers⟩
    obtain ⟨source, sourceMember, grantMember⟩ := mem_flatMap.mp member
    split at grantMember
    case isTrue own =>
      obtain ⟨piece, pieceMember, rfl⟩ := mem_map.mp grantMember
      obtain ⟨sourceCovers, outside⟩ := (Region.exists_mem_minus_iff _ _ _).mp
        ⟨piece, pieceMember, covers⟩
      exact ⟨⟨source, sourceMember, rfl, rfl, rfl, sourceCovers⟩, fun inside => outside inside.2.2⟩
    case isFalse foreign =>
      rw [mem_singleton] at grantMember
      subst grantMember
      exact ⟨⟨grant, sourceMember, rfl, rfl, rfl, covers⟩,
        fun inside => foreign ⟨inside.1, inside.2.1⟩⟩
  · rintro ⟨⟨grant, member, rfl, rfl, rfl, covers⟩, outside⟩
    by_cases own : grant.process = process ∧ grant.file = file
    · have notCut : ¬ cut.Covers byte := fun inside => outside ⟨own.1, own.2, inside⟩
      obtain ⟨piece, pieceMember, pieceCovers⟩ :=
        (Region.exists_mem_minus_iff _ _ _).mpr ⟨covers, notCut⟩
      refine ⟨{ grant with region := piece },
        mem_flatMap.mpr ⟨grant, member, ?_⟩, rfl, rfl, rfl, pieceCovers⟩
      rw [if_pos own]
      exact mem_map_of_mem pieceMember
    · refine ⟨grant, mem_flatMap.mpr ⟨grant, member, ?_⟩, rfl, rfl, rfl, covers⟩
      rw [if_neg own]
      exact mem_singleton_self grant

variable {table process file} in
/-- Every grant after a release is a part of an earlier one; what is left of the ranges
of the process lies outside. -/
theorem exists_of_mem_release {cut : Region} {grant : Grant Process File}
    (member : grant ∈ release table process file cut) :
    ∃ source ∈ table, grant.process = source.process ∧ grant.file = source.file ∧
      (∀ byte, grant.region.Covers byte →
        source.region.Covers byte) ∧ (source.process = process → source.file = file →
        ∃ byte, grant.region.Covers byte ∧ ¬ cut.Covers byte) := by
  obtain ⟨source, sourceMember, grantMember⟩ := mem_flatMap.mp member
  split at grantMember
  case isTrue own =>
    obtain ⟨piece, pieceMember, rfl⟩ := mem_map.mp grantMember
    obtain ⟨inside, outside⟩ := Region.covers_of_mem_minus pieceMember
    exact ⟨source, sourceMember, rfl, rfl, inside, fun _ _ => outside⟩
  case isFalse foreign =>
    rw [mem_singleton] at grantMember
    subst grantMember
    exact ⟨grant, sourceMember, rfl, rfl, fun _ covers => covers, fun sameProcess sameFile =>
      absurd ⟨sameProcess, sameFile⟩ foreign⟩

theorem held_acquire (other : Process) (place : File) (heldMode : LockMode) (byte : ℕ) :
    Held (acquire table process file mode region) other place heldMode byte ↔
      (other = process ∧ place = file ∧ heldMode = mode ∧ region.Covers byte) ∨
        (Held table other place heldMode byte ∧
          ¬ (other = process ∧ place = file ∧ region.Covers byte)) := by
  rw [← held_release]
  constructor
  · rintro ⟨grant, member, rfl, rfl, rfl, covers⟩
    rcases mem_cons.mp member with rfl | member
    · exact Or.inl ⟨rfl, rfl, rfl, covers⟩
    · exact Or.inr ⟨grant, member, rfl, rfl, rfl, covers⟩
  · rintro (⟨rfl, rfl, rfl, covers⟩ | ⟨grant, member, facts⟩)
    · exact ⟨_, mem_cons_self, rfl, rfl, rfl, covers⟩
    · exact ⟨grant, mem_cons_of_mem _ member, facts⟩

end Table

theorem Grantable.shared {other : Process} {mode heldMode : LockMode} {region : Region} {byte : ℕ}
    (grantable : Grantable table process file mode region)
    (held : Held table other file heldMode byte) (apart : other ≠ process)
    (covers : region.Covers byte) : heldMode = .shared ∧ mode = .shared := by
  obtain ⟨grant, member, rfl, rfl, rfl, grantCovers⟩ := held
  apply grantable grant member apart rfl
  exact Region.not_isEmpty_of_covers ((Region.covers_meet _ _ _).mpr ⟨grantCovers, covers⟩)

end Grant

end Skyc.Lib
