import Mathlib

/-!
# Streams cut into chunks

A stream of values arrives in chunks, and is read as a list of fields.  A reader
that takes every field from a single chunk gets along with the chunks exactly
when each of them ends where a field ends.
-/

namespace Skyc.Lib.Chunks

open List

universe u

variable {α : Type u}

/-- Where the chunks end, counted from the start of the stream. -/
def cuts : List (List α) → List ℕ
  | [] => []
  | chunk :: rest => chunk.length :: (cuts rest).map (· + chunk.length)

def push (chunk : List α) (rest : List (List α)) : List (List α) :=
  if chunk = [] then rest else chunk :: rest

/-- Every field is found in a single chunk. -/
def Aligned : List (List α) → List (List α) → Prop
  | _, [] => True
  | [], _ :: _ => False
  | field :: fields, chunk :: rest =>
    field.length ≤ chunk.length ∧ Aligned fields (push (chunk.drop field.length) rest)

variable {chunk field : List α} {chunks fields rest : List (List α)}

theorem aligned_nil : Aligned fields [] := by
  cases fields with
  | nil | cons => trivial

theorem push_flatten : (push chunk rest).flatten = chunk ++ rest.flatten := by
  rw [push]
  by_cases isEmpty : chunk = []
  · rw [if_pos isEmpty, isEmpty]
    rfl
  · rw [if_neg isEmpty]
    rfl

theorem ne_nil_of_mem_push (nonempty : ∀ other ∈ rest, other ≠ []) :
    ∀ other ∈ push chunk rest, other ≠ [] := by
  intro other member
  rw [push] at member
  by_cases isEmpty : chunk = []
  · rw [if_pos isEmpty] at member
    exact nonempty other member
  · rw [if_neg isEmpty] at member
    rcases mem_cons.mp member with isChunk | isOther
    · rw [isChunk]
      exact isEmpty
    · exact nonempty other isOther

theorem cuts_pos (nonempty : ∀ chunk ∈ chunks, chunk ≠ []) : ∀ k ∈ cuts chunks, 0 < k := by
  cases chunks with
  | nil => exact nofun
  | cons chunk rest =>
    intro k member
    have positive : 0 < chunk.length := length_pos_iff.mpr (nonempty chunk mem_cons_self)
    rcases mem_cons.mp member with isFirst | isLater
    · omega
    · obtain ⟨earlier, _, isSum⟩ := mem_map.mp isLater
      omega

theorem mem_cuts_push {taken k : ℕ} (enough : taken ≤ chunk.length) (positive : 0 < k) :
    k ∈ cuts (push (chunk.drop taken) rest) ↔ k + taken ∈ cuts (chunk :: rest) := by
  have length : (chunk.drop taken).length = chunk.length - taken := length_drop
  rw [push]
  by_cases isEmpty : chunk.drop taken = []
  · have same : chunk.length = taken := by
      have atMost := drop_eq_nil_iff.mp isEmpty
      omega
    rw [if_pos isEmpty, cuts, mem_cons, mem_map, same]
    constructor
    · intro member
      exact Or.inr ⟨k, member, rfl⟩
    · rintro (isFirst | ⟨other, member, isSum⟩)
      · omega
      · have sameCut : other = k := by omega
        rw [← sameCut]
        exact member
  · rw [if_neg isEmpty, cuts, cuts, mem_cons, mem_cons, mem_map, mem_map, length]
    constructor
    · rintro (isFirst | ⟨other, member, isSum⟩)
      · left
        omega
      · right
        exact ⟨other, member, by omega⟩
    · rintro (isFirst | ⟨other, member, isSum⟩)
      · left
        omega
      · right
        exact ⟨other, member, by omega⟩

/-- Fields are found in single chunks exactly when chunks end where fields end. -/
theorem aligned_iff_cuts (fieldsNonempty : ∀ field ∈ fields, field ≠ [])
    (chunksNonempty : ∀ chunk ∈ chunks, chunk ≠ []) :
    Aligned fields chunks ↔ ∀ k ∈ cuts chunks, k ∈ cuts fields := by
  induction fields generalizing chunks with
  | nil =>
    cases chunks with
    | nil =>
      refine iff_of_true trivial ?_
      intro k member
      exact member
    | cons chunk rest =>
      refine iff_of_false (fun impossible => impossible) ?_
      intro subset
      have impossible := subset chunk.length mem_cons_self
      cases impossible
  | cons field fields ih =>
    cases chunks with
    | nil =>
      refine iff_of_true trivial ?_
      exact nofun
    | cons chunk rest =>
      have restNonempty : ∀ other ∈ rest, other ≠ [] := (forall_mem_cons.mp chunksNonempty).2
      have laterNonempty : ∀ other ∈ fields, other ≠ [] := (forall_mem_cons.mp fieldsNonempty).2
      have recursive := ih laterNonempty
        (@ne_nil_of_mem_push α (chunk.drop field.length) rest restNonempty)
      rw [Aligned, recursive]
      constructor
      · rintro ⟨enough, subset⟩ k member
        have positive := cuts_pos chunksNonempty k member
        -- a chunk does not end inside of the first field
        have notInside : field.length ≤ k := by
          rcases mem_cons.mp member with isFirst | isLater
          · omega
          · obtain ⟨earlier, _, isSum⟩ := mem_map.mp isLater
            omega
        rw [cuts, mem_cons, mem_map]
        by_cases atEnd : k = field.length
        · exact Or.inl atEnd
        · right
          refine ⟨k - field.length, subset _ ?_, by omega⟩
          apply (mem_cuts_push enough (by omega)).mpr
          rw [Nat.sub_add_cancel notInside]
          exact member
      · intro subset
        have enough : field.length ≤ chunk.length := by
          have found := subset chunk.length mem_cons_self
          rw [cuts, mem_cons, mem_map] at found
          rcases found with isFirst | ⟨earlier, _, isSum⟩
          · omega
          · omega
        refine ⟨enough, ?_⟩
        intro k member
        have positive := cuts_pos (@ne_nil_of_mem_push α (chunk.drop field.length) rest
          restNonempty) k member
        have found := subset _ ((mem_cuts_push enough positive).mp member)
        rw [cuts, mem_cons, mem_map] at found
        rcases found with isFirst | ⟨earlier, inFields, isSum⟩
        · omega
        · have same : earlier = k := by omega
          rw [← same]
          exact inFields

theorem aligned_single (fields : List (List α)) : Aligned fields (push fields.flatten []) := by
  induction fields with
  | nil => exact trivial
  | cons field fields ih =>
    rw [push]
    by_cases isEmpty : (field :: fields).flatten = []
    · rw [if_pos isEmpty]
      trivial
    · rw [if_neg isEmpty, Aligned, flatten_cons, drop_left]
      refine ⟨?_, ih⟩
      rw [length_append]
      omega

theorem field_of_chunk {more : List α} (isPrefix : (chunk :: rest).flatten <+: field ++ more)
    (enough : field.length ≤ chunk.length) :
    chunk.take field.length = field ∧ (push (chunk.drop field.length) rest).flatten <+: more := by
  obtain ⟨suffix, isStream⟩ := isPrefix
  rw [flatten_cons, append_assoc] at isStream
  have first : chunk.take field.length = field := by
    have front := congrArg (take field.length) isStream
    rw [take_append_of_le_length enough, take_left] at front
    exact front
  refine ⟨first, suffix, ?_⟩
  rw [push_flatten]
  have split : chunk = field ++ chunk.drop field.length := by
    calc
      chunk = chunk.take field.length ++ chunk.drop field.length := (take_append_drop _ _).symm
      _ = field ++ chunk.drop field.length := by rw [first]
  rw [split, append_assoc] at isStream
  rw [append_assoc]
  exact append_cancel_left isStream

end Skyc.Lib.Chunks
