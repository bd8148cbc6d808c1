import Mathlib

/-!
# The growing array of `mln_array.c`

`mln_array_push` and `mln_array_pushn` hand out room at the end of one block, which
the caller fills.  When the room does not suffice, the capacity is doubled until it
does, and the elements are copied.
-/

namespace Skyc.Melon.Array

open List Option Nat

variable {α : Type}

/-! ## The functions of `mln_array.c` -/

/-- A `mln_array_t`.  `elts` are the elements in the block, `none` where nothing
was stored, and `bytes` is what `malloc` was asked for. -/
structure MlnArray (α : Type) where
  elts : ℕ → Option α
  bytes : ℕ
  size : ℕ
  nalloc : ℕ
  nelts : ℕ

/-- `while (n + nelts > num) num <<= 1`, for at most `turns` tests. -/
def growLoop (need : ℕ) : ℕ → ℕ → Option ℕ
  | 0, _ => none
  | turns + 1, num => if need > num then growLoop need turns (num * 2 % 2 ^ 64) else some num

/-- The `malloc`, which succeeds, and the `memcpy` of `mln_array_alloc`. -/
def moveTo (arr : MlnArray α) (num : ℕ) : MlnArray α :=
  { arr with
    elts := fun i => if i < arr.nelts then arr.elts i else none
    bytes := num * arr.size % 2 ^ 64
    nalloc := num }

/-- `mln_array_alloc`. -/
def alloc (turns : ℕ) (arr : MlnArray α) (n : ℕ) : Option (MlnArray α) :=
  (growLoop ((n + arr.nelts) % 2 ^ 64) turns arr.nalloc).map (moveTo arr)

/-- `mln_array_init`. -/
def init (turns size nalloc : ℕ) : Option (MlnArray α) :=
  alloc turns { elts := fun _ => none, bytes := 0, size, nalloc, nelts := 0 } nalloc

/-- The caller stores `values` at the place it was given. -/
def store (arr : MlnArray α) (values : List α) : MlnArray α :=
  { arr with
    elts := fun i => if i < arr.nelts then arr.elts i else values[i - arr.nelts]?
    nelts := (arr.nelts + values.length) % 2 ^ 64 }

/-- `mln_array_push`, and the caller stores `value`. -/
def push (turns : ℕ) (arr : MlnArray α) (value : α) : Option (MlnArray α) :=
  (if arr.nelts ≥ arr.nalloc then alloc turns arr 1 else some arr).map (store · [value])

/-- `mln_array_pushn`, and the caller stores `values`. -/
def pushn (turns : ℕ) (arr : MlnArray α) (values : List α) : Option (MlnArray α) :=
  (if (arr.nelts + values.length) % 2 ^ 64 > arr.nalloc then
      alloc turns arr values.length
    else
      some arr).map (store · values)

/-- `mln_array_pop`. -/
def pop (arr : MlnArray α) : MlnArray α :=
  if arr.nelts = 0 then arr else { arr with nelts := arr.nelts - 1 }

inductive Call (α : Type)
  | push (value : α)
  | pushn (values : List α)
  | pop

def Call.exec (turns : ℕ) (arr : MlnArray α) : Call α → Option (MlnArray α)
  | push value => Array.push turns arr value
  | pushn values => Array.pushn turns arr values
  | pop => some (Array.pop arr)

/-! ## The list model -/

def Call.added : Call α → List α
  | push value => [value]
  | pushn values => values
  | pop => []

def Call.apply (contents : List α) : Call α → List α
  | pop => contents.dropLast
  | call => contents ++ call.added

/-- The array holds `contents`, inside its capacity and inside its block. -/
structure Holds (arr : MlnArray α) (contents : List α) : Prop where
  nelts_eq : arr.nelts = contents.length
  nelts_le : arr.nelts ≤ arr.nalloc
  inside : arr.nelts * arr.size ≤ arr.bytes
  stored : ∀ i < arr.nelts, arr.elts i = contents[i]?

/-- Each call returns, and the array holds the contents of the list model before
the first call and after every call. -/
def Follows (turns : ℕ) (arr : MlnArray α) (contents : List α) : List (Call α) → Prop
  | [] => Holds arr contents
  | call :: calls =>
    Holds arr contents ∧
      ∃ next, call.exec turns arr = some next ∧ Follows turns next (call.apply contents) calls

/-- The contents stay below `2^62` bytes; each argument `n` is a `mln_size_t`. -/
def Below (size : ℕ) (contents : List α) : List (Call α) → Prop
  | [] => contents.length * size < 2 ^ 62
  | call :: calls =>
    contents.length * size < 2 ^ 62 ∧ call.added.length < 2 ^ 64 ∧
      Below size (call.apply contents) calls

/-- `mln_array_init` and the calls after it behave as the list model. -/
def Behaves (size nalloc : ℕ) (calls : List (Call α)) : Prop :=
  ∃ turns arr, init turns size nalloc = some arr ∧ Follows turns arr [] calls

variable {size turns : ℕ} {arr : MlnArray α} {contents : List α} {calls : List (Call α)}

theorem Below.here (below : Below size contents calls) : contents.length * size < 2 ^ 62 := by
  cases calls with
  | nil => exact below
  | cons call calls => exact below.1

/-! ## Growth -/

theorem growLoop_zero {need : ℕ} (needed : 0 < need) (turns : ℕ) :
    growLoop need turns 0 = none := by
  induction turns with
  | zero => rfl
  | succ turns ih => rw [growLoop, if_pos needed, zero_mul, zero_mod, ih]

theorem growLoop_spec {need : ℕ} (small : need < 2 ^ 62) (turns num : ℕ)
    (enough : need ≤ num * 2 ^ turns) :
    ∃ grown, growLoop need (turns + 1) num = some grown ∧ need ≤ grown ∧ num ≤ grown ∧
      (grown = num ∨ grown < 2 * need) := by
  induction turns generalizing num with
  | zero =>
    refine ⟨num, if_neg (by omega), by omega, le_refl num, .inl rfl⟩
  | succ turns ih =>
    rw [growLoop]
    by_cases more : need > num
    · rw [if_pos more, mod_eq_of_lt (by omega)]
      obtain ⟨grown, returned, enoughRoom, larger, close⟩ := ih (num * 2) (by
        rw [pow_succ] at enough
        linarith)
      exact ⟨grown, returned, enoughRoom, by omega, .inr (by omega)⟩
    · exact ⟨num, if_neg more, by omega, le_refl num, .inl rfl⟩

/-- What every call keeps besides the contents. -/
structure Room (size : ℕ) (arr : MlnArray α) : Prop where
  size_eq : arr.size = size
  sized : 1 ≤ size
  positive : 1 ≤ arr.nalloc
  bytes_eq : arr.bytes = arr.nalloc * size
  bounded : arr.nalloc * size < 2 ^ 63

section

variable (room : Room size arr)
include room

theorem Room.nalloc_lt : arr.nalloc < 2 ^ 63 :=
  lt_of_le_of_lt (Nat.le_mul_of_pos_right _ room.sized) room.bounded

theorem alloc_spec {n : ℕ} (holds : Holds arr contents)
    (below : (contents.length + n) * size < 2 ^ 62) :
    ∃ grown, alloc 63 arr n = some grown ∧ Holds grown contents ∧ Room size grown ∧
      contents.length + n ≤ grown.nalloc := by
  have count : contents.length + n < 2 ^ 62 :=
    lt_of_le_of_lt (Nat.le_mul_of_pos_right _ room.sized) below
  have needed : (n + arr.nelts) % 2 ^ 64 = contents.length + n := by
    rw [holds.nelts_eq, Nat.mod_eq_of_lt (by omega), Nat.add_comm]
  have positive := room.positive
  obtain ⟨num, returned, enoughRoom, larger, close⟩ := growLoop_spec count 62 arr.nalloc (by omega)
  have fits : num * size < 2 ^ 63 := by
    obtain same | small := close
    · rw [same]
      exact room.bounded
    · have : num * size ≤ 2 * (contents.length + n) * size := Nat.mul_le_mul_right size small.le
      linarith
  have product : num * arr.size % 2 ^ 64 = num * size := by
    rw [room.size_eq, Nat.mod_eq_of_lt (by omega)]
  refine ⟨moveTo arr num, by rw [alloc, needed, returned, map_some],
    ⟨holds.nelts_eq, holds.nelts_le.trans larger, ?_, ?_⟩,
    ⟨room.size_eq, room.sized, positive.trans larger, product, fits⟩, enoughRoom⟩
  · change arr.nelts * arr.size ≤ num * arr.size % 2 ^ 64
    rw [product, room.size_eq]
    exact Nat.mul_le_mul_right size (holds.nelts_le.trans larger)
  · intro i stored
    exact (if_pos stored).trans (holds.stored i stored)

theorem store_spec {values : List α} (holds : Holds arr contents)
    (fits : contents.length + values.length ≤ arr.nalloc) :
    Holds (store arr values) (contents ++ values) ∧ Room size (store arr values) := by
  have bounded := room.nalloc_lt
  have count : (store arr values).nelts = contents.length + values.length := by
    rw [store, holds.nelts_eq, mod_eq_of_lt (by omega)]
  refine ⟨⟨by rw [count, length_append], by rw [count]; exact fits, ?_, ?_⟩, { room with }⟩
  · rw [count]
    change _ * arr.size ≤ arr.bytes
    rw [room.size_eq, room.bytes_eq]
    exact mul_le_mul_right size fits
  · intro i _
    rw [getElem?_append, ← holds.nelts_eq]
    simp only [store]
    split
    · exact holds.stored i ‹_›
    · rfl

theorem grown_store_spec {values : List α} {full : Prop} [Decidable full]
    (holds : Holds arr contents) (below : (contents ++ values).length * size < 2 ^ 62)
    (fits : ¬ full → contents.length + values.length ≤ arr.nalloc) :
    ∃ next, (if full then alloc 63 arr values.length else some arr).map (store · values) =
      some next ∧ Holds next (contents ++ values) ∧ Room size next := by
  rw [length_append] at below
  by_cases grows : full
  · obtain ⟨grown, returned, kept, larger, enough⟩ := alloc_spec room holds below
    rw [if_pos grows, returned]
    exact ⟨_, rfl, store_spec larger kept enough⟩
  · rw [if_neg grows]
    exact ⟨_, rfl, store_spec room holds (fits grows)⟩

theorem exec_spec (call : Call α) (holds : Holds arr contents)
    (below : (call.apply contents).length * size < 2 ^ 62) :
    ∃ next, call.exec 63 arr = some next ∧ Holds next (call.apply contents) ∧ Room size next := by
  have nelts := holds.nelts_eq
  cases call with
  | push value =>
    refine grown_store_spec room holds below fun spare => ?_
    change contents.length + 1 ≤ arr.nalloc
    omega
  | pushn values =>
    refine grown_store_spec room holds below fun spare => ?_
    have count := lt_of_le_of_lt (Nat.le_mul_of_pos_right _ room.sized) below
    rw [Call.apply, Call.added, length_append] at count
    · rwa [Nat.mod_eq_of_lt (by omega), not_lt, nelts] at spare
    · nofun
  | pop =>
    refine ⟨pop arr, rfl, ?_⟩
    rw [pop, Call.apply]
    split
    · have empty : contents = [] := length_eq_zero_iff.mp (by omega)
      subst empty
      exact ⟨holds, room⟩
    · refine ⟨⟨by rw [length_dropLast, ← nelts], ?_, ?_, ?_⟩, { room with }⟩
      · exact le_trans (Nat.sub_le _ _) holds.nelts_le
      · exact le_trans (Nat.mul_le_mul_right _ (Nat.sub_le _ _)) holds.inside
      · intro i stored
        have stored : i < arr.nelts - 1 := stored
        rw [getElem?_dropLast, if_pos (by omega)]
        exact holds.stored i (by omega)

theorem follows_of_room (holds : Holds arr contents) (below : Below size contents calls) :
    Follows 63 arr contents calls := by
  induction calls generalizing arr contents with
  | nil => exact holds
  | cons call calls ih =>
    obtain ⟨next, returned, after, larger⟩ := exec_spec room call holds below.2.2.here
    exact ⟨holds, next, returned, ih larger after below.2.2⟩

end

/-! ## Capacity 0 and size 0 -/

/-- Without capacity the first element to be added is never given a place. -/
theorem follows_zero_iff (nalloc : arr.nalloc = 0) (holds : Holds arr [])
    (below : Below size [] calls) :
    Follows turns arr [] calls ↔ ∀ call ∈ calls, call.added = [] := by
  induction calls generalizing arr with
  | nil => simp [Follows, holds]
  | cons call calls ih =>
    have nelts : arr.nelts = 0 := holds.nelts_eq
    have stuck : ∀ n, 0 < n % 2 ^ 64 → alloc turns arr n = none := fun n needed => by
      rw [alloc, nelts, nalloc, add_zero, growLoop_zero needed, map_none]
    -- a call that adds nothing leaves an array of the same kind
    have idle : ∀ next, call.exec turns arr = some next → next.nalloc = 0 → Holds next [] →
        call.added = [] → call.apply [] = [] →
        (Follows turns arr [] (call :: calls) ↔ ∀ each ∈ call :: calls, each.added = []) := by
      intro next returned capacity after added applied
      have rest := ih capacity after (applied ▸ below.2.2)
      simp [Follows, holds, returned, added, applied, rest]
    cases call with
    | push value =>
      refine iff_of_false ?_ fun quiet => cons_ne_nil _ _ (quiet _ mem_cons_self)
      rintro ⟨-, next, returned, -⟩
      simp [Call.exec, push, nelts, nalloc, stuck] at returned
    | pushn values =>
      obtain rfl | added := eq_or_ne values []
      · refine idle (store arr []) ?_ nalloc ⟨?_, ?_, ?_, ?_⟩ rfl rfl
        all_goals simp [store, Call.exec, pushn, nelts]
      · have needed : 0 < values.length % 2 ^ 64 := by
          rw [mod_eq_of_lt (by exact below.2.1)]
          exact length_pos_iff.mpr added
        refine iff_of_false ?_ fun quiet => added (quiet _ mem_cons_self)
        rintro ⟨-, next, returned, -⟩
        rw [Call.exec, pushn, nelts, nalloc, zero_add, if_pos needed, stuck _ needed]
          at returned
        exact absurd returned (by simp)
    | pop => exact idle arr (by simp [Call.exec, pop, nelts]) nalloc holds rfl rfl

theorem init_eq (nalloc : ℕ) (word : nalloc < 2 ^ 64) : init (α := α) (turns + 1) size nalloc =
      some (moveTo { elts := fun _ => none, bytes := 0, size, nalloc, nelts := 0 } nalloc) := by
  rw [init, alloc, add_zero, mod_eq_of_lt word, growLoop, if_neg (lt_irrefl _), map_some]

theorem holds_nil (size nalloc : ℕ) : Holds (moveTo (α := α)
      { elts := fun _ => none, bytes := 0, size, nalloc, nelts := 0 } nalloc) [] :=
  ⟨rfl, zero_le _, by simp [moveTo], by simp [moveTo]⟩

theorem behaves_zero_iff (below : Below size [] calls) :
    Behaves size 0 calls ↔ ∀ call ∈ calls, call.added = [] := by
  constructor
  · rintro ⟨turns, arr, returned, follows⟩
    cases turns with
    | zero => exact absurd returned (by simp [init, alloc, growLoop])
    | succ turns =>
      rw [init_eq 0 (by decide), some.injEq] at returned
      subst returned
      exact (follows_zero_iff rfl (holds_nil size 0) below).mp follows
  · intro quiet
    exact ⟨1, _, init_eq 0 (by decide), (follows_zero_iff rfl (holds_nil size 0) below).mpr quiet⟩

theorem not_behaves_size_zero (nalloc : ℕ) (value : α) :
    ∃ calls : List (Call α), Below 0 [] calls ∧ ¬ Behaves 0 nalloc calls := by
  obtain ⟨many, length⟩ : ∃ many : List α, many.length = 2 ^ 63 :=
    ⟨replicate (2 ^ 63) value, length_replicate⟩
  refine ⟨[Call.pushn many, Call.pushn many], ?_, ?_⟩
  · simp [Below, Call.added, length]
  · intro ⟨turns, arr, _, _, first, _, _, second, returned, holds⟩
    obtain ⟨grown, -, rfl⟩ := map_eq_some_iff.mp returned
    have word : (store grown many).nelts < 2 ^ 64 := mod_lt _ (by decide)
    have count : (store grown many).nelts = _ := holds.nelts_eq
    simp only [Call.apply, Call.added, length_append, length_nil, length] at count
    omega

/-- `mln_array_init` with capacity 0 is followed by a call that does not return as
soon as an element is to be added; with any other capacity and elements of at least one
byte every sequence of calls returns and follows the list model. -/
theorem array_behaves_iff [Inhabited α] (size nalloc : ℕ) (below : nalloc * size < 2 ^ 62) :
    (size < 2 ^ 62 → ((∀ calls : List (Call α), Below size [] calls → Behaves size nalloc calls) ↔
      1 ≤ size ∧ 1 ≤ nalloc)) ∧
    (1 ≤ size → ∀ calls : List (Call α), Below size [] calls →
      (Behaves size nalloc calls ↔ 1 ≤ nalloc ∨ ∀ call ∈ calls, call.added = [])) := by
  have exact : 1 ≤ size → ∀ calls : List (Call α), Below size [] calls →
      (Behaves size nalloc calls ↔ 1 ≤ nalloc ∨ ∀ call ∈ calls, call.added = []) := by
    intro sized calls within
    have word : nalloc < 2 ^ 62 := lt_of_le_of_lt (Nat.le_mul_of_pos_right _ sized) below
    obtain rfl | positive := Nat.eq_zero_or_pos nalloc
    · rw [or_iff_right (by decide)]
      exact behaves_zero_iff within
    · refine iff_of_true ⟨63, _, init_eq nalloc (by omega), ?_⟩ (.inl positive)
      refine follows_of_room ⟨rfl, sized, positive, ?_, ?_⟩ (holds_nil _ _) within
      · exact Nat.mod_eq_of_lt (below.trans (by decide))
      · exact below.trans (by decide)
  refine ⟨fun element => ⟨fun all => ?_, fun ⟨sized, positive⟩ calls within =>
    (exact sized calls within).mpr (.inl positive)⟩, exact⟩
  have sized : 1 ≤ size := by
    by_contra zero
    obtain rfl : size = 0 := by omega
    obtain ⟨calls, within, fails⟩ := not_behaves_size_zero nalloc (default : α)
    exact fails (all calls within)
  refine ⟨sized, ?_⟩
  by_contra zero
  have within : Below size [] [Call.push (default : α)] := by
    simpa [Below, Call.added, Call.apply] using element
  have quiet := ((exact sized _ within).mp (all _ within)).resolve_left zero
  exact cons_ne_nil _ _ (quiet _ mem_cons_self)

theorem array_behaves_growing : Behaves 8 1 [Call.push 7, Call.pushn [8, 9], Call.pop] :=
  ((array_behaves_iff 8 1 (by decide)).2 (by decide) _
    (by simp [Below, Call.added, Call.apply])).mpr (.inl le_rfl)

/-- The first `mln_array_push` after `mln_array_init` with capacity 0 doubles 0 for ever. -/
theorem array_push_capacity_zero : Below 8 [] [Call.push 7] ∧ ¬ Behaves 8 0 [Call.push 7] := by
  have below : Below 8 [] [Call.push 7] := by simp [Below, Call.added, Call.apply]
  refine ⟨below, fun behaves => ?_⟩
  exact cons_ne_nil _ _ ((behaves_zero_iff below).mp behaves _ mem_cons_self)

end Skyc.Melon.Array
