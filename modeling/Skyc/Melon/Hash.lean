import Skyc.Lib.Transition

/-!
# The length of a hash table

Before `mln_hash_insert` adds an entry it may expand an expandable table and then
reduce it.  A call is given the outcomes of its allocations or of its search.  The
entries and their buckets are left out.
-/

namespace Skyc.Melon.Hash

open Skyc.Lib

/-- The fields of `mln_hash_t` that its length depends on, the largest number of entries so far
and whether an assignment to `threshold` has wrapped around. -/
structure HashT where
  len : ℕ
  threshold : ℕ
  nrNodes : ℕ
  peak : ℕ
  wrapped : Bool

/-- The assignments to `len` and to `threshold`, which has 32 bits; when there is no memory,
`len` is restored from a variable of 32 bits. -/
def resize (calloc : Bool) (len : ℕ) (threshold : ℤ) (h : HashT) : HashT :=
  if calloc then
    { h with
      len
      threshold := (threshold % 2 ^ 32).toNat
      wrapped := h.wrapped || decide (threshold < 0 ∨ 2 ^ 32 ≤ threshold) }
  else
    { h with len := h.len % 2 ^ 32 }

/-- `mln_hash_new` -/
def new (lenBase : ℕ) : HashT :=
  resize true lenBase (lenBase * 2) ⟨1, 0, 0, 0, false⟩

/-- `mln_hash_expand` -/
def expand (calloc : Bool) (h : HashT) : HashT :=
  resize calloc ((h.len % 2 ^ 32 * 2 + (2 ^ 32 - 1)) % 2 ^ 32) (h.threshold * 2 - 1) h

/-- `mln_hash_reduce` -/
def reduce (calloc : Bool) (h : HashT) : HashT :=
  resize calloc (max (h.threshold / 4) 1) (h.threshold / 2) h

/-- The last part of `mln_hash_insert`, for at most `2 ^ 20` entries -/
def addEntry (allocated : Bool) (h : HashT) : Option HashT :=
  if allocated = false then
    some h
  else if h.nrNodes < 2 ^ 20 then
    some { h with nrNodes := h.nrNodes + 1, peak := max h.peak (h.nrNodes + 1) }
  else
    none

inductive Call
  | insert (expanded reduced allocated : Bool)
  | remove (found : Bool)

/-- `mln_hash_insert` and `mln_hash_remove` -/
def next (h : HashT) : Call → Option HashT
  | .insert expanded reduced allocated =>
    let h := if h.threshold < h.nrNodes then expand expanded h else h
    addEntry allocated (if h.nrNodes ≤ h.threshold / 8 then reduce reduced h else h)
  | .remove found =>
    if found = false then
      some h
    else if h.nrNodes = 0 then
      none
    else
      some { h with nrNodes := h.nrNodes - 1 }

def table (lenBase : ℕ) : Machine HashT Call where
  start := new lenBase
  next := next

/-- A table with entries does not get one more while its threshold is 0. -/
def Positive (h : HashT) : Call → Prop
  | .insert .. => h.threshold = 0 → h.nrNodes = 0
  | .remove _ => True

structure Sized (lenBase : ℕ) (h : HashT) : Prop where
  wrapped : h.wrapped = false
  small : h.threshold < 2 ^ 32
  bound : h.threshold ≤ 2 * (lenBase + h.peak)
  positive : 0 < h.len
  len : h.len ≤ max h.threshold 1
  entries : h.nrNodes ≤ min h.peak (2 ^ 20)

variable {lenBase : ℕ} {h : HashT}

theorem Sized.resize {len : ℕ} {threshold : ℤ} (sized : Sized lenBase h) (calloc : Bool)
    (nonneg : 0 ≤ threshold) (small : threshold < 2 ^ 32)
    (bound : threshold ≤ 2 * (lenBase + h.peak)) (positive : 0 < len)
    (isLen : len ≤ max threshold 1) : Sized lenBase (resize calloc len threshold h) := by
  have ⟨wrapped, _, _, _, _, entries⟩ := sized
  cases calloc with
  | false =>
    have same : h.len % 2 ^ 32 = h.len := by omega
    rw [Hash.resize, same]
    exact sized
  | true =>
    have fits : ¬ (threshold < 0 ∨ 2 ^ 32 ≤ threshold) := by omega
    refine ⟨?_, ?_, ?_, positive, ?_, entries⟩
    · simp only [Hash.resize, if_true, wrapped, decide_eq_false fits, Bool.or_self]
    all_goals
      simp only [Hash.resize, if_true]
      omega

theorem Sized.reduce (sized : Sized lenBase h) (reduced : Bool) :
    Sized lenBase (if h.nrNodes ≤ h.threshold / 8 then reduce reduced h else h) := by
  have ⟨_, small, bound, _, _, _⟩ := sized
  split
  · apply sized.resize <;> omega
  · exact sized

theorem Sized.addEntry {allocated : Bool} {target : HashT} (sized : Sized lenBase h)
    (added : addEntry allocated h = some target) : Sized lenBase target := by
  have ⟨wrapped, small, bound, positive, isLen, entries⟩ := sized
  rw [Hash.addEntry] at added
  split_ifs at added
  · cases added
    exact sized
  · cases added
    exact ⟨wrapped, small, by simp only; omega, positive, isLen, by simp only; omega⟩

theorem Sized.next {call : Call} {target : HashT} (sized : Sized lenBase h)
    (meets : Positive h call) (moved : next h call = some target) : Sized lenBase target := by
  have ⟨_, _, _, _, isLen, entries⟩ := sized
  cases call with
  | insert expanded reduced allocated =>
    have first : Sized lenBase (if h.threshold < h.nrNodes then expand expanded h else h) := by
      split
      next full =>
        have nonzero : h.threshold ≠ 0 := fun zero => by rw [zero, meets zero] at full; omega
        apply sized.resize <;> omega
      next => exact sized
    exact (first.reduce reduced).addEntry moved
  | remove found =>
    rw [Hash.next] at moved
    split_ifs at moved
    · cases moved
      exact sized
    · cases moved
      exact { sized with entries := by simp only; omega }

/-- As long as no entry joins others under a threshold of 0, the threshold does not wrap around
and the length is bounded. -/
theorem len_bounded (lenBase : ℕ) (h : HashT) (nonempty : 1 ≤ lenBase) (short : lenBase < 2 ^ 31)
    (reached : (table lenBase).ReachableUnder Positive h) :
    h.wrapped = false ∧ h.len ≤ 2 * (lenBase + h.peak) := by
  have sized : Sized lenBase h := by
    apply reached.invariant
    · have empty : Sized lenBase ⟨1, 0, 0, 0, false⟩ := by constructor <;> simp
      exact empty.resize true (by omega) (by omega) (by simp; omega) nonempty (by omega)
    · intro source call target _ sized meets moved
      exact sized.next meets moved
  have ⟨wrapped, _, bound, _, isLen, _⟩ := sized
  exact ⟨wrapped, by omega⟩

theorem len_bounded_eight :
    ∃ h, next (new 8) (.insert true true true) = some h ∧ h.wrapped = false ∧
      h.len ≤ 2 * (8 + h.peak) :=
  ⟨_, rfl, len_bounded 8 _ (by decide) (by decide)
    (.step .start (show Positive (new 8) (.insert true true true) from nofun) rfl)⟩

/-- One entry comes, goes and comes again, and then a second one: there are more than a billion
buckets for two entries. -/
theorem threshold_wraps :
    (table 1).run (table 1).start [.insert true true true, .remove true, .insert true true true,
      .insert true true true] = some ⟨2 ^ 30 - 1, 2 ^ 31 - 1, 2, 2, true⟩ := rfl

end Skyc.Melon.Hash
