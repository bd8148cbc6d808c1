import Skyc.Lib.BinaryHeap
import Skyc.Lib.LinkedHeap

/-!
# The time heap

`11.5.time_heap.h` keeps timers in a binary heap ordered by expiry time; a deleted
timer stays in it with its callback cleared.  A result is missing when the code
leaves the array or dereferences a pointer that is not a timer.
-/

namespace Skyc.Socket.TimeHeap

open Skyc.Lib Skyc.Lib.BinaryHeap Function List Option Nat Int Equiv

/-- The fields `expire` and `cb_func` of a `heap_timer`; `cb_func` is a
callback or `NULL`. -/
structure HeapTimer where
  expire : ℤ
  callback : Bool
deriving DecidableEq, Repr

abbrev Timers := Addr → Option HeapTimer

/-- `heap_timer **array` -/
abbrev Pointers := List (Option Addr)

/-- `time_heap` with the memory of the timers. -/
structure Heap where
  timers : Timers
  array : Pointers
  capacity : ℕ
  curSize : ℕ
  /-- The timers removed by `pop_timer`, in order. -/
  popped : List Addr
  /-- The timers whose callback has run, in order. -/
  fired : List Addr

/-! ## The functions -/

/-- `array[i] = pointer` -/
def store (array : Pointers) (i : ℕ) (pointer : Option Addr) : Option Pointers :=
  if i < array.length then some (array.set i pointer) else none

/-- `pointer->expire` -/
def expireOf (timers : Timers) (pointer : Option Addr) : Option ℤ :=
  pointer.bind fun timer => (timers timer).map HeapTimer.expire

/-- `array[i]->expire` -/
def expireAt (timers : Timers) (array : Pointers) (i : ℕ) : Option ℤ :=
  array[i]?.bind (expireOf timers)

/-- The comparison of the children in `percolate_down`: is the right one
there and smaller? -/
def rightSmaller (timers : Timers) (array : Pointers) (curSize child : ℕ) : Option Bool :=
  if child + 1 < curSize then do
    let right ← expireAt timers array (child + 1)
    let left ← expireAt timers array child
    return decide (right < left)
  else
    return false

/-- The loop of `percolate_down` with the store behind it. -/
def percolateLoop (timers : Timers) (curSize : ℕ) (temp : Option Addr)
    (hole : ℕ) (array : Pointers) : Option Pointers :=
  if hole * 2 + 1 < curSize then do
    let right ← rightSmaller timers array curSize (hole * 2 + 1)
    let child := if right then hole * 2 + 2 else hole * 2 + 1
    let expire ← expireAt timers array child
    let tempExpire ← expireOf timers temp
    if expire < tempExpire then
      let pointer ← array[child]?
      let array ← store array hole pointer
      percolateLoop timers curSize temp child array
    else
      store array hole temp
  else
    store array hole temp
termination_by curSize - hole
decreasing_by
  split <;> omega

def percolateDown (heap : Heap) (hole : ℕ) : Option Heap := do
  let temp ← heap.array[hole]?
  let array ← percolateLoop heap.timers heap.curSize temp hole heap.array
  return { heap with array }

def copy (source : Pointers) : ℕ → Pointers → Option Pointers
  | 0, array => some array
  | i + 1, array => do
    let array ← copy source i array
    let pointer ← source[i]?
    store array i pointer

def resize (heap : Heap) : Option Heap := do
  let capacity := 2 * heap.capacity
  let array ← copy heap.array heap.curSize (replicate capacity none)
  return { heap with array, capacity }

/-- `time_heap(cap)` -/
def timeHeap (capacity : ℕ) : Heap where
  timers := fun _ => none
  array := replicate capacity none
  capacity := capacity
  curSize := 0
  popped := []
  fired := []

/-- The loop that calls `percolate_down` from `i - 1` down to `0`. -/
def heapify : ℕ → Heap → Option Heap
  | 0, heap => some heap
  | i + 1, heap => do
    let heap ← percolateDown heap i
    heapify i heap

/-- `time_heap(init_array, size, capacity)`; the constructor throws when
`capacity < size`. -/
def timeHeapOf (timers : Timers) (initArray : Pointers) (size capacity : ℕ) :
    Option (Except Unit Heap) :=
  if capacity < size then
    some (.error ())
  else do
    let array := replicate capacity none
    let heap : Heap := ⟨timers, array, capacity, size, [], []⟩
    if size ≠ 0 then
      let array ← copy initArray size array
      let heap ← heapify ((size - 1) / 2 + 1) { heap with array }
      return .ok heap
    else
      return .ok heap

/-- The loop of `add_timer` with the store behind it. -/
def climbLoop (timers : Timers) (timer : Addr) (hole : ℕ) (array : Pointers) : Option Pointers :=
  if 0 < hole then do
    let above ← expireAt timers array ((hole - 1) / 2)
    let expire ← expireOf timers (some timer)
    if above ≤ expire then
      store array hole (some timer)
    else
      let pointer ← array[(hole - 1) / 2]?
      let array ← store array hole pointer
      climbLoop timers timer ((hole - 1) / 2) array
  else
    store array hole (some timer)
termination_by hole

/-- `if (cur_size >= capacity) resize();` -/
def grow (heap : Heap) : Option Heap :=
  if heap.curSize ≥ heap.capacity then resize heap else some heap

def addTimer (heap : Heap) (timer : Addr) : Option Heap := do
  let heap ← grow heap
  let array ← climbLoop heap.timers timer heap.curSize heap.array
  return { heap with array, curSize := heap.curSize + 1 }

def delTimer (heap : Heap) (timer : Addr) : Option Heap := do
  let data ← heap.timers timer
  return { heap with
    timers := update heap.timers timer
      (some { data with callback := false }) }

/-- `top`; the inner `none` is `NULL`. -/
def top (heap : Heap) : Option (Option Addr) :=
  if heap.curSize = 0 then some none else heap.array[0]?

def popTimer (heap : Heap) : Option Heap :=
  if heap.curSize = 0 then
    some heap
  else do
    match ← heap.array[0]? with
    | none => return heap
    | some timer =>
      let _ ← heap.timers timer
      let curSize := heap.curSize - 1
      let pointer ← heap.array[curSize]?
      let array ← store heap.array 0 pointer
      percolateDown
        { heap with
          timers := update heap.timers timer none
          popped := heap.popped ++ [timer]
          array, curSize } 0

/-- The loop of `tick`. -/
def tickLoop (cur : ℤ) : ℕ → Heap → Option Addr → Option Heap
  | 0, _, _ => none
  | fuel + 1, heap, tmp =>
    if heap.curSize = 0 then
      some heap
    else
      match tmp with
      | none => some heap
      | some timer => do
        let data ← heap.timers timer
        if cur < data.expire then
          return heap
        else
          let first ← (← heap.array[0]?)
          let firstData ← heap.timers first
          let fired :=
            if firstData.callback then heap.fired ++ [first]
            else heap.fired
          let heap ← popTimer { heap with fired }
          let tmp ← heap.array[0]?
          tickLoop cur fuel heap tmp

def tick (heap : Heap) (cur : ℤ) : Option Heap := do
  let tmp ← heap.array[0]?
  tickLoop cur (heap.curSize + 1) heap tmp

/-! ## The heap in memory -/

def expire (live : Timers) (timer : Addr) : ℤ :=
  ((live timer).map HeapTimer.expire).getD 0

/-- The first positions of the array, except one, hold pointers to timers. -/
structure Stored (timers : Timers) (array : Pointers) (size hole : ℕ)
    (slots : ℕ → Addr) : Prop where
  pointers : ∀ i < size, i ≠ hole → array[i]? = some (some (slots i))
  alive : ∀ i < size, (timers (slots i)).isSome = true
  fits : size ≤ array.length

variable {timers : Timers} {array : Pointers} {size hole start i : ℕ}
  {slots : ℕ → Addr} {pointer : Option Addr} {timer : Addr}

theorem expireOf_eq (isLive : (timers timer).isSome = true) :
    expireOf timers (some timer) = some (expire timers timer) := by
  obtain ⟨data, isData⟩ := isSome_iff_exists.mp isLive
  simp [expireOf, expire, isData]

theorem store_eq (pointer : Option Addr) (inside : i < array.length) :
    store array i pointer = some (array.set i pointer) := if_pos inside

namespace Stored

section

variable (stored : Stored timers array size hole slots)
include stored

theorem expireAt_eq (inside : i < size) (apart : i ≠ hole) :
    expireAt timers array i = some (expire timers (slots i)) := by
  rw [expireAt, stored.pointers i inside apart, bind_some, expireOf_eq (stored.alive i inside)]

theorem fill (inside : hole < size) :
    ∀ i < size, (array.set hole (some (slots hole)))[i]? = some (some (slots i)) := by
  intro i insideI
  have fits := stored.fits
  by_cases isHole : i = hole
  · rw [isHole, getElem?_set_self (inside.trans_le fits)]
  · rw [getElem?_set_ne (Ne.symm isHole)]
    exact stored.pointers i insideI isHole

/-- The hole moves to another position, whose pointer is stored in it. -/
theorem move (inside : hole < size) (insideI : i < size) :
    Stored timers (array.set hole (some (slots i))) size i (slots ∘ Equiv.swap hole i) where
  pointers := by
    intro position insidePosition notI
    simp only [comp_apply]
    by_cases isHole : position = hole
    · rw [isHole, swap_apply_left, getElem?_set_self (inside.trans_le stored.fits)]
    · rw [getElem?_set_ne (Ne.symm isHole), swap_apply_of_ne_of_ne isHole notI]
      exact stored.pointers position insidePosition isHole
  alive := by
    intro position insidePosition
    obtain ⟨moves, movesInside, same⟩ := Rearranged.swap slots inside insideI
    rw [same]
    exact stored.alive _ ((movesInside position).mpr insidePosition)
  fits := by
    rw [length_set]
    exact stored.fits

end

end Stored

/-- The array after the timers at its first positions have been
rearranged. -/
structure Settled (array after : Pointers) (size : ℕ) (slots slotsAfter : ℕ → Addr) : Prop where
  pointers : ∀ i < size, after[i]? = some (some (slotsAfter i))
  length : after.length = array.length
  rearranged : Rearranged size slots slotsAfter

variable (stored : Stored timers array size hole slots)

include stored in
theorem Stored.settled (inside : hole < size) :
    Settled array (array.set hole (some (slots hole))) size slots slots where
  pointers := stored.fill inside
  length := length_set
  rearranged := .refl size slots

variable {after : Pointers} {slotsAfter : ℕ → Addr}

theorem Settled.after_move
    (settled : Settled (array.set hole pointer) after size (slots ∘ Equiv.swap hole i) slotsAfter)
    (inside : hole < size) (insideI : i < size) : Settled array after size slots slotsAfter where
  __ := settled
  length := settled.length.trans length_set
  rearranged := (Rearranged.swap slots inside insideI).trans settled.rearranged

/-! ## Moving down -/

/-- The child that `percolate_down` compares with. -/
structure SmallestChild (timers : Timers) (slots : ℕ → Addr) (size hole child : ℕ) : Prop where
  inside : child < size
  notRoot : 0 < child
  isChild : parent child = hole
  least : ∀ i, 0 < i → i < size → parent i = hole →
    expire timers (slots child) ≤ expire timers (slots i)

include stored in
theorem Stored.smallest_child (hasChild : hole * 2 + 1 < size) :
    ∃ right, rightSmaller timers array size (hole * 2 + 1) = some right ∧
      SmallestChild timers slots size hole (if right then hole * 2 + 2 else hole * 2 + 1) := by
  have left := stored.expireAt_eq hasChild (by omega)
  by_cases hasRight : hole * 2 + 2 < size
  · have right := stored.expireAt_eq hasRight (by omega)
    refine ⟨decide (expire timers (slots (hole * 2 + 2)) <
      expire timers (slots (hole * 2 + 1))), ?_, ?_⟩
    · rw [rightSmaller, if_pos hasRight, left, right]
      rfl
    · by_cases smaller : expire timers (slots (hole * 2 + 2)) < expire timers (slots (hole * 2 + 1))
      · rw [decide_eq_true smaller, if_pos rfl]
        refine ⟨hasRight, by omega, by rw [parent]; omega, ?_⟩
        intro i positive inside isChild
        rcases (parent_eq_iff positive).mp isChild with isLeft | isRight
        · rw [isLeft, mul_comm 2 hole]
          exact smaller.le
        · rw [isRight, mul_comm 2 hole]
      · rw [decide_eq_false smaller, if_neg Bool.false_ne_true]
        refine ⟨hasChild, by omega, by rw [parent]; omega, ?_⟩
        intro i positive inside isChild
        rcases (parent_eq_iff positive).mp isChild with isLeft | isRight
        · rw [isLeft, mul_comm 2 hole]
        · rw [isRight, mul_comm 2 hole]
          exact not_lt.mp smaller
  · refine ⟨false, ?_, hasChild, by simp, by rw [parent]; simp, ?_⟩
    · rw [rightSmaller, if_neg hasRight]
      rfl
    · intro i positive inside isChild
      rcases (parent_eq_iff positive).mp isChild with isLeft | isRight
      · rw [isLeft, mul_comm 2 hole]
        rfl
      · omega

include stored in
/-- The loop ends with the hole filled and the order established from
`start` on. -/
theorem percolateLoop_spec (inside : hole < size) (above : start ≤ hole)
    (ready : DownReady (expire timers ∘ slots) size start hole) :
    ∃ after slotsAfter, percolateLoop timers size (some (slots hole)) hole array = some after ∧
      Settled array after size slots slotsAfter ∧
      OrderedFrom (expire timers ∘ slotsAfter) size start := by
  induction measure : size - hole using Nat.strongRecOn generalizing array hole slots with
  | ind remaining ih =>
    have fits := stored.fits
    have insideArray : hole < array.length := inside.trans_le fits
    by_cases hasChild : hole * 2 + 1 < size
    · obtain ⟨right, found, smallest⟩ := stored.smallest_child hasChild
      generalize isChild : (if right then hole * 2 + 2 else hole * 2 + 1) = child at smallest
      have apart : child ≠ hole := by
        have lower := parent_lt smallest.notRoot
        have same := smallest.isChild
        omega
      have childExpire := stored.expireAt_eq smallest.inside apart
      have holeExpire := expireOf_eq (stored.alive hole inside)
      by_cases smaller : expire timers (slots child) < expire timers (slots hole)
      · have moved := stored.move inside smallest.inside
        have nextReady := ready.step above smallest.notRoot
          smallest.inside smallest.isChild smallest.least smaller.le
        have lower := parent_lt smallest.notRoot
        rw [smallest.isChild] at lower
        obtain ⟨after, slotsAfter, looped, settled, ordered⟩ := ih (size - child)
          (by rw [← measure]; exact Nat.sub_lt_sub_left inside lower)
          moved smallest.inside (above.trans lower.le) nextReady rfl
        rw [comp_apply, swap_apply_right] at looped
        refine ⟨after, slotsAfter, ?_, settled.after_move inside smallest.inside, ordered⟩
        rw [percolateLoop, if_pos hasChild, found]
        simp only [some_bind, isChild, childExpire, holeExpire, if_pos smaller,
          stored.pointers child smallest.inside apart, store_eq _ insideArray]
        exact looped
      · refine ⟨_, slots, ?_, stored.settled inside, ready.finish ?_⟩
        · rw [percolateLoop, if_pos hasChild, found]
          simp only [some_bind, isChild, childExpire, holeExpire, if_neg smaller]
          exact store_eq _ insideArray
        · intro i positive insideI isChildI
          exact (not_lt.mp smaller).trans (smallest.least i positive insideI isChildI)
    · refine ⟨_, slots, ?_, stored.settled inside, ready.finish ?_⟩
      · rw [percolateLoop, if_neg hasChild]
        exact store_eq _ insideArray
      · intro i positive insideI isChildI
        rcases (parent_eq_iff positive).mp isChildI with isLeft | isRight
        · omega
        · omega

/-- `percolate_down` orders the heap from `hole` on when it is ordered
behind it. -/
theorem percolateDown_spec (heap : Heap)
    (pointers : ∀ i < heap.curSize, heap.array[i]? = some (some (slots i)))
    (alive : ∀ i < heap.curSize, (heap.timers (slots i)).isSome = true)
    (fits : heap.curSize ≤ heap.array.length) (inside : hole < heap.curSize)
    (ordered : OrderedFrom (expire heap.timers ∘ slots) heap.curSize (hole + 1)) :
    ∃ after slotsAfter, percolateDown heap hole = some { heap with array := after } ∧
      Settled heap.array after heap.curSize slots slotsAfter ∧
      OrderedFrom (expire heap.timers ∘ slotsAfter) heap.curSize hole := by
  have stored : Stored heap.timers heap.array heap.curSize hole slots :=
    ⟨fun i insideI _ => pointers i insideI, alive, fits⟩
  obtain ⟨after, slotsAfter, looped, settled, result⟩ :=
    percolateLoop_spec stored inside (le_refl hole) (.of_orderedFrom ordered)
  refine ⟨after, slotsAfter, ?_, settled, result⟩
  rw [percolateDown, pointers hole inside]
  simp only [some_bind, looped]
  rfl

theorem percolateDown_of_empty (heap : Heap) (empty : heap.curSize = 0)
    (inside : 0 < heap.array.length) :
    percolateDown heap 0 = some { heap with array := heap.array.set 0 heap.array[0] } := by
  have noChild : ¬ (0 * 2 + 1 < heap.curSize) := by omega
  rw [percolateDown, getElem?_eq_getElem inside]
  simp only [some_bind]
  rw [percolateLoop, if_neg noChild, store_eq _ inside]
  rfl

/-! ## Moving up -/

include stored in
theorem climbLoop_spec (inside : hole < size) (ready : UpReady (expire timers ∘ slots) size hole) :
    ∃ after slotsAfter, climbLoop timers (slots hole) hole array = some after ∧
      Settled array after size slots slotsAfter ∧ Ordered (expire timers ∘ slotsAfter) size := by
  induction hole using Nat.strongRecOn generalizing array slots with
  | ind hole ih =>
    have insideArray : hole < array.length := inside.trans_le stored.fits
    by_cases positive : 0 < hole
    · have lower := parent_lt positive
      have insideParent := lower.trans inside
      have parentExpire := stored.expireAt_eq insideParent lower.ne
      have holeExpire := expireOf_eq (stored.alive hole inside)
      rw [parent] at lower insideParent parentExpire
      by_cases notLater : expire timers (slots ((hole - 1) / 2)) ≤ expire timers (slots hole)
      · refine ⟨_, slots, ?_, stored.settled inside, ready.finish fun _ => notLater⟩
        rw [climbLoop, if_pos positive, parentExpire, holeExpire]
        simp only [some_bind, if_pos notLater]
        exact store_eq _ insideArray
      · obtain ⟨after, slotsAfter, looped, settled, ordered⟩ := ih ((hole - 1) / 2) lower
          (stored.move inside insideParent) insideParent (ready.step positive inside
            (le_of_lt (not_le.mp notLater)))
        rw [comp_apply, swap_apply_right] at looped
        refine ⟨after, slotsAfter, ?_, settled.after_move inside insideParent, ordered⟩
        rw [climbLoop, if_pos positive, parentExpire, holeExpire]
        simp only [some_bind, if_neg notLater,
          stored.pointers _ insideParent lower.ne, store_eq _ insideArray]
        exact looped
    · refine ⟨_, slots, ?_, stored.settled inside, ready.finish fun again => absurd again positive⟩
      rw [climbLoop, if_neg positive]
      exact store_eq _ insideArray

/-! ## The whole heap -/

/-- The array holds exactly the live timers, each once, in heap order. -/
structure Represents (heap : Heap) (live : Timers) (slots : ℕ → Addr) : Prop where
  timers : heap.timers = live
  pointers : ∀ i < heap.curSize, heap.array[i]? = some (some (slots i))
  ordered : Ordered (expire live ∘ slots) heap.curSize
  members : ∀ timer, (live timer).isSome = true ↔ ∃ i < heap.curSize, slots i = timer
  distinct : ∀ i < heap.curSize, ∀ j < heap.curSize, slots i = slots j → i = j
  length : heap.array.length = heap.capacity
  fits : heap.curSize ≤ heap.capacity
  positive : 1 ≤ heap.capacity

variable {heap : Heap} {live : Timers} {data : HeapTimer}

theorem expire_update {other : Addr} {change : Option HeapTimer} (apart : other ≠ timer) :
    expire (update live timer change) other = expire live other := by
  rw [expire, expire, update_of_ne apart]

namespace Represents

section

variable (rep : Represents heap live slots)
include rep

theorem alive (inside : i < heap.curSize) :
    (live (slots i)).isSome = true := (rep.members (slots i)).mpr ⟨i, inside, rfl⟩

theorem slot_ne (unused : live timer = none) (inside : i < heap.curSize) : slots i ≠ timer := by
  intro same
  have isLive := rep.alive inside
  rw [same, unused] at isLive
  cases isLive

theorem root_inside : 0 < heap.array.length := rep.length ▸ rep.positive

theorem root_data (nonempty : heap.curSize ≠ 0) :
    ∃ data, live (slots 0) = some data ∧ heap.timers (slots 0) = some data := by
  rw [rep.timers]
  simpa using isSome_iff_exists.mp (rep.alive (pos_of_ne_zero nonempty))

theorem none_live (empty : heap.curSize = 0) (timer : Addr) : live timer = none := by
  by_contra isLive
  obtain ⟨i, inside, -⟩ := (rep.members timer).mp (isSome_iff_ne_none.mpr isLive)
  omega

end

end Represents

theorem copy_spec {source : Pointers} {count : ℕ}
    (inSource : count ≤ source.length) (inArray : count ≤ array.length) :
    ∃ after, copy source count array = some after ∧ after.length = array.length ∧
      ∀ i < count, after[i]? = source[i]? := by
  induction count with
  | zero => exact ⟨array, rfl, rfl, fun i inside => absurd inside (not_lt_zero i)⟩
  | succ count ih =>
    obtain ⟨copied, isCopied, length, same⟩ := ih (le_of_succ_le inSource) (le_of_succ_le inArray)
    have insideCopied : count < copied.length := by omega
    refine ⟨copied.set count source[count], ?_, ?_, ?_⟩
    · simp only [copy, isCopied, some_bind, getElem?_eq_getElem inSource]
      exact store_eq _ insideCopied
    · rw [length_set, length]
    · intro i inside
      by_cases isLast : i = count
      · rw [isLast, getElem?_set_self insideCopied, getElem?_eq_getElem inSource]
      · rw [getElem?_set_ne (Ne.symm isLast)]
        exact same i (by omega)

section

variable (heap) (length : heap.array.length = heap.capacity)
  (fits : heap.curSize ≤ heap.capacity) (positive : 1 ≤ heap.capacity)

include length fits positive

theorem Represents.of_settled (settled : Settled heap.array after heap.curSize slots slotsAfter)
    (timers : heap.timers = live) (ordered : Ordered (expire live ∘ slotsAfter) heap.curSize)
    (members : ∀ timer, (live timer).isSome = true ↔ ∃ i < heap.curSize, slots i = timer)
    (distinct : ∀ i < heap.curSize, ∀ j < heap.curSize, slots i = slots j → i = j) :
    Represents { heap with array := after } live slotsAfter where
  __ := settled
  timers := timers
  ordered := ordered
  members := fun timer =>
    (members timer).trans settled.rearranged.exists_iff.symm
  distinct := settled.rearranged.distinct distinct
  length := settled.length.trans length
  fits := fits
  positive := positive

/-- There is room for one more timer, after a call of `resize` if the array
is full. -/
theorem grow_spec (pointers : ∀ i < heap.curSize, heap.array[i]? = some (some (slots i))) :
    ∃ array capacity, grow heap = some { heap with array, capacity } ∧
      (∀ i < heap.curSize, array[i]? = some (some (slots i))) ∧
      array.length = capacity ∧ heap.curSize < capacity := by
  by_cases full : heap.curSize ≥ heap.capacity
  · have inArray : heap.curSize ≤ (replicate (2 * heap.capacity) (none : Option Addr)).length := by
      rw [length_replicate]
      omega
    obtain ⟨array, copied, sameLength, same⟩ := copy_spec (fits.trans length.symm.le) inArray
    refine ⟨array, 2 * heap.capacity, ?_, ?_, ?_, by omega⟩
    · rw [grow, if_pos full, resize, copied]
      rfl
    · intro i inside
      rw [same i inside]
      exact pointers i inside
    · rw [sameLength, length_replicate]
  · exact ⟨heap.array, heap.capacity, if_neg full, pointers, length, not_le.mp full⟩

end

def newTimer (heap : Heap) (timer : Addr) (data : HeapTimer) : Heap :=
  { heap with timers := update heap.timers timer (some data) }

theorem addTimer_spec (data : HeapTimer)
    (rep : Represents heap live slots) (unused : live timer = none) :
    ∃ after slotsAfter, addTimer (newTimer heap timer data) timer = some after ∧
      Represents after (update live timer (some data)) slotsAfter := by
  obtain ⟨array, capacity, grown, pointers, length, room⟩ :=
    grow_spec (newTimer heap timer data) rep.length rep.fits rep.positive rep.pointers
  have size : (newTimer heap timer data).curSize = heap.curSize := rfl
  rw [size] at pointers room
  let placed := update slots heap.curSize timer
  have atEnd : placed heap.curSize = timer := update_self ..
  have inFront : ∀ i < heap.curSize, placed i = slots i := fun i inside =>
    update_of_ne inside.ne ..
  have stored : Stored (update live timer (some data)) array
      (heap.curSize + 1) heap.curSize placed := by
    refine ⟨?_, ?_, by omega⟩
    · intro i inside apart
      rw [inFront i (by omega)]
      exact pointers i (by omega)
    · intro i inside
      rcases Nat.lt_succ_iff_lt_or_eq.mp inside with before | isEnd
      · rw [inFront i before, update_of_ne (rep.slot_ne unused before)]
        exact rep.alive before
      · rw [isEnd, atEnd, update_self]
        rfl
  have ordered : Ordered (expire (update live timer (some data)) ∘ placed) heap.curSize := by
    apply rep.ordered.congr
    intro i inside
    rw [comp_apply, comp_apply, inFront i inside, expire_update (rep.slot_ne unused inside)]
  have members : ∀ other, (update live timer (some data) other).isSome = true ↔
      ∃ i < heap.curSize + 1, placed i = other := by
    intro other
    rw [Nat.exists_lt_succ_right, atEnd]
    by_cases same : other = timer
    · simp [same]
    · rw [update_of_ne same, rep.members]
      constructor
      · intro found
        obtain ⟨i, inside, isOther⟩ := found
        exact Or.inl ⟨i, inside, (inFront i inside).trans isOther⟩
      · intro found
        rcases found with ⟨i, inside, isOther⟩ | isTimer
        · exact ⟨i, inside, (inFront i inside).symm.trans isOther⟩
        · exact absurd isTimer.symm same
  have distinct : ∀ i < heap.curSize + 1, ∀ j < heap.curSize + 1, placed i = placed j → i = j := by
    intro i insideI j insideJ same
    rcases Nat.lt_succ_iff_lt_or_eq.mp insideI with beforeI | endI
    · rcases Nat.lt_succ_iff_lt_or_eq.mp insideJ with beforeJ | endJ
      · rw [inFront i beforeI, inFront j beforeJ] at same
        exact rep.distinct i beforeI j beforeJ same
      · rw [inFront i beforeI, endJ, atEnd] at same
        exact absurd same (rep.slot_ne unused beforeI)
    · rcases Nat.lt_succ_iff_lt_or_eq.mp insideJ with beforeJ | endJ
      · rw [inFront j beforeJ, endI, atEnd] at same
        exact absurd same.symm (rep.slot_ne unused beforeJ)
      · rw [endI, endJ]
  obtain ⟨after, slotsAfter, climbed, settled, result⟩ :=
    climbLoop_spec stored (lt_add_one _) (.of_ordered ordered)
  rw [atEnd] at climbed
  refine ⟨{ heap with
    timers := update live timer (some data), array := after
    capacity, curSize := heap.curSize + 1 }, slotsAfter, ?_, ?_⟩
  · rw [← rep.timers] at climbed
    rw [addTimer, grown, ← rep.timers]
    simp only [newTimer, some_bind, climbed]
    rfl
  · exact Represents.of_settled ⟨update live timer (some data),
        array, capacity, heap.curSize + 1, heap.popped, heap.fired⟩
      length room (lt_of_le_of_lt (Nat.zero_le _) room) settled rfl result members distinct

variable (rep : Represents heap live slots)

include rep in
theorem delTimer_spec (isLive : live timer = some data) :
    ∃ after, delTimer heap timer = some after ∧
      Represents after (update live timer (some { data with callback := false })) slots := by
  have found : heap.timers timer = some data := by
    rw [rep.timers]
    exact isLive
  have sameExpire : ∀ other, expire (update live timer (some { data with callback := false }))
      other = expire live other := by
    intro other
    by_cases same : other = timer
    · rw [same, expire, expire, update_self, isLive]
      rfl
    · exact expire_update same
  refine ⟨{ heap with
    timers := update heap.timers timer
      (some { data with callback := false }) }, ?_, ?_⟩
  · rw [delTimer, found]
    rfl
  · refine { rep with timers := ?_, ordered := ?_, members := ?_ }
    · rw [rep.timers]
    · apply rep.ordered.congr
      intro i _
      exact sameExpire (slots i)
    · intro other
      rw [← rep.members]
      by_cases same : other = timer
      · rw [same, update_self, isLive]
        rfl
      · rw [update_of_ne same]

/-! ### Popping -/

theorem update_root (slots : ℕ → Addr) (last i : ℕ) :
    update slots 0 (slots last) i = slots (if i = 0 then last else i) := by
  rw [update_apply]
  split <;> rfl

section

variable (rep : Represents heap live slots)
include rep

theorem Represents.moved_members (other : Addr) :
    (update live (slots 0) none other).isSome = true ↔
      ∃ i < heap.curSize - 1, update slots 0 (slots (heap.curSize - 1)) i = other := by
  simp only [update_root]
  by_cases isRoot : other = slots 0
  · rw [isRoot, update_self]
    refine iff_of_false Bool.false_ne_true ?_
    rintro ⟨i, inside, again⟩
    have same := rep.distinct _ (by split <;> omega) 0 (by omega) again
    split at same <;> omega
  · rw [update_of_ne isRoot, rep.members]
    constructor
    · rintro ⟨i, inside, rfl⟩
      have notRoot : i ≠ 0 := fun atRoot => isRoot (by rw [atRoot])
      by_cases isLast : i = heap.curSize - 1
      · exact ⟨0, by omega, by rw [if_pos rfl, isLast]⟩
      · exact ⟨i, by omega, by rw [if_neg notRoot]⟩
    · rintro ⟨i, inside, isOther⟩
      exact ⟨_, by split <;> omega, isOther⟩

/-- The heap while `pop_timer` calls `percolate_down`. -/
def moved (heap : Heap) (slots : ℕ → Addr) : Heap :=
  { heap with
    timers := update heap.timers (slots 0) none
    popped := heap.popped ++ [slots 0]
    array := heap.array.set 0 (some (slots (heap.curSize - 1)))
    curSize := heap.curSize - 1 }

theorem Represents.popTimer_eq (nonempty : heap.curSize ≠ 0) :
    popTimer heap = percolateDown (moved heap slots) 0 := by
  have zeroInside : 0 < heap.curSize := pos_of_ne_zero nonempty
  have lastInside : heap.curSize - 1 < heap.curSize := by omega
  obtain ⟨data, -, found⟩ := rep.root_data nonempty
  rw [popTimer, if_neg nonempty, rep.pointers 0 zeroInside]
  simp only [some_bind, found, rep.pointers _ lastInside, store_eq _ rep.root_inside]
  rfl

theorem Represents.moved_pointers :
    ∀ i < heap.curSize - 1, (moved heap slots).array[i]? = some (some
      (update slots 0 (slots (heap.curSize - 1)) i)) := by
  intro i inside
  rw [moved]
  by_cases atRoot : i = 0
  · rw [atRoot, getElem?_set_self rep.root_inside, update_self]
  · rw [getElem?_set_ne (Ne.symm atRoot), update_of_ne atRoot]
    exact rep.pointers i (by omega)

theorem Represents.moved_ordered :
    OrderedFrom (expire (update live (slots 0) none) ∘
      update slots 0 (slots (heap.curSize - 1))) (heap.curSize - 1) 1 := by
  have same : ∀ i, i ≠ 0 → i < heap.curSize → (expire (update live (slots 0) none) ∘
      update slots 0 (slots (heap.curSize - 1))) i = expire live (slots i) := by
    intro i notRoot inside
    rw [comp_apply, update_of_ne notRoot]
    apply expire_update
    intro isRoot
    exact notRoot (rep.distinct i inside 0 (by omega) isRoot)
  intro i positive inside above
  have below := parent_lt positive
  rw [same i (by omega) (by omega), same (parent i) (by omega) (by omega)]
  exact rep.ordered i positive (by omega)

theorem popTimer_spec (nonempty : heap.curSize ≠ 0) :
    ∃ after slotsAfter, popTimer heap = some after ∧ after.popped = heap.popped ++ [slots 0] ∧
      after.fired = heap.fired ∧ after.curSize + 1 = heap.curSize ∧
      Represents after (update live (slots 0) none) slotsAfter := by
  have length : (moved heap slots).array.length = heap.capacity := length_set.trans rep.length
  have size : (moved heap slots).curSize + 1 = heap.curSize :=
    Nat.sub_add_cancel (Nat.pos_of_ne_zero nonempty)
  have fits : (moved heap slots).curSize ≤ heap.capacity := (Nat.sub_le _ 1).trans rep.fits
  have timers : (moved heap slots).timers = update live (slots 0) none := by
    rw [← rep.timers]
    rfl
  have members := rep.moved_members
  rw [rep.popTimer_eq nonempty]
  by_cases last : heap.curSize - 1 = 0
  · have inside : 0 < (moved heap slots).array.length := length.symm ▸ rep.positive
    have empty : (moved heap slots).curSize = 0 := last
    have noneInside : ∀ i, ¬ i < (moved heap slots).curSize := by
      intro i
      rw [empty]
      exact Nat.not_lt_zero i
    refine ⟨_, update slots 0 (slots (heap.curSize - 1)),
      percolateDown_of_empty _ empty inside, rfl, rfl, size, timers, ?_, ?_,
      members, ?_, length_set.trans length, fits, rep.positive⟩
    · exact fun i impossible => absurd impossible (noneInside i)
    · exact fun i _ impossible => absurd impossible (noneInside i)
    · exact fun i impossible => absurd impossible (noneInside i)
  · have alive : ∀ i < (moved heap slots).curSize, ((moved heap slots).timers
        (update slots 0 (slots (heap.curSize - 1)) i)).isSome =
        true := by
      intro i inside
      rw [timers]
      exact (members _).mpr ⟨i, inside, rfl⟩
    have ordered := rep.moved_ordered
    rw [← timers] at ordered
    obtain ⟨after, slotsAfter, percolated, settled, result⟩ :=
      percolateDown_spec (moved heap slots) rep.moved_pointers alive
        (fits.trans length.symm.le) (Nat.pos_of_ne_zero last) ordered
    rw [timers] at result
    refine ⟨_, slotsAfter, percolated, rfl, rfl, size,
      .of_settled (moved heap slots) length fits rep.positive settled timers result.ordered
        members ?_⟩
    intro i insideI j insideJ same
    rw [update_root, update_root] at same
    have before := rep.distinct _ (by split <;> omega) _ (by split <;> omega) same
    split at before <;> split at before <;> omega

end

/-! ## The constructors -/

variable {capacity : ℕ}

theorem timeHeap_represents (positive : 1 ≤ capacity) (slots : ℕ → Addr) :
    Represents (timeHeap capacity) (fun _ => none) slots where
  timers := rfl
  pointers := fun i impossible => absurd impossible (not_lt_zero i)
  ordered := fun i _ impossible => absurd impossible (not_lt_zero i)
  members := by
    intro timer
    simp [timeHeap]
  distinct := fun i impossible => absurd impossible (not_lt_zero i)
  length := length_replicate
  fits := zero_le _
  positive := positive

theorem heapify_spec (heap : Heap) (count : ℕ)
    (pointers : ∀ i < heap.curSize, heap.array[i]? = some (some (slots i)))
    (alive : ∀ i < heap.curSize, (heap.timers (slots i)).isSome = true)
    (fits : heap.curSize ≤ heap.array.length) (inside : count ≤ heap.curSize)
    (ordered : OrderedFrom (expire heap.timers ∘ slots) heap.curSize count) :
    ∃ after slotsAfter, heapify count heap = some { heap with array := after } ∧
      Settled heap.array after heap.curSize slots slotsAfter ∧
      OrderedFrom (expire heap.timers ∘ slotsAfter) heap.curSize 0 := by
  induction count generalizing heap slots with
  | zero => exact ⟨heap.array, slots, rfl, ⟨pointers, rfl, .refl _ slots⟩, ordered⟩
  | succ count ih =>
    obtain ⟨middle, middleSlots, percolated, settled, middleOrdered⟩ :=
      percolateDown_spec heap pointers alive fits inside ordered
    have middleAlive : ∀ i < heap.curSize, (heap.timers (middleSlots i)).isSome = true := by
      intro i insideI
      obtain ⟨j, insideJ, same⟩ := settled.rearranged.exists_iff.mp ⟨i, insideI, rfl⟩
      rw [← same]
      exact alive j insideJ
    obtain ⟨after, slotsAfter, looped, settledAfter, result⟩ :=
      ih { heap with array := middle } settled.pointers
        middleAlive (fits.trans settled.length.symm.le)
        (le_of_succ_le inside) middleOrdered
    refine ⟨after, slotsAfter, ?_, ⟨settledAfter.pointers, settledAfter.length.trans settled.length,
      settled.rearranged.trans settledAfter.rearranged⟩, result⟩
    rw [heapify, percolated]
    exact looped

/-- The second constructor is given distinct timers, which are all the
timers there are. -/
structure Initial (timers : Timers) (initArray : Pointers) (size : ℕ)
    (slots : ℕ → Addr) : Prop where
  pointers : ∀ i < size, initArray[i]? = some (some (slots i))
  distinct : ∀ i < size, ∀ j < size, slots i = slots j → i = j
  members : ∀ timer, (timers timer).isSome = true ↔ ∃ i < size, slots i = timer

theorem timeHeapOf_spec {initArray : Pointers} (initial : Initial timers initArray size slots)
    (fits : size ≤ capacity) (positive : 1 ≤ capacity) :
    ∃ heap slotsAfter, timeHeapOf timers initArray size capacity = some (.ok heap) ∧
      Represents heap timers slotsAfter := by
  have noThrow : ¬ capacity < size := not_lt.mpr fits
  by_cases nonempty : size ≠ 0
  · have inSource : size ≤ initArray.length := by
      by_contra tooLong
      have atEnd := initial.pointers (size - 1) (by omega)
      rw [getElem?_eq_none (by omega)] at atEnd
      cases atEnd
    have inArray : size ≤ (replicate capacity (none : Option Addr)).length := by
      rw [length_replicate]
      exact fits
    obtain ⟨array, copied, length, same⟩ := copy_spec inSource inArray
    rw [length_replicate] at length
    have leaves : OrderedFrom (expire timers ∘ slots) size ((size - 1) / 2 + 1) := by
      intro i notRoot inside above
      rw [parent] at above
      omega
    have half : (size - 1) / 2 + 1 ≤ size := by omega
    obtain ⟨after, slotsAfter, looped, settled, ordered⟩ :=
      heapify_spec ⟨timers, array, capacity, size, [], []⟩ ((size - 1) / 2 + 1)
        (fun i inside => (same i inside).trans (initial.pointers i inside))
        (fun i inside => (initial.members _).mpr ⟨i, inside, rfl⟩)
        (fits.trans length.symm.le) half leaves
    refine ⟨_, slotsAfter, ?_, .of_settled ⟨timers, array, capacity, size, [], []⟩ length
      fits positive settled rfl ordered.ordered initial.members initial.distinct⟩
    simp only [timeHeapOf, if_neg noThrow, if_pos nonempty, copied, looped,
      some_bind, Option.pure_def]
  · have isEmpty : size = 0 := Decidable.not_not.mp nonempty
    subst isEmpty
    refine ⟨⟨timers, replicate capacity none, capacity, 0, [], []⟩,
      slots, ?_, rfl, ?_, ?_, initial.members, initial.distinct, length_replicate, fits, positive⟩
    · simp [timeHeapOf]
    · exact fun i impossible => absurd impossible (not_lt_zero i)
    · exact fun i _ impossible => absurd impossible (not_lt_zero i)

/-! ## Ticking -/

/-- The timers that a tick pops, in an order in which it may pop them. -/
structure Expires (live : Timers) (cur : ℤ) (due : List Addr) : Prop where
  once : due.Nodup
  sorted : due.Pairwise fun first second =>
    expire live first ≤ expire live second
  exactly : ∀ timer, timer ∈ due ↔ ∃ data, live timer = some data ∧ data.expire ≤ cur

def survivors (live : Timers) (cur : ℤ) : Timers :=
  fun timer => (live timer).filter fun data => cur < data.expire

def calls (live : Timers) (timer : Addr) : Bool :=
  (live timer).any HeapTimer.callback

variable {cur : ℤ} {due : List Addr}

theorem expire_eq (isLive : live timer = some data) : expire live timer = data.expire := by
  rw [expire, isLive]
  rfl

section NoneDue

variable (pending : ∀ timer data, live timer = some data → cur < data.expire)

include pending

theorem expires_nil : Expires live cur [] where
  once := nodup_nil
  sorted := Pairwise.nil
  exactly := by
    intro timer
    constructor
    · exact nofun
    · intro expired
      obtain ⟨data, isLive, bound⟩ := expired
      exact absurd (pending timer data isLive) (not_lt.mpr bound)

theorem survivors_eq_self : survivors live cur = live := by
  funext timer
  rw [survivors]
  cases isLive : live timer with
  | none => rfl
  | some data => exact filter_some_pos (by simpa using pending timer data isLive)

end NoneDue

theorem Expires.cons (isLive : live timer = some data) (expired : data.expire ≤ cur)
    (first : ∀ other, (live other).isSome = true →
      expire live timer ≤ expire live other) (expires : Expires (update live timer none) cur due) :
    Expires live cur (timer :: due) := by
  have others : ∀ other ∈ due, other ≠ timer ∧
      ∃ data, live other = some data ∧ data.expire ≤ cur := by
    intro other member
    obtain ⟨otherData, isOther, bound⟩ := (expires.exactly other).mp member
    have apart : other ≠ timer := by
      intro same
      rw [same, update_self] at isOther
      cases isOther
    rw [update_of_ne apart] at isOther
    exact ⟨apart, otherData, isOther, bound⟩
  refine ⟨nodup_cons.mpr ⟨?_, expires.once⟩, pairwise_cons.mpr ⟨?_, ?_⟩, ?_⟩
  · intro member
    exact (others timer member).1 rfl
  · intro other member
    obtain ⟨-, otherData, isOther, -⟩ := others other member
    exact first other (by rw [isOther]; rfl)
  · apply expires.sorted.imp_of_mem
    intro one two inOne inTwo sorted
    rw [expire_update (others one inOne).1, expire_update (others two inTwo).1] at sorted
    exact sorted
  · intro other
    rw [mem_cons]
    by_cases same : other = timer
    · subst same
      exact iff_of_true (Or.inl rfl) ⟨data, isLive, expired⟩
    · rw [expires.exactly, update_of_ne same]
      simp [same]

theorem survivors_update (isLive : live timer = some data) (expired : data.expire ≤ cur) :
    survivors (update live timer none) cur = survivors live cur := by
  funext other
  by_cases same : other = timer
  · subst same
    rw [survivors, survivors, update_self, isLive, filter_none]
    exact (filter_some_neg (by simpa using expired)).symm
  · rw [survivors, survivors, update_of_ne same]

theorem filter_calls_update (expires : Expires (update live timer none) cur due) :
    due.filter (calls (update live timer none)) = due.filter (calls live) := by
  apply filter_congr
  intro other member
  obtain ⟨otherData, isOther, -⟩ := (expires.exactly other).mp member
  have apart : other ≠ timer := by
    intro same
    rw [same, update_self] at isOther
    cases isOther
  rw [calls, calls, update_of_ne apart]

include rep in
theorem Represents.root_first (isLive : (live timer).isSome = true) :
    expire live (slots 0) ≤ expire live timer := by
  obtain ⟨i, inside, same⟩ := (rep.members timer).mp isLive
  rw [← same]
  exact rep.ordered.root_le inside

/-- What a tick does to the heap. -/
structure Ticked (heap after : Heap) (live : Timers) (cur : ℤ) (due : List Addr) : Prop where
  popped : after.popped = heap.popped ++ due
  fired : after.fired = heap.fired ++ due.filter (calls live)
  expires : Expires live cur due
  rep : ∃ slots, Represents after (survivors live cur) slots

section

variable (rep : Represents heap live slots)
include rep

theorem Represents.ticked_nil (pending : ∀ timer data, live timer = some data → cur < data.expire) :
    Ticked heap heap live cur [] where
  popped := (append_nil _).symm
  fired := (append_nil _).symm
  expires := expires_nil pending
  rep := by
    rw [survivors_eq_self pending]
    exact ⟨slots, rep⟩

/-- One round of the loop: the callback of the root runs and it is popped. -/
theorem Ticked.cons {popped after : Heap}
    (ticked : Ticked popped after (update live (slots 0) none) cur due)
    (isLive : live (slots 0) = some data) (expired : data.expire ≤ cur)
    (wasPopped : popped.popped = heap.popped ++ [slots 0])
    (hasFired : popped.fired = if data.callback then heap.fired ++ [slots 0] else heap.fired) :
    Ticked heap after live cur (slots 0 :: due) where
  popped := by
    rw [ticked.popped, wasPopped, append_assoc]
    rfl
  fired := by
    have callsRoot : calls live (slots 0) = data.callback := by
      rw [calls, isLive]
      rfl
    rw [ticked.fired, hasFired, filter_calls_update ticked.expires, filter_cons, callsRoot]
    split
    · rw [append_assoc]
      rfl
    · rfl
  expires := ticked.expires.cons isLive expired fun _ =>
    rep.root_first
  rep := by
    have result := ticked.rep
    rw [survivors_update isLive expired] at result
    exact result

theorem tickLoop_spec {fuel : ℕ} {tmp : Option Addr} (cur : ℤ) (enough : heap.curSize < fuel)
    (atRoot : heap.array[0]? = some tmp) :
    ∃ after due, tickLoop cur fuel heap tmp = some after ∧ Ticked heap after live cur due := by
  induction fuel generalizing heap live slots tmp with
  | zero => cases enough
  | succ fuel ih =>
    by_cases empty : heap.curSize = 0
    · refine ⟨heap, [], ?_, rep.ticked_nil ?_⟩
      · simp only [tickLoop, if_pos empty]
      · intro timer data isLive
        rw [rep.none_live empty] at isLive
        cases isLive
    · have zeroInside : 0 < heap.curSize := pos_of_ne_zero empty
      have pointer := rep.pointers 0 zeroInside
      have isRoot := pointer
      rw [atRoot] at isRoot
      obtain rfl := some.inj isRoot
      obtain ⟨data, isLive, found⟩ := rep.root_data empty
      by_cases pending : cur < data.expire
      · refine ⟨heap, [], ?_, rep.ticked_nil ?_⟩
        · simp only [tickLoop, if_neg empty, found, some_bind, if_pos pending, Option.pure_def]
        · intro timer other isOther
          have first := rep.root_first (by rw [isOther]; rfl)
          rw [expire_eq isLive, expire_eq isOther] at first
          exact pending.trans_le first
      · have expired : data.expire ≤ cur := not_lt.mp pending
        generalize isFired : (if data.callback then heap.fired ++ [slots 0] else heap.fired) = fired
        have calling : Represents { heap with fired } live slots :=
          { rep with }
        obtain ⟨popped, poppedSlots, didPop, wasPopped, hasFired, size,
          poppedRepresents⟩ := popTimer_spec calling empty
        have rootInside := poppedRepresents.root_inside
        have smaller : popped.curSize < fuel := by
          have same : popped.curSize + 1 = heap.curSize := size
          omega
        obtain ⟨after, due, looped, ticked⟩ := ih poppedRepresents smaller
          (getElem?_eq_getElem rootInside)
        refine ⟨after, slots 0 :: due, ?_, ticked.cons rep isLive expired wasPopped
          (hasFired.trans isFired.symm)⟩
        simp only [tickLoop, if_neg empty, found, some_bind, if_neg pending, pointer, isFired,
          didPop, getElem?_eq_getElem rootInside]
        exact looped

theorem tick_spec (cur : ℤ) :
    ∃ after due, tick heap cur = some after ∧ Ticked heap after live cur due := by
  have rootInside := rep.root_inside
  obtain ⟨after, due, looped, ticked⟩ := tickLoop_spec rep cur (lt_succ_self _)
    (getElem?_eq_getElem rootInside)
  refine ⟨after, due, ?_, ticked⟩
  rw [tick, getElem?_eq_getElem rootInside]
  exact looped

end

/-! ## Runs -/

inductive Construction
  | empty (capacity : ℕ)
  | ofArray (timers : Timers) (initArray : Pointers) (size capacity : ℕ)

def construct : Construction → Option (Except Unit Heap)
  | .empty capacity => some (.ok (timeHeap capacity))
  | .ofArray timers initArray size capacity => timeHeapOf timers initArray size capacity

/-- The constructor does not throw and is given at least one place and, if
any, distinct timers. -/
def Construction.Proper : Construction → Prop
  | .empty capacity => 1 ≤ capacity
  | .ofArray timers initArray size capacity =>
    1 ≤ capacity ∧ size ≤ capacity ∧ ∃ slots, Initial timers initArray size slots

/-- The timers that are in the heap at first. -/
def Construction.given : Construction → Timers
  | .empty _ => fun _ => none
  | .ofArray timers _ _ _ => timers

/-- The calls of the users of the heap; `add` also creates the timer. -/
inductive Operation
  | add (timer : Addr) (data : HeapTimer)
  | del (timer : Addr)
  | pop
  | tick (cur : ℤ)
deriving DecidableEq, Repr

def perform (heap : Heap) : Operation → Option Heap
  | .add timer data => addTimer (newTimer heap timer data) timer
  | .del timer => delTimer heap timer
  | .pop => popTimer heap
  | .tick cur => tick heap cur

def performAll (heap : Heap) : List Operation → Option Heap
  | [] => some heap
  | operation :: rest => (perform heap operation).bind (performAll · rest)

/-- A timer is created in free memory, and only timers in the heap are
deleted. -/
def Operation.Proper (heap : Heap) : Operation → Prop
  | .add timer _ => heap.timers timer = none
  | .del timer => (heap.timers timer).isSome = true
  | .pop => True
  | .tick _ => True

def ProperRun : Heap → List Operation → Prop
  | _, [] => True
  | heap, operation :: rest =>
    operation.Proper heap ∧ ∀ after, perform heap operation = some after → ProperRun after rest

/-- The timers added and not yet popped, before and after a call.  Which of several
least timers is popped is left open. -/
inductive Operation.Leads (live : Timers) : Operation → Timers → Prop
  | add (timer : Addr) (data : HeapTimer) :
    Leads live (.add timer data) (update live timer (some data))
  | del {timer : Addr} {data : HeapTimer} (isLive : live timer = some data) :
    Leads live (.del timer) (update live timer (some { data with callback := false }))
  | popNothing (empty : ∀ timer, live timer = none) : Leads live .pop live
  | popFirst {timer : Addr} (isLive : (live timer).isSome = true)
    (first : ∀ other, (live other).isSome = true →
      expire live timer ≤ expire live other) : Leads live .pop (update live timer none)
  | tick (cur : ℤ) : Leads live (.tick cur) (survivors live cur)

inductive LeadsAll : Timers → List Operation → Timers → Prop
  | nil (live : Timers) : LeadsAll live [] live
  | cons {live middle after : Timers} {operation : Operation}
    {rest : List Operation} (first : operation.Leads live middle)
    (others : LeadsAll middle rest after) : LeadsAll live (operation :: rest) after

theorem construct_spec {construction : Construction} (possible : construction.Proper) :
    ∃ start slots, construct construction = some (.ok start) ∧
      Represents start construction.given slots := by
  cases construction with
  | empty capacity => exact ⟨timeHeap capacity, fun _ => 0, rfl, timeHeap_represents possible _⟩
  | ofArray timers initArray size capacity =>
    obtain ⟨positive, fits, slots, initial⟩ := possible
    exact timeHeapOf_spec initial fits positive

include rep in
theorem perform_spec {operation : Operation} (proper : operation.Proper heap) :
    ∃ after liveAfter slotsAfter, perform heap operation = some after ∧
      operation.Leads live liveAfter ∧ Represents after liveAfter slotsAfter := by
  cases operation with
  | add timer data =>
    have unused : live timer = none := by
      rw [← rep.timers]
      exact proper
    obtain ⟨after, slotsAfter, added, result⟩ := addTimer_spec data rep unused
    exact ⟨after, _, slotsAfter, added, .add timer data, result⟩
  | del timer =>
    obtain ⟨data, isData⟩ := isSome_iff_exists.mp proper
    rw [rep.timers] at isData
    obtain ⟨after, deleted, result⟩ := delTimer_spec rep isData
    exact ⟨after, _, slots, deleted, .del isData, result⟩
  | pop =>
    by_cases empty : heap.curSize = 0
    · exact ⟨heap, live, slots, if_pos empty, .popNothing (rep.none_live empty), rep⟩
    · obtain ⟨after, slotsAfter, popped, -, -, -, result⟩ := popTimer_spec rep empty
      exact ⟨after, _, slotsAfter, popped, .popFirst (rep.alive (pos_of_ne_zero empty))
        fun _ => rep.root_first, result⟩
  | tick cur =>
    obtain ⟨after, due, ticked, result⟩ := tick_spec rep cur
    obtain ⟨slotsAfter, resultRepresents⟩ := result.rep
    exact ⟨after, _, slotsAfter, ticked, .tick cur, resultRepresents⟩

include rep in
theorem performAll_spec {operations : List Operation} (proper : ProperRun heap operations) :
    ∃ after liveAfter slotsAfter, performAll heap operations = some after ∧
      LeadsAll live operations liveAfter ∧ Represents after liveAfter slotsAfter := by
  induction operations generalizing heap live slots with
  | nil => exact ⟨heap, live, slots, rfl, .nil live, rep⟩
  | cons operation rest ih =>
    obtain ⟨middle, liveMiddle, slotsMiddle, performed, leads, middleOk⟩ :=
      perform_spec rep proper.1
    obtain ⟨after, liveAfter, slotsAfter, performedRest, leadsRest, result⟩ :=
      ih middleOk (proper.2 middle performed)
    refine ⟨after, liveAfter, slotsAfter, ?_, .cons leads leadsRest, result⟩
    rw [performAll, performed]
    exact performedRest

/-- `top` returns a timer with the least expiry time, or `NULL` when there
is none. -/
def TopLeast (heap : Heap) (live : Timers) : Prop :=
  match top heap with
  | none => False
  | some none => ∀ timer, live timer = none
  | some (some timer) =>
    (live timer).isSome = true ∧ ∀ other, (live other).isSome = true →
      expire live timer ≤ expire live other

include rep in
theorem Represents.topLeast : TopLeast heap live := by
  by_cases empty : heap.curSize = 0
  · simp only [TopLeast, top, if_pos empty]
    exact rep.none_live empty
  · have zeroInside : 0 < heap.curSize := pos_of_ne_zero empty
    simp only [TopLeast, top, if_neg empty, rep.pointers 0 zeroInside]
    exact ⟨rep.alive zeroInside, fun _ => rep.root_first⟩

/-- A heap built by a constructor stays in heap order through any calls and
holds exactly the timers added and not yet popped, `top` returns a timer with
the least expiry time, and a tick pops exactly the timers that expire by
`cur`, in the order of their expiry times, running the callback of each one
that has not been deleted. -/
theorem ordered_and_tick_pops_expired (construction : Construction)
    (operations : List Operation) (possible : construction.Proper) :
    ∃ start, construct construction = some (.ok start) ∧ (ProperRun start operations →
      ∃ heap live slots, performAll start operations = some heap ∧
        LeadsAll construction.given operations live ∧
        Represents heap live slots ∧
        TopLeast heap live ∧
        ∀ cur, ∃ after due, tick heap cur = some after ∧ Ticked heap after live cur due) := by
  obtain ⟨start, startSlots, built, rep⟩ := construct_spec possible
  refine ⟨start, built, ?_⟩
  intro proper
  obtain ⟨heap, live, slots, performed, leads, result⟩ := performAll_spec rep proper
  exact ⟨heap, live, slots, performed, leads, result, result.topLeast, tick_spec result⟩

/-- A heap of capacity one grows for a second timer, which expires first. -/
theorem ordered_and_tick_pops_expired_twoTimers :
    ∃ heap live slots, performAll (timeHeap 1) [.add 1 ⟨5, true⟩, .add 2 ⟨3, true⟩] = some heap ∧
      LeadsAll (fun _ => none) [.add 1 ⟨5, true⟩, .add 2 ⟨3, true⟩] live ∧
      Represents heap live slots ∧
      ∃ after due, tick heap 4 = some after ∧ Ticked heap after live 4 due := by
  obtain ⟨start, built, run⟩ := ordered_and_tick_pops_expired (.empty 1)
    [.add 1 ⟨5, true⟩, .add 2 ⟨3, true⟩] (le_refl 1)
  cases built
  have proper : ProperRun (timeHeap 1) [.add 1 ⟨5, true⟩, .add 2 ⟨3, true⟩] := by
    refine ⟨rfl, ?_⟩
    intro after performed
    have empty := timeHeap_represents (le_refl 1) fun _ => 0
    obtain ⟨middle, slots, added, result⟩ :=
      addTimer_spec ⟨5, true⟩ empty (rfl : (fun _ => none) 1 = none)
    have same : after = middle := some.inj (performed.symm.trans added)
    refine ⟨?_, fun _ _ => trivial⟩
    rw [Operation.Proper, same, result.timers]
    rfl
  obtain ⟨heap, live, slots, performed, leads, rep, -, ticks⟩ := run proper
  exact ⟨heap, live, slots, performed, leads, rep, ticks 4⟩

end Skyc.Socket.TimeHeap
