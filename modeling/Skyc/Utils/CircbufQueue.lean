import Skyc.Lib.Memory
import Skyc.Utils.Circbuf

/-!
# The circular buffer as a bounded queue

`circbuf.c` used by one thread.  The slots lie in an array of bytes at
multiples of `element_size`, and all arithmetic of the three functions is on
`int`s, including the product that addresses a slot.
-/

namespace Skyc.Utils.CircbufQueue

open Skyc.Lib Skyc.Lib.Memory List Option Nat Circbuf

/-! ## The functions of `circbuf.c` -/

/-- A `circbuf_t` with the array that `buffer` points to. -/
structure CircBuf where
  buffer : List UInt8
  pushCount : ℕ
  popCount : ℕ
  size : ℕ
  elementSize : ℕ
deriving DecidableEq, Repr

/-- `CIRCBUF_DEF`; `sz` and `sizeof(type)` become values of type `int`. -/
def circbufDef (sz sizeofType : ℕ) (data : List UInt8) : Option CircBuf := do
  let _ ← int sz
  let _ ← int sizeofType
  some
    { buffer := data
      pushCount := 0
      popCount := 0
      size := sz
      elementSize := sizeofType }

/-- The computation of `total` at the start of each function. -/
def CircBuf.total (circBuf : CircBuf) : Option Int :=
  Circbuf.total circBuf.size circBuf.pushCount circBuf.popCount

def CircBuf.slot (circBuf : CircBuf) (count : ℕ) : Option ℕ :=
  Circbuf.slot circBuf.size circBuf.elementSize count

/-- `count++`, and back to 0 at `2*size`. -/
def CircBuf.advance (circBuf : CircBuf) (count : ℕ) : Option ℕ := do
  let bumped ← int (count + 1)
  let lap ← int (2 * circBuf.size)
  some (if lap ≤ bumped then 0 else bumped.toNat)

/-- `if (elem) memcpy(elem, tail, element_size);` -/
def CircBuf.copyOut (circBuf : CircBuf) (elem : Bool) (tail : ℕ) : Option (Option (List UInt8)) :=
  if elem then
    (load circBuf.buffer tail circBuf.elementSize).map some
  else
    some none

/-- `__circbuf_pop`: the returned value and what is copied to `elem`, which
may be null. -/
def pop (circBuf : CircBuf) (elem readOnly : Bool) :
    Option (Int × Option (List UInt8) × CircBuf) := do
  let total ← circBuf.total
  if total = 0 then
    some (-1, none, circBuf)
  else
    let tail ← circBuf.slot circBuf.popCount
    let copied ← circBuf.copyOut elem tail
    if readOnly then
      some (0, copied, circBuf)
    else
      let popCount ← circBuf.advance circBuf.popCount
      some (0, copied, { circBuf with popCount := popCount })

/-- `__circbuf_push` -/
def push (circBuf : CircBuf) (elem : List UInt8) : Option (Int × CircBuf) := do
  let total ← circBuf.total
  if (circBuf.size : Int) ≤ total then
    some (-1, circBuf)
  else
    let head ← circBuf.slot circBuf.pushCount
    let buffer ← store circBuf.buffer head elem
    let pushCount ← circBuf.advance circBuf.pushCount
    some (0, { circBuf with buffer := buffer, pushCount := pushCount })

/-- `__circbuf_free_space` -/
def freeSpace (circBuf : CircBuf) : Option Int := do
  let total ← circBuf.total
  int (circBuf.size - total)

/-- `CIRCBUF_FLUSH` -/
def flush (circBuf : CircBuf) : CircBuf :=
  { circBuf with pushCount := 0, popCount := 0 }

/-! ## Sequences of operations -/

/-- What `elem` points to: a value of the element type. -/
abbrev Element (elementSize : ℕ) :=
  { bytes : List UInt8 // bytes.length = elementSize }

inductive Operation (elementSize : ℕ)
  | push (elem : Element elementSize)
  | pop (elem : Bool)
  | peek (elem : Bool)
  | flush

inductive Answer
  | pushed (code : Int)
  | popped (code : Int) (elem : Option (List UInt8))
  | flushed
deriving DecidableEq, Repr

variable {elementSize : ℕ}

def perform (circBuf : CircBuf) : Operation elementSize → Option (Answer × CircBuf)
  | .push elem => (push circBuf elem.val).map fun result => (.pushed result.1, result.2)
  | .pop elem =>
    (pop circBuf elem false).map fun result =>
      (.popped result.1 result.2.1, result.2.2)
  | .peek elem =>
    (pop circBuf elem true).map fun result =>
      (.popped result.1 result.2.1, result.2.2)
  | .flush => some (.flushed, flush circBuf)

def performAll (circBuf : CircBuf) : List (Operation elementSize) → Option CircBuf
  | [] => some circBuf
  | operation :: operations => do
    let result ← perform circBuf operation
    performAll result.2 operations

/-! ## The bounded queue -/

/-- What a queue of at most `size` elements answers. -/
def answer (size : ℕ) (queue : List (Element elementSize)) : Operation elementSize → Answer
  | .push _ => .pushed (if queue.length < size then 0 else -1)
  | .pop elem | .peek elem =>
    match queue with
    | [] => .popped (-1) none
    | oldest :: _ => .popped 0 (if elem then some oldest.val else none)
  | .flush => .flushed

def enqueue (size : ℕ) (queue : List (Element elementSize)) :
    Operation elementSize → List (Element elementSize)
  | .push elem => if queue.length < size then queue ++ [elem] else queue
  | .pop _ => queue.tail
  | .peek _ => queue
  | .flush => []

def queued (size : ℕ) (operations : List (Operation elementSize)) : List (Element elementSize) :=
  operations.foldl (enqueue size) []

def Answer.Failed : Answer → Prop
  | .pushed code | .popped code _ => code = -1
  | .flushed => False

/-- After every sequence of operations the free space is what the queue
leaves, and the next operation answers as the queue does and changes nothing
if it fails. -/
def BoundedQueue (size elementSize : ℕ) : Prop :=
  ∀ data : List UInt8, data.length = size * elementSize →
    ∀ (operations : List (Operation elementSize)) (operation : Operation elementSize),
      ∃ start before after, circbufDef size elementSize data = some start ∧
        performAll start operations = some before ∧
        freeSpace before = some ((size : Int) - (queued size operations).length) ∧
        perform before operation = some (answer size (queued size operations) operation, after) ∧
        ((answer size (queued size operations) operation).Failed → after = before)

/-! ## The array and the queue -/

/-- `circBuf` holds `queue` after `pops` pops since the last flush. -/
structure Represents (size pops : ℕ) (queue : List (Element elementSize))
    (circBuf : CircBuf) : Prop where
  hasSize : circBuf.size = size
  hasElementSize : circBuf.elementSize = elementSize
  bytes : circBuf.buffer.length = size * elementSize
  bounded : queue.length ≤ size
  pushCount : circBuf.pushCount = (pops + queue.length) % (2 * size)
  popCount : circBuf.popCount = pops % (2 * size)
  slots : ∀ (i : ℕ) (inside : i < queue.length),
    load circBuf.buffer ((pops + i) % size * elementSize) elementSize = some (queue[i]).val

variable {data : List UInt8} {oldest : Element elementSize}

section Operations

variable {size pops : ℕ} {queue : List (Element elementSize)} {circBuf : CircBuf}

/-- The slots of an array that hold no element may be anything. -/
theorem Represents.empty (elementSize : ℕ) (length : data.length = size * elementSize) :
    Represents size 0 ([] : List (Element elementSize))
      { buffer := data
        pushCount := 0
        popCount := 0
        size := size
        elementSize := elementSize } where
  hasSize := rfl
  hasElementSize := rfl
  bytes := length
  bounded := zero_le size
  pushCount := by simp
  popCount := by simp
  slots := by
    intro i inside
    simp at inside

theorem slot_eq_none (circBuf : CircBuf) (count : ℕ) (overflow :
      intMax < (count % circBuf.size) * circBuf.elementSize) : circBuf.slot count = none := by
  rw [CircBuf.slot, slot]
  split
  · rfl
  · rw [int_eq_none (by exact_mod_cast overflow), map_none]

theorem advance_eq (sizePos : 0 < circBuf.size) (lapFits : 2 * circBuf.size ≤ intMax) (steps : ℕ) :
    circBuf.advance (steps % (2 * circBuf.size)) = some ((steps + 1) % (2 * circBuf.size)) := by
  have below := mod_lt steps (show 0 < 2 * circBuf.size by omega)
  have bumped : int (((steps % (2 * circBuf.size) : ℕ) : Int) + 1) =
    some (((steps % (2 * circBuf.size) : ℕ) : Int) + 1) := int_eq_some (by omega) (by omega)
  have lap : int (2 * (circBuf.size : Int)) = some (2 * (circBuf.size : Int)) :=
    int_eq_some (by omega) (by omega)
  have folded : (steps + 1) % (2 * circBuf.size) =
      (steps % (2 * circBuf.size) + 1) % (2 * circBuf.size) := by
    rw [mod_add_mod]
  simp only [CircBuf.advance, bumped, lap, some_bind]
  rw [folded]
  generalize steps % (2 * circBuf.size) = rest at below ⊢
  apply congrArg some
  split
  · have last : rest + 1 = 2 * circBuf.size := by omega
    rw [last, mod_self]
  · rw [mod_eq_of_lt (by omega)]
    omega

section Lap

variable (sizePos : 1 ≤ size) (lapFits : 2 * size ≤ intMax)
include sizePos lapFits

section

variable (rep : Represents size pops queue circBuf)
include rep

theorem Represents.total_eq : circBuf.total = some (queue.length : Int) := by
  have bounded := rep.bounded
  have popBelow := mod_lt (pops + queue.length) (show 0 < 2 * size by omega)
  have counted := Circbuf.total_eq lapFits (le_add_right pops queue.length) (by omega)
    (.inl rep.pushCount) (.inl rep.popCount) (by
      rw [rep.pushCount]
      omega)
  rw [CircBuf.total, rep.hasSize, counted]
  congr 1
  omega

theorem Represents.freeSpace_eq : freeSpace circBuf = some ((size : Int) - queue.length) := by
  have bounded := rep.bounded
  simp only [freeSpace, rep.total_eq sizePos lapFits, rep.hasSize, some_bind]
  exact int_eq_some (by omega) (by omega)

theorem Represents.slot_advance {count steps : ℕ} (counted : count = steps % (2 * size))
    (slotFits : steps % size * elementSize ≤ intMax) :
    circBuf.slot count = some (steps % size * elementSize) ∧
      circBuf.advance count = some ((steps + 1) % (2 * size)) := by
  have positive : 0 < circBuf.size := rep.hasSize ▸ sizePos
  have index : count % circBuf.size = steps % size := by
    rw [rep.hasSize]
    exact counter_slot counted
  have slot : circBuf.slot count = some (steps % size * elementSize) := by
    rw [← index, ← rep.hasElementSize] at slotFits ⊢
    exact slot_eq positive slotFits
  have next := advance_eq positive (by rwa [rep.hasSize]) steps
  rw [rep.hasSize, ← counted] at next
  exact ⟨slot, next⟩

theorem Represents.push_room (room : queue.length < size) (slotFits :
      (pops + queue.length) % size * elementSize ≤ intMax) (elem : Element elementSize) :
    ∃ after, push circBuf elem.val = some (0, after) ∧
      Represents size pops (queue ++ [elem]) after := by
  obtain ⟨head, pushCount⟩ := rep.slot_advance sizePos lapFits rep.pushCount slotFits
  obtain ⟨buffer, storedBuffer, stored⟩ := exists_store circBuf.buffer
    ((pops + queue.length) % size * elementSize) elem.val (by
      rw [elem.property, rep.bytes]
      exact cell_inside elementSize (mod_lt (pops + queue.length) sizePos))
  refine ⟨{ circBuf with
    buffer := buffer
    pushCount := (pops + queue.length + 1) % (2 * size) }, ?_, ?_⟩
  · simp only [push, rep.total_eq sizePos lapFits, rep.hasSize,
      head, storedBuffer, pushCount, some_bind]
    rw [if_neg (by omega)]
  · refine
      { hasSize := rep.hasSize
        hasElementSize := rep.hasElementSize
        bytes := stored.length.trans rep.bytes
        bounded := ?_
        pushCount := ?_
        popCount := rep.popCount
        slots := ?_ }
    · simp only [length_append, length_singleton]
      omega
    · simp only [length_append, length_singleton, add_assoc]
    · intro i inside
      simp only [length_append, length_singleton] at inside
      by_cases last : i = queue.length
      · subst last
        have same := stored.same
        rw [elem.property] at same
        rw [same, getElem_concat_length rfl]
      · have inside' : i < queue.length := by omega
        rw [getElem_append_left inside', ← rep.slots i inside']
        apply stored.apart
        rw [elem.property]
        -- the slot behind the queue is none of the queue's slots
        exact cells_apart elementSize (slot_ne (by omega) (by omega))

/-- A push whose slot is more than `INT_MAX` bytes away is undefined. -/
theorem Represents.push_overflow (room : queue.length < size) (overflow :
      intMax < (pops + queue.length) % size * elementSize) (elem : Element elementSize) :
    push circBuf elem.val = none := by
  have slotIndex : circBuf.pushCount % circBuf.size = (pops + queue.length) % size := by
    rw [rep.hasSize]
    exact counter_slot rep.pushCount
  have head := slot_eq_none circBuf circBuf.pushCount (by
    rw [slotIndex, rep.hasElementSize]
    exact overflow)
  simp only [push, rep.total_eq sizePos lapFits, rep.hasSize,
    head, bind_eq_bind, bind_some, bind_none]
  rw [if_neg (by omega)]

theorem Represents.push_full (full : ¬ queue.length < size) (elem : Element elementSize) :
    push circBuf elem.val = some (-1, circBuf) := by
  simp only [push, rep.total_eq sizePos lapFits, rep.hasSize, some_bind]
  rw [if_pos (by omega)]

end

theorem Represents.pop_empty (rep :
      Represents size pops ([] : List (Element elementSize)) circBuf) (elem readOnly : Bool) :
    pop circBuf elem readOnly = some (-1, none, circBuf) := by
  simp only [pop, rep.total_eq sizePos lapFits, length_nil, some_bind]
  rfl

theorem Represents.pop_oldest (rep : Represents size pops (oldest :: queue) circBuf)
    (slotFits : pops % size * elementSize ≤ intMax) (elem readOnly : Bool) :
    pop circBuf elem readOnly = some (0, if elem then some oldest.val else none,
      if readOnly then circBuf
      else { circBuf with popCount := (pops + 1) % (2 * size) }) := by
  obtain ⟨tail, popCount⟩ := rep.slot_advance sizePos lapFits rep.popCount slotFits
  have copied : circBuf.copyOut elem (pops % size * elementSize) =
      some (if elem then some oldest.val else none) := by
    have first := rep.slots 0 (succ_pos _)
    simp only [add_zero, getElem_cons_zero] at first
    rw [CircBuf.copyOut, rep.hasElementSize, first]
    cases elem <;> rfl
  simp only [pop, rep.total_eq sizePos lapFits, tail, copied, popCount, some_bind]
  rw [if_neg (by simp; omega)]
  cases readOnly <;> rfl

end Lap

theorem Represents.popped (rep : Represents size pops (oldest :: queue) circBuf) :
    Represents size (pops + 1) queue { circBuf with popCount := (pops + 1) % (2 * size) } where
  __ := rep
  bounded := le_of_succ_le rep.bounded
  pushCount := by
    have count := rep.pushCount
    simp only [length_cons] at count
    rw [count]
    congr 1
    omega
  popCount := rfl
  slots := by
    intro i inside
    have slot := rep.slots (i + 1) (succ_lt_succ inside)
    simp only [getElem_cons_succ] at slot
    rw [← slot]
    congr 3
    omega

theorem Represents.flushed (rep : Represents size pops queue circBuf) :
    Represents size 0 ([] : List (Element elementSize)) (flush circBuf) where
  __ := rep
  bounded := zero_le size
  pushCount := by simp [flush]
  popCount := by simp [flush]
  slots := by
    intro i inside
    simp at inside

end Operations

/-! ## Every sequence of operations -/

section Sequences

variable {size : ℕ}

section

variable {pops : ℕ} {queue : List (Element elementSize)} {circBuf : CircBuf}
  (sizePos : 1 ≤ size) (lapFits : 2 * size ≤ intMax)
  (slotsFit : (size - 1) * elementSize ≤ intMax) (rep : Represents size pops queue circBuf)

include sizePos lapFits slotsFit rep

/-- If every slot can be addressed, every operation does what the queue
does. -/
theorem perform_spec (operation : Operation elementSize) :
    ∃ after pops', perform circBuf operation = some (answer size queue operation, after) ∧
      Represents size pops' (enqueue size queue operation) after ∧
      ((answer size queue operation).Failed → after = circBuf) := by
  have slotFits : ∀ count, count % size * elementSize ≤ intMax := by
    intro count
    have below := mod_lt count sizePos
    exact le_trans (mul_le_mul_right elementSize (by omega)) slotsFit
  cases operation with
  | push elem =>
    by_cases room : queue.length < size
    · obtain ⟨after, pushed, rep'⟩ := rep.push_room sizePos lapFits room (slotFits _) elem
      refine ⟨after, pops, ?_, ?_, ?_⟩
      · simp only [perform, pushed, map_some, answer, if_pos room]
      · simp only [enqueue, if_pos room]
        exact rep'
      · simp only [answer, if_pos room, Answer.Failed]
        exact nofun
    · refine ⟨circBuf, pops, ?_, ?_, fun _ => rfl⟩
      · simp only [perform, rep.push_full sizePos lapFits room, map_some, answer, if_neg room]
      · simp only [enqueue, if_neg room]
        exact rep
  | pop elem =>
    cases queue with
    | nil =>
      refine ⟨circBuf, pops, ?_, rep, fun _ => rfl⟩
      simp only [perform, rep.pop_empty sizePos lapFits, map_some, answer]
    | cons oldest rest =>
      refine ⟨_, pops + 1, ?_, rep.popped, ?_⟩
      · simp only [perform, rep.pop_oldest sizePos lapFits (slotFits pops),
          map_some, answer, Bool.false_eq_true, if_false]
      · simp only [answer, Answer.Failed]
        exact nofun
  | peek elem =>
    cases queue with
    | nil =>
      refine ⟨circBuf, pops, ?_, rep, fun _ => rfl⟩
      simp only [perform, rep.pop_empty sizePos lapFits, map_some, answer]
    | cons oldest rest =>
      refine ⟨circBuf, pops, ?_, rep, fun _ => rfl⟩
      simp only [perform, rep.pop_oldest sizePos lapFits (slotFits pops), map_some, answer, if_true]
  | flush => exact ⟨flush circBuf, 0, rfl, rep.flushed, False.elim⟩

theorem performAll_spec (operations : List (Operation elementSize)) :
    ∃ after pops', performAll circBuf operations = some after ∧
      Represents size pops' (operations.foldl (enqueue size) queue) after := by
  induction operations generalizing pops queue circBuf with
  | nil => exact ⟨circBuf, pops, rfl, rep⟩
  | cons operation operations ih =>
    obtain ⟨middle, pops', performed, rep', _⟩ :=
      perform_spec sizePos lapFits slotsFit rep operation
    obtain ⟨after, pops'', rest, represents''⟩ := ih rep'
    refine ⟨after, pops'', ?_, represents''⟩
    simp only [performAll, performed, some_bind]
    exact rest

end

theorem circbufDef_eq {size : ℕ} (sizeFits : size ≤ intMax)
    (elementFits : elementSize ≤ intMax) (data : List UInt8) :
    circbufDef size elementSize data = some
      { buffer := data
        pushCount := 0
        popCount := 0
        size := size
        elementSize := elementSize } := by
  have sizeInt : int (size : Int) = some (size : Int) := int_eq_some (by omega) (by omega)
  have elementInt : int (elementSize : Int) = some (elementSize : Int) :=
    int_eq_some (by omega) (by omega)
  simp only [circbufDef, sizeInt, elementInt, some_bind]

/-- As long as pushes into an empty buffer are defined, each one is queued. -/
theorem represents_of_pushes (sizePos : 1 ≤ size)
    (lapFits : 2 * size ≤ intMax) (elem : Element elementSize)
    {pushes : ℕ} {queue : List (Element elementSize)} {circBuf after : CircBuf}
    (room : queue.length + pushes ≤ size) (rep : Represents size 0 queue circBuf)
    (performed :
      performAll circBuf (replicate pushes (.push elem)) = some after) :
    Represents size 0 (queue ++ replicate pushes elem) after := by
  induction pushes generalizing queue circBuf with
  | zero =>
    obtain rfl := some.inj performed
    simpa using rep
  | succ pushes ih =>
    by_cases slotFits : (0 + queue.length) % size * elementSize ≤ intMax
    · obtain ⟨middle, pushed, rep'⟩ := rep.push_room sizePos lapFits (by omega) slotFits elem
      simp only [replicate_succ, performAll, perform, pushed, map_some, some_bind] at performed
      have rest := ih (by simp only [length_append, length_singleton]; omega) rep' performed
      rwa [append_assoc, singleton_append, ← replicate_succ] at rest
    · have undefinedPush := rep.push_overflow sizePos lapFits (by omega) (by omega) elem
      simp only [replicate_succ, performAll, perform, undefinedPush,
        map_none, bind_eq_bind, bind_none] at performed
      cases performed

/-- The last of `size` pushes addresses the last slot. -/
theorem slots_fit_of_boundedQueue (sizePos : 1 ≤ size) (lapFits : 2 * size ≤ intMax)
    (bounded : BoundedQueue size elementSize) :
    elementSize ≤ intMax ∧ (size - 1) * elementSize ≤ intMax := by
  let elem : Element elementSize := ⟨replicate elementSize 0, length_replicate⟩
  obtain ⟨start, before, after, defined, performed, _, next, _⟩ :=
    bounded (replicate (size * elementSize) 0) length_replicate
      (replicate (size - 1) (.push elem)) (.push elem)
  have elementFits : elementSize ≤ intMax := by
    by_contra tooLarge
    have sizeInt : int (size : Int) = some (size : Int) := int_eq_some (by omega) (by omega)
    have elementInt : int (elementSize : Int) = none := int_eq_none (by omega)
    simp only [circbufDef, sizeInt, elementInt, some_bind] at defined
    cases defined
  refine ⟨elementFits, ?_⟩
  rw [circbufDef_eq (by omega) elementFits] at defined
  obtain rfl := some.inj defined
  have rep := represents_of_pushes sizePos lapFits elem (by simp only [length_nil]; omega)
    (Represents.empty elementSize length_replicate) performed
  by_contra overflow
  have undefinedPush := rep.push_overflow sizePos lapFits (by
      simp only [nil_append, length_replicate]
      omega)
    (by
      simp only [nil_append, length_replicate, zero_add]
      rw [mod_eq_of_lt (by omega)]
      omega)
    elem
  simp only [perform, undefinedPush, map_none] at next
  cases next

/-- A circular buffer of any size is a bounded queue exactly when `int` holds
the offset of its last slot. -/
theorem boundedQueue_iff_slots_fit (size elementSize : ℕ)
    (sizePos : 1 ≤ size) (lapFits : 2 * size ≤ intMax) :
    BoundedQueue size elementSize ↔ elementSize ≤ intMax ∧ (size - 1) * elementSize ≤ intMax := by
  constructor
  · exact slots_fit_of_boundedQueue sizePos lapFits
  · rintro ⟨elementFits, slotsFit⟩ data length operations operation
    obtain ⟨before, pops, performed, rep⟩ :=
      performAll_spec sizePos lapFits slotsFit (Represents.empty elementSize length) operations
    obtain ⟨after, _, next, _, unchanged⟩ := perform_spec sizePos lapFits slotsFit rep operation
    exact ⟨_, before, after, circbufDef_eq (by omega) elementFits data, performed,
      rep.freeSpace_eq sizePos lapFits, next, unchanged⟩

theorem boundedQueue_iff_slots_fit_threeInts :
    (1 ≤ 3 ∧ 2 * 3 ≤ intMax) ∧ BoundedQueue 3 4 := ⟨by decide,
    (boundedQueue_iff_slots_fit 3 4 (by decide) (by decide)).mpr (by decide)⟩

/-- With three slots of which only two can be addressed, the third push of an
empty buffer is undefined. -/
theorem third_push_undefined (elementFits : elementSize ≤ intMax)
    (overflow : intMax < 2 * elementSize) (elem : Element elementSize)
    (length : data.length = 3 * elementSize) :
    ∃ start before, circbufDef 3 elementSize data = some start ∧
      performAll start [.push elem, .push elem] = some before ∧
      perform before (.push elem) = none := by
  have lapFits : 2 * 3 ≤ intMax := by decide
  have empty := Represents.empty elementSize length
  obtain ⟨one, firstPush, representsOne⟩ :=
    empty.push_room (by decide) lapFits (by simp) (by simp) elem
  obtain ⟨two, secondPush, representsTwo⟩ := representsOne.push_room (by decide) lapFits (by simp)
      (by simpa using elementFits) elem
  have thirdPush := representsTwo.push_overflow (by decide) lapFits (by simp)
      (by simpa using overflow) elem
  refine ⟨_, two, circbufDef_eq (by decide) elementFits data, ?_, ?_⟩
  · simp only [performAll, perform, firstPush, secondPush, map_some, some_bind]
  · rw [perform, thirdPush, map_none]

/-- Three elements of 1 GiB: two are queued, and the third push computes
`2 * 2^30`. -/
theorem third_gibibyte_push_undefined :
    (1 ≤ 3 ∧ 2 * 3 ≤ intMax) ∧
      ∃ start before, circbufDef 3 (2 ^ 30) (replicate (3 * 2 ^ 30) 0) = some start ∧
        performAll start [.push (⟨replicate (2 ^ 30) 7, length_replicate⟩ :
          Element (2 ^ 30)), .push ⟨replicate (2 ^ 30) 7, length_replicate⟩] = some before ∧
        perform before (.push (⟨replicate (2 ^ 30) 7, length_replicate⟩ :
            Element (2 ^ 30))) =
          none := ⟨by decide,
    third_push_undefined (by decide) (by decide) _ length_replicate⟩

end Sequences

end Skyc.Utils.CircbufQueue
