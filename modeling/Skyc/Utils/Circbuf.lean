import Skyc.Lib.Memory
import Skyc.Lib.Transition

/-!
# The circular buffer with one producer and one consumer

`circbuf.c` keeps two counters that run through `0 .. 2*size-1`, each advanced in
two stores: the incremented value first and, if it reached `2*size`, the value 0.
Every load and store of a counter and every slot copy is one step.  A step that
overflows an `int` is undefined.

An element counts as pushed when the incremented `push_count` is stored, and as
popped when `__circbuf_pop` returns 0.
-/

namespace Skyc.Utils.Circbuf

open Skyc.Lib Skyc.Lib.Memory Function List Nat Option

universe u

variable {Element : Type u}

/-- The value of `total` in all three functions of `circbuf.c`. -/
def total (size pushCount popCount : Nat) : Option Int := do
  let difference ← int (pushCount - popCount)
  if difference < 0 then
    let lap ← int (2 * size)
    int (difference + lap)
  else
    some difference

/-- `(count % size) * element_size`, the offset of a slot. -/
def slot (size elementSize count : Nat) : Option Nat :=
  if size = 0 then
    none
  else
    (int ((count % size) * elementSize : Nat)).map Int.toNat

/-- Program points of `__circbuf_push`, named by the step that comes next.
A loaded value is carried to the point that uses it. -/
inductive Producer (Element : Type u) where
  | idle
  | loadPush (elem : Element)
  | loadPop (elem : Element) (push : Nat)
  | loadHead (elem : Element)
  | copy (elem : Element) (head : Nat)
  | loadBump (elem : Element)
  | storeBump (elem : Element) (push : Nat)
  | loadWrap
  | storeWrap
deriving DecidableEq

/-- Program points of `__circbuf_pop`. -/
inductive Consumer (Element : Type u) where
  | idle
  | loadPush (readOnly : Bool)
  | loadPop (readOnly : Bool) (push : Nat)
  | loadTail (readOnly : Bool)
  | copy (readOnly : Bool) (tail : Nat)
  | loadBump (elem : Element)
  | storeBump (elem : Element) (pop : Nat)
  | loadWrap (elem : Element)
  | storeWrap (elem : Element)
deriving DecidableEq

structure State (Element : Type u) where
  slots : Nat → Element
  pushCount : Nat
  popCount : Nat
  producer : Producer Element
  consumer : Consumer Element
  /-- Elements pushed so far, in order. -/
  pushed : List Element
  /-- Elements returned by successful pops so far, in order. -/
  popped : List Element

inductive Label (Element : Type u) where
  | push (elem : Element)
  | pop (readOnly : Bool)
  | producer
  | consumer

/-- The next step of the running `__circbuf_push`. -/
def producerStep (size elementSize : Nat) (state : State Element) : Option (State Element) :=
  match state.producer with
  | .idle => none
  | .loadPush elem => some { state with producer := .loadPop elem state.pushCount }
  | .loadPop elem push =>
    (total size push state.popCount).bind fun total =>
    -- returns -1 when the buffer is full
    if (size : Int) ≤ total then
      some { state with producer := .idle }
    else
      some { state with producer := .loadHead elem }
  | .loadHead elem => some { state with producer := .copy elem state.pushCount }
  | .copy elem head =>
    (slot size elementSize head).bind fun _ =>
    some
      { state with
        slots := update state.slots (head % size) elem
        producer := .loadBump elem }
  | .loadBump elem => some { state with producer := .storeBump elem state.pushCount }
  | .storeBump elem push =>
    (int (push + 1)).bind fun _ =>
    some
      { state with
        pushCount := push + 1
        producer := .loadWrap
        pushed := state.pushed ++ [elem] }
  | .loadWrap =>
    (int (2 * size)).bind fun lap =>
    if lap ≤ state.pushCount then
      some { state with producer := .storeWrap }
    else
      some { state with producer := .idle }
  | .storeWrap => some { state with pushCount := 0, producer := .idle }

/-- The next step of the running `__circbuf_pop`. -/
def consumerStep (size elementSize : Nat) (state : State Element) : Option (State Element) :=
  match state.consumer with
  | .idle => none
  | .loadPush readOnly => some { state with consumer := .loadPop readOnly state.pushCount }
  | .loadPop readOnly push =>
    (total size push state.popCount).bind fun total =>
    -- returns -1 when the buffer is empty
    if total = 0 then
      some { state with consumer := .idle }
    else
      some { state with consumer := .loadTail readOnly }
  | .loadTail readOnly => some { state with consumer := .copy readOnly state.popCount }
  | .copy readOnly tail =>
    (slot size elementSize tail).bind fun _ =>
    if readOnly then
      some { state with consumer := .idle }
    else
      some
        { state with
          consumer := .loadBump (state.slots (tail % size)) }
  | .loadBump elem => some { state with consumer := .storeBump elem state.popCount }
  | .storeBump elem pop =>
    (int (pop + 1)).bind fun _ =>
    some { state with popCount := pop + 1, consumer := .loadWrap elem }
  | .loadWrap elem =>
    (int (2 * size)).bind fun lap =>
    if lap ≤ state.popCount then
      some { state with consumer := .storeWrap elem }
    else
      some
        { state with
          consumer := .idle, popped := state.popped ++ [elem] }
  | .storeWrap elem =>
    some
      { state with
        popCount := 0
        consumer := .idle
        popped := state.popped ++ [elem] }

def next (size elementSize : Nat) (state : State Element) :
    Label Element → Option (State Element)
  | .push elem =>
    match state.producer with
    | .idle => some { state with producer := .loadPush elem }
    | _ => none
  | .pop readOnly =>
    match state.consumer with
    | .idle => some { state with consumer := .loadPush readOnly }
    | _ => none
  | .producer => producerStep size elementSize state
  | .consumer => consumerStep size elementSize state

/-- A `circbuf_t` as `CIRCBUF_DEF` initialises it, both threads idle. -/
def circbuf (size elementSize : Nat) (uninitialised : Nat → Element) :
    Machine (State Element) (Label Element) where
  start :=
    { slots := uninitialised
      pushCount := 0
      popCount := 0
      producer := .idle
      consumer := .idle
      pushed := []
      popped := [] }
  next := next size elementSize

/-- The values that `circbuf.c` computes are `int`s. -/
structure Representable (size elementSize : Nat) : Prop where
  lapFits : 2 * size ≤ intMax
  elementFits : elementSize ≤ intMax
  slotsFit : (size - 1) * elementSize ≤ intMax

/-- No call that goes on has undefined behaviour in its next step. -/
def Defined (size elementSize : Nat) (state : State Element) : Prop :=
  (state.producer ≠ .idle → ∃ after, producerStep size elementSize state = some after) ∧
    (state.consumer ≠ .idle → ∃ after, consumerStep size elementSize state = some after)

/-- What the pops returned is a prefix of what was pushed. -/
def Fifo (state : State Element) : Prop :=
  state.popped <+: state.pushed

/-- The consumer does not load `push_count` while the producer is between
its two stores and `pop_count` has already wrapped to 0. -/
def NotBetweenStores (size : Nat) (state : State Element) : Label Element → Prop
  | .consumer =>
    match state.consumer with
    | .loadPush _ =>
      ¬ (0 < size ∧ state.pushCount = 2 * size ∧ state.popCount = 0)
    | _ => True
  | _ => True

/-! ## Reading the counters -/

/-- `count` is what a counter may hold after `steps` increments: the value
modulo `2*size`, or `2*size` itself before the second store. -/
def Counts (size steps count : Nat) : Prop :=
  count = steps % (2 * size) ∨ (count = 2 * size ∧ steps % (2 * size) = 0 ∧ 0 < steps)

variable {size elementSize pushes pushCount popCount : Nat} {producer : Producer Element}
  {consumer : Consumer Element} {state after : State Element} {elem : Element}

theorem total_eq_ite (lapFits : 2 * size ≤ intMax) (lower : popCount ≤ pushCount + 2 * size)
    (upper : pushCount ≤ popCount + 2 * size) :
    total size pushCount popCount = some (if (pushCount : Int) - popCount < 0 then
      (pushCount : Int) - popCount + 2 * size else (pushCount : Int) - popCount) := by
  have difference : int ((pushCount : Int) - popCount) = some ((pushCount : Int) - popCount) :=
    int_eq_some (by omega) (by omega)
  have lap : int (2 * (size : Int)) = some (2 * (size : Int)) := int_eq_some (by omega) (by omega)
  simp only [total, difference, lap, some_bind]
  split
  · exact int_eq_some (by omega) (by omega)
  · rfl

/-- The computed `total` is the number of stored elements, unless the
transient `push_count` meets a `pop_count` that has wrapped. -/
theorem total_eq {pops : Nat} (lapFits : 2 * size ≤ intMax)
    (ordered : pops ≤ pushes) (bounded : pushes ≤ pops + size) (push : Counts size pushes pushCount)
    (pop : Counts size pops popCount)
    (settled : ¬ (0 < size ∧ pushCount = 2 * size ∧ popCount = 0)) :
    total size pushCount popCount = some ((pushes : Int) - pops) := by
  rcases Nat.eq_zero_or_pos size with rfl | sizePos
  · simp only [Counts, mul_zero, Nat.mod_zero] at push pop
    rw [total_eq_ite lapFits (by omega) (by omega)]
    congr 1
    split <;> omega
  have modulusPos : 0 < 2 * size := by omega
  have pushSplit := Nat.div_add_mod pushes (2 * size)
  have popSplit := Nat.div_add_mod pops (2 * size)
  have pushRest := Nat.mod_lt pushes modulusPos
  have popRest := Nat.mod_lt pops modulusPos
  have lower : pops / (2 * size) ≤ pushes / (2 * size) := Nat.div_le_div_right ordered
  have upper : pushes / (2 * size) ≤ pops / (2 * size) + 1 := by
    have raised : pushes / (2 * size) ≤ (pops + 2 * size) / (2 * size) :=
      Nat.div_le_div_right (by omega)
    rwa [Nat.add_div_right pops modulusPos] at raised
  -- at most one of the two counters has gone round once more
  have laps : 2 * size * (pushes / (2 * size)) = 2 * size * (pops / (2 * size)) ∨
      2 * size * (pushes / (2 * size)) = 2 * size * (pops / (2 * size)) + 2 * size := by
    rcases Nat.lt_or_ge (pops / (2 * size)) (pushes / (2 * size)) with
      more | same
    · right
      have oneMore : pushes / (2 * size) = pops / (2 * size) + 1 := by omega
      rw [oneMore, Nat.mul_succ]
    · left
      have equal : pushes / (2 * size) = pops / (2 * size) := by omega
      rw [equal]
  generalize 2 * size * (pushes / (2 * size)) = pushLaps at *
  generalize 2 * size * (pops / (2 * size)) = popLaps at *
  simp only [Counts] at push pop
  rw [total_eq_ite lapFits (by omega) (by omega)]
  congr 1
  split <;> omega

theorem slot_eq {count : Nat} (sizePos : 0 < size) (fits : count % size * elementSize ≤ intMax) :
    slot size elementSize count = some (count % size * elementSize) := by
  have product : int ((count % size * elementSize : Nat) : Int) =
      some ((count % size * elementSize : Nat) : Int) :=
    int_eq_some (by omega) (by exact_mod_cast fits)
  rw [slot, if_neg (by omega), product, map_some, Int.toNat_natCast]

theorem Representable.slot_eq (representable : Representable size elementSize)
    (sizePos : 0 < size) (count : Nat) :
    slot size elementSize count = some (count % size * elementSize) := by
  have below := mod_lt count sizePos
  exact Circbuf.slot_eq sizePos
    ((Nat.mul_le_mul_right elementSize (by omega)).trans representable.slotsFit)

theorem counter_slot {steps count : Nat} (counted : count = steps % (2 * size)) :
    count % size = steps % size := by
  rw [counted]
  exact mod_mod_of_dvd steps (Dvd.intro_left 2 rfl)

/-- Fewer than `size` elements apart, two positions use different slots. -/
theorem slot_ne {earlier later : Nat} (ordered : earlier < later) (close : later < earlier + size) :
    earlier % size ≠ later % size := by
  intro same
  have divides : size ∣ later - earlier := (modEq_iff_dvd' ordered.le).mp same
  have atMost := le_of_dvd (by omega) divides
  omega

/-- The value stored by an increment: the plain residue or `2*size`. -/
theorem counts_succ {steps : Nat} (sizePos : 0 < size) :
    Counts size (steps + 1) (steps % (2 * size) + 1) := by
  have rest := mod_lt steps (show 0 < 2 * size by omega)
  have folded : (steps + 1) % (2 * size) = (steps % (2 * size) + 1) % (2 * size) := by
    rw [mod_add_mod]
  by_cases last : steps % (2 * size) + 1 = 2 * size
  · right
    refine ⟨last, ?_, succ_pos steps⟩
    rw [folded, last, mod_self]
  · left
    exact (folded.trans (mod_eq_of_lt (by omega))).symm

/-! ## The invariant of guarded runs -/

/-- The element a pop has taken out but not yet returned. -/
def Consumer.holding : Consumer Element → List Element
  | .loadWrap elem | .storeWrap elem => [elem]
  | _ => []

def State.taken (state : State Element) : Nat :=
  state.popped.length + state.consumer.holding.length

/-- What the producer knows at each program point: between its check and its store the
free space only grows. -/
def ProducerOk (size pushes taken pushCount : Nat) (slots : Nat → Element) : Producer Element → Prop
  | .idle | .loadPush _ => pushCount = pushes % (2 * size)
  | .loadPop _ push => pushCount = pushes % (2 * size) ∧ push = pushCount
  | .loadHead _ => pushCount = pushes % (2 * size) ∧ pushes < taken + size
  | .copy _ head =>
    pushCount = pushes % (2 * size) ∧ pushes < taken + size ∧ head = pushCount
  | .loadBump elem =>
    pushCount = pushes % (2 * size) ∧ pushes < taken + size ∧ slots (pushes % size) = elem
  | .storeBump elem push =>
    pushCount = pushes % (2 * size) ∧ pushes < taken + size ∧
      slots (pushes % size) = elem ∧ push = pushCount
  | .loadWrap => 0 < size ∧ Counts size pushes pushCount
  | .storeWrap => pushCount = 2 * size ∧ pushes % (2 * size) = 0 ∧ 0 < pushes

/-- What the consumer knows at each program point: after its check nobody else takes out
an element. -/
def ConsumerOk (size : Nat) (pushed : List Element) (taken popCount : Nat) : Consumer Element → Prop
  | .idle | .loadPush _ => popCount = taken % (2 * size)
  | .loadPop _ push =>
    popCount = taken % (2 * size) ∧
      ∃ stored, total size push popCount = some stored ∧ (stored ≠ 0 → taken < pushed.length)
  | .loadTail _ => popCount = taken % (2 * size) ∧ taken < pushed.length
  | .copy _ tail =>
    popCount = taken % (2 * size) ∧ taken < pushed.length ∧ tail = popCount
  | .loadBump elem => popCount = taken % (2 * size) ∧ pushed[taken]? = some elem
  | .storeBump elem pop =>
    popCount = taken % (2 * size) ∧ pushed[taken]? = some elem ∧ pop = popCount
  | .loadWrap _ => 0 < size ∧ Counts size taken popCount
  | .storeWrap _ => popCount = 2 * size ∧ taken % (2 * size) = 0 ∧ 0 < taken

structure Inv (size : Nat) (state : State Element) : Prop where
  ordered : state.taken ≤ state.pushed.length
  bounded : state.pushed.length ≤ state.taken + size
  stored :
    ∀ position, state.taken ≤ position → position < state.pushed.length →
      state.pushed[position]? = some (state.slots (position % size))
  returned :
    state.popped ++ state.consumer.holding = state.pushed.take state.taken
  producerOk :
    ProducerOk size state.pushed.length state.taken state.pushCount state.slots state.producer
  consumerOk :
    ConsumerOk size state.pushed state.taken state.popCount state.consumer

theorem inv_start (size elementSize : Nat) (uninitialised : Nat → Element) :
    Inv size (circbuf size elementSize uninitialised).start where
  ordered := le_refl 0
  bounded := zero_le _
  stored := fun _ _ impossible => absurd impossible (not_lt_zero _)
  returned := rfl
  producerOk := (zero_mod _).symm
  consumerOk := (zero_mod _).symm

variable {taken : Nat} {slots : Nat → Element}

theorem ProducerOk.counts (known : ProducerOk size pushes taken pushCount slots producer) :
    Counts size pushes pushCount := by
  cases producer with
  | idle | loadPush => exact .inl known
  | loadPop | loadHead | copy | loadBump | storeBump => exact .inl known.1
  | loadWrap => exact known.2
  | storeWrap => exact .inr known

variable {pushed : List Element}

theorem ConsumerOk.counts (known : ConsumerOk size pushed taken popCount consumer) :
    Counts size taken popCount := by
  cases consumer with
  | idle | loadPush => exact .inl known
  | loadPop | loadTail | copy | loadBump | storeBump => exact .inl known.1
  | loadWrap => exact known.2
  | storeWrap => exact .inr known

theorem ProducerOk.mono {more : Nat}
    (known : ProducerOk size pushes taken pushCount slots producer) (grows : taken ≤ more) :
    ProducerOk size pushes more pushCount slots producer := by
  cases producer with
  | idle | loadPush | loadPop | loadWrap | storeWrap => exact known
  | loadHead => exact ⟨known.1, by have := known.2; omega⟩
  | copy | loadBump | storeBump => exact ⟨known.1, by have := known.2.1; omega, known.2.2⟩

theorem ConsumerOk.append
    (known : ConsumerOk size pushed taken popCount consumer) (elem : Element) :
    ConsumerOk size (pushed ++ [elem]) taken popCount consumer := by
  have longer : pushed.length < (pushed ++ [elem]).length := by simp
  have kept : ∀ found, pushed[taken]? = some found → (pushed ++ [elem])[taken]? = some found := by
    intro found present
    have bound : taken < pushed.length := (List.getElem?_eq_some_iff.mp present).1
    rw [getElem?_append_left bound, present]
  cases consumer with
  | idle | loadPush | loadWrap | storeWrap => exact known
  | loadPop =>
    obtain ⟨counted, stored, isTotal, available⟩ := known
    exact ⟨counted, stored, isTotal, fun busy => (available busy).trans longer⟩
  | loadTail => exact ⟨known.1, known.2.trans longer⟩
  | copy => exact ⟨known.1, known.2.1.trans longer, known.2.2⟩
  | loadBump => exact ⟨known.1, kept _ known.2⟩
  | storeBump => exact ⟨known.1, kept _ known.2.1, known.2.2⟩

/-! ## Steps of the producer -/

section

variable (inv : Inv size state)
include inv

theorem Inv.setProducer (known :
      ProducerOk size state.pushed.length state.taken pushCount state.slots producer) :
    Inv size { state with pushCount := pushCount, producer := producer } :=
  { inv with producerOk := known }

theorem Inv.copyHead {head : Nat} (point : state.producer = .copy elem head) :
    Inv size { state with
      slots := update state.slots (head % size) elem
      producer := .loadBump elem } := by
  have known := inv.producerOk
  rw [point] at known
  obtain ⟨counted, room, headEq⟩ := known
  have slot : head % size = state.pushed.length % size := by
    rw [headEq]
    exact counter_slot counted
  refine { inv with stored := ?_, producerOk := ?_ }
  · intro position low high
    -- the slot written is not one of the stored elements' slots
    have other : position % size ≠ head % size := by
      rw [slot]
      exact slot_ne high (room.trans_le (Nat.add_le_add_right low size))
    rw [inv.stored position low high]
    simp only [update_of_ne other]
  · refine ⟨counted, room, ?_⟩
    simp only [slot, update_self]

theorem Inv.publish {push : Nat} (point : state.producer = .storeBump elem push) :
    Inv size { state with
      pushCount := push + 1
      producer := .loadWrap
      pushed := state.pushed ++ [elem] } := by
  have known := inv.producerOk
  rw [point] at known
  obtain ⟨counted, room, content, pushEq⟩ := known
  have ordered := inv.ordered
  have sizePos : 0 < size := by omega
  have grown : (state.pushed ++ [elem]).length = state.pushed.length + 1 := by simp
  refine ⟨?_, ?_, ?_, ?_, ?_, ?_⟩
  · simp only [State.taken, grown] at ordered ⊢
    omega
  · simp only [State.taken, grown] at room ⊢
    omega
  · intro position low high
    rw [grown] at high
    by_cases newest : position = state.pushed.length
    · simp only [newest, getElem?_append_right (le_refl _),
        Nat.sub_self, getElem?_cons_zero, content]
    · have older : position < state.pushed.length := by omega
      simp only [getElem?_append_left older]
      exact inv.stored position low older
  · have before := inv.returned
    simp only [State.taken] at before ordered ⊢
    rw [take_append_of_le_length ordered]
    exact before
  · refine ⟨sizePos, ?_⟩
    rw [grown, pushEq, counted]
    exact counts_succ sizePos
  · exact inv.consumerOk.append elem

/-- A push that goes on makes its next step, and the step keeps the invariant. -/
theorem Inv.producerStep (representable : Representable size elementSize) :
    state.producer = .idle ∧ producerStep size elementSize state = none ∨
      ∃ after, producerStep size elementSize state = some after ∧ Inv size after := by
  have known := inv.producerOk
  have lapFits := representable.lapFits
  unfold Circbuf.producerStep
  split <;> rename_i point <;> simp only [point] at known
  · exact .inl ⟨point, rfl⟩
  all_goals right
  · exact ⟨_, rfl, inv.setProducer ⟨known, rfl⟩⟩
  · rename_i elem push
    obtain ⟨counted, pushEq⟩ := known
    -- the producer reads its own counter, which has been wrapped
    have plain : ¬ (0 < size ∧ push = 2 * size ∧ state.popCount = 0) := by
      rintro ⟨sizePos, transient, _⟩
      have below := mod_lt state.pushed.length (show 0 < 2 * size by omega)
      omega
    rw [total_eq lapFits inv.ordered inv.bounded (.inl (pushEq.trans counted))
      inv.consumerOk.counts plain, bind_some]
    split
    · exact ⟨_, rfl, inv.setProducer counted⟩
    · exact ⟨_, rfl, inv.setProducer ⟨counted, by omega⟩⟩
  · exact ⟨_, rfl, inv.setProducer ⟨known.1, known.2, rfl⟩⟩
  · rename_i elem head
    rw [representable.slot_eq (by have := known.2.1; have := inv.ordered; omega) head, bind_some]
    exact ⟨_, rfl, inv.copyHead point⟩
  · exact ⟨_, rfl, inv.setProducer ⟨known.1, known.2.1, known.2.2, rfl⟩⟩
  · rename_i elem push
    have sizePos : 0 < size := by have := known.2.1; have := inv.ordered; omega
    have below := mod_lt state.pushed.length (show 0 < 2 * size by omega)
    have pushEq := known.2.2.2.trans known.1
    rw [int_eq_some (by omega) (by omega), bind_some]
    exact ⟨_, rfl, inv.publish point⟩
  · obtain ⟨sizePos, counts⟩ := known
    have below := mod_lt state.pushed.length (show 0 < 2 * size by omega)
    rw [int_eq_some (by omega) (by omega), bind_some]
    split
    · refine ⟨_, rfl, inv.setProducer ?_⟩
      rcases counts with plain | wrapped
      · omega
      · exact wrapped
    · refine ⟨_, rfl, inv.setProducer ?_⟩
      rcases counts with plain | wrapped
      · exact plain
      · omega
  · exact ⟨_, rfl, inv.setProducer known.2.1.symm⟩

/-! ## Steps of the consumer -/

/-- The consumer goes on and still holds, or has returned, the same elements. -/
theorem Inv.setConsumer {popped : List Element}
    (same : popped ++ consumer.holding = state.popped ++ state.consumer.holding)
    (known : ConsumerOk size state.pushed state.taken popCount consumer) :
    Inv size { state with popCount, consumer, popped } := by
  have takenEq : State.taken { state with popCount, consumer, popped } = state.taken := by
    simpa only [State.taken, length_append] using congrArg length same
  refine ⟨?_, ?_, ?_, ?_, ?_, ?_⟩ <;> rw [takenEq]
  · exact inv.ordered
  · exact inv.bounded
  · exact inv.stored
  · exact same.trans inv.returned
  · exact inv.producerOk
  · exact known

theorem Inv.takeOut {pop : Nat} (point : state.consumer = .storeBump elem pop) :
    Inv size { state with popCount := pop + 1, consumer := .loadWrap elem } := by
  have known := inv.consumerOk
  rw [point] at known
  obtain ⟨counted, content, popEq⟩ := known
  have bound : state.taken < state.pushed.length := (List.getElem?_eq_some_iff.mp content).1
  have bounded := inv.bounded
  have sizePos : 0 < size := by omega
  have takenEq : State.taken { state with popCount := pop + 1, consumer := .loadWrap elem } =
      state.taken + 1 := by
    simp only [State.taken, point, Consumer.holding, length_nil, length_singleton]
  refine ⟨?_, ?_, ?_, ?_, ?_, ?_⟩
  · rw [takenEq]
    exact bound
  · rw [takenEq]
    exact bounded.trans (by omega)
  · rw [takenEq]
    intro position low high
    exact inv.stored position (by omega) high
  · have returned := inv.returned
    simp only [point, Consumer.holding, append_nil] at returned
    rw [takenEq]
    simp only [Consumer.holding]
    rw [take_add_one, content, ← returned]
    rfl
  · rw [takenEq]
    exact inv.producerOk.mono (le_succ _)
  · rw [takenEq]
    refine ⟨sizePos, ?_⟩
    rw [popEq, counted]
    exact counts_succ sizePos

theorem Inv.consumerStep (representable : Representable size elementSize)
    (guarded : NotBetweenStores size state .consumer) :
    state.consumer = .idle ∧ consumerStep size elementSize state = none ∨
      ∃ after, consumerStep size elementSize state = some after ∧ Inv size after := by
  have known := inv.consumerOk
  have lapFits := representable.lapFits
  unfold Circbuf.consumerStep
  split <;> rename_i point <;> simp only [point] at known
  · exact .inl ⟨point, rfl⟩
  all_goals right
  · refine ⟨_, rfl, inv.setConsumer (by rw [point]; rfl) ⟨known, ?_⟩⟩
    simp only [NotBetweenStores, point] at guarded
    refine ⟨_, total_eq lapFits inv.ordered inv.bounded inv.producerOk.counts
      (.inl known) guarded, ?_⟩
    have ordered := inv.ordered
    omega
  · obtain ⟨counted, stored, isTotal, available⟩ := known
    rw [isTotal, bind_some]
    split
    · exact ⟨_, rfl, inv.setConsumer (by rw [point]; rfl) counted⟩
    · exact ⟨_, rfl, inv.setConsumer (by rw [point]; rfl) ⟨counted, available ‹_›⟩⟩
  · exact ⟨_, rfl, inv.setConsumer (by rw [point]; rfl) ⟨known.1, known.2, rfl⟩⟩
  · rename_i readOnly tail
    obtain ⟨counted, available, tailEq⟩ := known
    rw [representable.slot_eq (by have := inv.bounded; omega) tail, bind_some]
    split
    · exact ⟨_, rfl, inv.setConsumer (by rw [point]; rfl) counted⟩
    · refine ⟨_, rfl, inv.setConsumer (by rw [point]; rfl) ⟨counted, ?_⟩⟩
      rw [inv.stored state.taken (le_refl _) available, tailEq, counter_slot counted]
  · exact ⟨_, rfl, inv.setConsumer (by rw [point]; rfl) ⟨known.1, known.2, rfl⟩⟩
  · rename_i elem pop
    have available := (List.getElem?_eq_some_iff.mp known.2.1).1
    have sizePos : 0 < size := by have := inv.bounded; omega
    have below := mod_lt state.taken (show 0 < 2 * size by omega)
    have popEq := known.2.2.trans known.1
    rw [int_eq_some (by omega) (by omega), bind_some]
    exact ⟨_, rfl, inv.takeOut point⟩
  · obtain ⟨sizePos, counts⟩ := known
    have below := mod_lt state.taken (show 0 < 2 * size by omega)
    rw [int_eq_some (by omega) (by omega), bind_some]
    split
    · refine ⟨_, rfl, inv.setConsumer (by rw [point]; rfl) ?_⟩
      rcases counts with plain | wrapped
      · omega
      · exact wrapped
    · refine ⟨_, rfl, inv.setConsumer (by rw [point]; exact append_nil _) ?_⟩
      rcases counts with plain | wrapped
      · exact plain
      · omega
  · exact ⟨_, rfl, inv.setConsumer (by rw [point]; exact append_nil _) known.2.1.symm⟩

/-! ## Whole runs -/

theorem inv_next {label : Label Element} (representable : Representable size elementSize)
    (guarded : NotBetweenStores size state label)
    (moved : next size elementSize state label = some after) : Inv size after := by
  cases label with
  | push elem =>
    have known := inv.producerOk
    simp only [next] at moved
    split at moved
    · rename_i point
      cases moved
      rw [point] at known
      exact inv.setProducer known
    · cases moved
  | pop readOnly =>
    have known := inv.consumerOk
    simp only [next] at moved
    split at moved
    · rename_i point
      cases moved
      rw [point] at known
      exact inv.setConsumer (by rw [point]; rfl) known
    · cases moved
  | producer =>
    rcases inv.producerStep representable with ⟨_, stays⟩ | ⟨made, isMade, kept⟩
    · cases stays.symm.trans moved
    · cases isMade.symm.trans moved
      exact kept
  | consumer =>
    rcases inv.consumerStep representable guarded with ⟨_, stays⟩ | ⟨made, isMade, kept⟩
    · cases stays.symm.trans moved
    · cases isMade.symm.trans moved
      exact kept

end

/-- For every buffer whose counters and offsets are `int`s: along every
interleaving in which the consumer never loads `push_count` between the
producer's two stores with `pop_count` at 0, the popped elements are a prefix
of the pushed ones, and no step is undefined. -/
theorem fifo_of_notBetweenStores (size elementSize : Nat)
    (representable : Representable size elementSize) (uninitialised : Nat → Element)
    (state : State Element) (reached : (circbuf size elementSize uninitialised).ReachableUnder
      (NotBetweenStores size) state) :
    Fifo state ∧ Defined size elementSize state := by
  have inv : Inv size state := reached.invariant (inv_start size elementSize uninitialised)
    fun _ _ _ _ inv guarded moved => inv_next inv representable guarded moved
  have whole : state.popped <+: state.pushed.take state.taken := by
    rw [← inv.returned]
    exact prefix_append _ _
  refine ⟨whole.trans <| take_prefix _ _, fun busy => ?_, fun busy => ?_⟩
  · obtain ⟨after, made, _⟩ :=
      (inv.producerStep representable).resolve_left fun rests => busy rests.1
    exact ⟨after, made⟩
  · cases point : state.consumer with
    | loadPush => exact ⟨_, by rw [consumerStep, point]⟩
    | _ =>
      -- the condition is on the load of `push_count` only
      obtain ⟨after, made, _⟩ :=
        (inv.consumerStep representable (by simp only [NotBetweenStores, point])).resolve_left
          fun rests => busy rests.1
      exact ⟨after, made⟩

instance (size : Nat) (state : State Element) (label : Label Element) :
    Decidable (NotBetweenStores size state label) :=
  match label with
  | .push _ | .pop _ | .producer => isTrue trivial
  | .consumer =>
    match point : state.consumer with
    | .loadPush _ =>
      decidable_of_iff (¬ (0 < size ∧ state.pushCount = 2 * size ∧ state.popCount = 0))
        (by simp only [NotBetweenStores, point])
    | .idle | .loadPop _ _ | .loadTail _ | .copy _ _ | .loadBump _
    | .storeBump _ _ | .loadWrap _ | .storeWrap _ =>
      isTrue (by simp only [NotBetweenStores, point])

/-- Two elements through a one-slot buffer, one call after the other. -/
private def alternating : List (Label Nat) :=
  Label.push 1 :: replicate 7 Label.producer ++ Label.pop false :: replicate 7 Label.consumer ++
    Label.push 2 :: replicate 8 Label.producer ++ Label.pop false :: replicate 8 Label.consumer

theorem fifo_alternating :
    ∃ state, (circbuf 1 1 (fun _ => 0)).ReachableUnder (NotBetweenStores 1) state ∧
      state.popped = [1, 2] ∧ Fifo state ∧ Defined 1 1 state := by
  obtain ⟨state, reached, popped⟩ := Machine.exists_reachableUnder_of_run
    (circbuf 1 1 (fun _ => 0)) (NotBetweenStores 1) alternating
    (fun state => decide (state.popped = [1, 2])) (by decide) (by decide)
  exact ⟨state, reached, of_decide_eq_true popped,
    fifo_of_notBetweenStores 1 1 ⟨by decide, by decide, by decide⟩ (fun _ => 0) state reached⟩

/-- The producer stops after storing `push_count = 2`. The consumer takes
the second element, wraps `pop_count` to 0, and the next pop finds
`total = 2`: it returns the second element again. -/
private def popTwice : List (Label Nat) :=
  Label.push 1 :: replicate 7 Label.producer ++ Label.pop false :: replicate 7 Label.consumer ++
    Label.push 2 :: replicate 6 Label.producer ++ Label.pop false :: replicate 8 Label.consumer ++
    Label.pop false :: replicate 7 Label.consumer

theorem not_fifo_popTwice :
    ¬ ∀ state : State Nat, (circbuf 1 1 (fun _ => 0)).Reachable state → Fifo state := by
  intro always
  obtain ⟨state, reached, logs⟩ := Machine.exists_reachable_of_run
    (circbuf 1 1 (fun _ => 0)) popTwice
    (fun state => decide (state.popped = [1, 2, 2] ∧ state.pushed = [1, 2]))
    (by decide)
  obtain ⟨popped, pushed⟩ := of_decide_eq_true logs
  have isPrefix := always state reached
  rw [Fifo, popped, pushed] at isPrefix
  exact absurd isPrefix.length_le (by decide)

end Skyc.Utils.Circbuf
