import Skyc.Lib.DoublyLinked

/-!
# The time wheel

`11.4.tw_timer.h` keeps timers in `N` doubly linked lists, the slots of a wheel
that turns by one slot at each `tick`.  A result is missing when the code
dereferences a pointer that is not a timer or when the loop of `tick` exceeds the
number of timers created so far.  `addTimer` is given the address of the new timer.
-/

namespace Skyc.Socket.TimeWheel

open Skyc.Lib Function List Option Nat

abbrev N : ℕ := 60

abbrev TI : ℕ := 1

/-- The fields `rotation` and `time_slot` of a `tw_timer`. -/
structure Timer where
  rotation : ℕ
  timeSlot : Fin N
deriving DecidableEq, Repr

/-- `time_wheel` with the memory of the timers. -/
structure Wheel where
  cells : Cells Timer
  slots : Fin N → Option Addr
  curSlot : Fin N
  /-- The timers created so far. -/
  created : ℕ
  /-- The timers whose callback has run, in order. -/
  fired : List Addr

def empty : Wheel where
  cells := fun _ => none
  slots := fun _ => none
  curSlot := 0
  created := 0
  fired := []

/-! ## The functions -/

/-- `ticks` of `add_timer` -/
def ticksOf (timeout : ℕ) : ℕ :=
  if timeout < TI then 1 else timeout / TI

def addTimer (wheel : Wheel) (timer : Addr) (timeout : ℤ) : Option (Wheel × Option Addr) :=
  if timeout < 0 then
    some (wheel, none)
  else do
    let ticks := ticksOf timeout.toNat
    let rotation := ticks / N
    let ts := Fin.ofNat N (wheel.curSlot + ticks % N)
    let cells : Cells Timer := update wheel.cells timer (some ⟨none, none, ⟨rotation, ts⟩⟩)
    let created := wheel.created + 1
    let slots := update wheel.slots ts (some timer)
    match wheel.slots ts with
    | none => return ({ wheel with cells, created, slots }, some timer)
    | some head => do
      let cells ← cells.setNext timer (some head)
      let cells ← cells.setPrev head (some timer)
      return ({ wheel with cells, created, slots }, some timer)

def delTimer (wheel : Wheel) (timer : Addr) : Option Wheel := do
  let cell ← wheel.cells timer
  let ts := cell.data.timeSlot
  if wheel.slots ts = some timer then
    let cells ← wheel.cells.linkPrev cell.next none
    let cells ← cells.free timer
    return { wheel with
      cells, slots := update wheel.slots ts cell.next }
  else
    let prev ← cell.prev
    let cells ← wheel.cells.setNext prev cell.next
    let cells ← cells.linkPrev cell.next (some prev)
    let cells ← cells.free timer
    return { wheel with cells }

/-- The loop of `tick`. -/
def tickLoop : ℕ → Wheel → Option Addr → Option Wheel
  | 0, _, _ => none
  | _ + 1, wheel, none => some wheel
  | fuel + 1, wheel, some tmp => do
    let cell ← wheel.cells tmp
    if 0 < cell.data.rotation then
      let cells ← wheel.cells.setData tmp { cell.data with rotation := cell.data.rotation - 1 }
      tickLoop fuel { wheel with cells } cell.next
    else
      let fired := wheel.fired ++ [tmp]
      if wheel.slots wheel.curSlot = some tmp then
        let slots := update wheel.slots wheel.curSlot cell.next
        let cells ← wheel.cells.free tmp
        let cells ← cells.linkPrev cell.next none
        tickLoop fuel { wheel with cells, slots, fired } cell.next
      else
        let prev ← cell.prev
        let cells ← wheel.cells.setNext prev cell.next
        let cells ← cells.linkPrev cell.next (some prev)
        let cells ← cells.free tmp
        tickLoop fuel { wheel with cells, fired } cell.next

def tick (wheel : Wheel) : Option Wheel := do
  let wheel ← tickLoop (wheel.created + 1) wheel (wheel.slots wheel.curSlot)
  return { wheel with curSlot := Fin.ofNat N (wheel.curSlot + 1) }

/-! ## The wheel in memory -/

/-- The fields of the timers that have been added and neither deleted nor
fired. -/
abbrev Live := Addr → Option Timer

/-- Each slot is a doubly linked list of the live timers of that slot. -/
structure Represents (wheel : Wheel) (live : Live) (lists : Fin N → List Addr) : Prop where
  data : ∀ timer, wheel.cells.dataAt timer = live timer
  links : ∀ slot, Segment wheel.cells none (lists slot) none
  heads : ∀ slot, wheel.slots slot = (lists slot).head?
  members : ∀ slot timer, timer ∈ lists slot ↔ ∃ data, live timer = some data ∧ data.timeSlot = slot
  bounded : ∀ slot, (lists slot).length ≤ wheel.created

variable {wheel : Wheel} {live : Live} {lists : Fin N → List Addr}
  {timer : Addr} {slot : Fin N} {first second : List Addr}

theorem represents_empty : Represents empty (fun _ => none) (fun _ => []) where
  data := fun _ => rfl
  links := fun _ => trivial
  heads := fun _ => rfl
  members := by
    simp
  bounded := fun _ => le_refl _

namespace Represents

section

variable (rep : Represents wheel live lists)
include rep

theorem apart {other : Fin N} (different : other ≠ slot) (member : timer ∈ lists other) :
    timer ∉ lists slot := by
  intro again
  obtain ⟨data, isLive, atOther⟩ := (rep.members other timer).mp member
  obtain ⟨same, isSame, atSlot⟩ := (rep.members slot timer).mp again
  rw [isLive] at isSame
  cases isSame
  exact different (atOther.symm.trans atSlot)

section

variable (split : lists slot = first ++ timer :: second)
include split

theorem cell :
    ∃ data, wheel.cells timer = some ⟨second.head?, first.getLast?, data⟩ ∧
      live timer = some data ∧ data.timeSlot = slot := by
  have links := rep.links slot
  rw [split] at links
  obtain ⟨data, found⟩ := links.cell
  have isLive : live timer = some data := by
    rw [← rep.data, Cells.dataAt, found]
    rfl
  have member : timer ∈ lists slot := by
    rw [split]
    simp
  obtain ⟨same, isSame, atSlot⟩ := (rep.members slot timer).mp member
  rw [isLive] at isSame
  cases isSame
  exact ⟨data, found, isLive, atSlot⟩

/-- A timer is taken out of the list of its slot and its memory is given
back. -/
theorem remove :
    ∃ middle relinked freed, wheel.cells.linkNext first.getLast? second.head? = some middle ∧
      middle.linkPrev second.head? first.getLast? = some relinked ∧
      relinked.free timer = some freed ∧ Represents { wheel with
          cells := freed
          slots := update wheel.slots slot
            (first ++ second).head? }
        (update live timer none)
        (update lists slot (first ++ second)) := by
  have links := rep.links slot
  rw [split] at links
  have absent : timer ∉ first ++ second := (nodup_middle.mp links.nodup).notMem
  obtain ⟨middle, relinked, freed, wroteNext, wrotePrev, wroteFree, segment,
    data, outside⟩ := links.remove
  have sameData : wheel.cells.dataAt = live := funext rep.data
  rw [sameData] at data
  obtain ⟨fields, -, isLive, atSlot⟩ := rep.cell split
  refine ⟨middle, relinked, freed, wroteNext, wrotePrev, wroteFree, data, ?_, ?_, ?_, ?_⟩
  · intro other
    by_cases same : other = slot
    · subst same
      rw [update_self]
      exact segment
    · rw [update_of_ne same]
      apply (rep.links other).congr
      intro address member
      apply outside
      rw [← split]
      exact rep.apart same member
  · intro other
    by_cases same : other = slot
    · subst same
      simp only [update_self]
    · simp only [update_of_ne same]
      exact rep.heads other
  · intro other address
    have members := rep.members other address
    by_cases isTimer : address = timer
    · subst isTimer
      rw [update_self]
      by_cases same : other = slot
      · subst same
        simp [absent]
      · rw [update_of_ne same]
        constructor
        · intro member
          obtain ⟨otherFields, otherLive, atOther⟩ := members.mp member
          rw [isLive] at otherLive
          cases otherLive
          exact absurd (atOther.symm.trans atSlot) same
        · intro impossible
          obtain ⟨_, isNone, -⟩ := impossible
          cases isNone
    · rw [update_of_ne isTimer, ← members]
      by_cases same : other = slot
      · subst same
        rw [update_self, split]
        simp [isTimer]
      · rw [update_of_ne same]
  · intro other
    by_cases same : other = slot
    · subst same
      have bounded := rep.bounded other
      rw [split] at bounded
      rw [update_self]
      simp only [length_append, length_cons] at bounded ⊢
      omega
    · rw [update_of_ne same]
      exact rep.bounded other

/-- Removing a timer that is not the first of its slot keeps the slots. -/
theorem slots_of_not_first (later : first ≠ []) :
    update wheel.slots slot (first ++ second).head? = wheel.slots := by
  rw [update_eq_self_iff, rep.heads, split]
  cases first with
  | nil => exact absurd rfl later
  | cons _ _ => rfl

theorem not_head (later : first ≠ []) : ¬ (wheel.slots slot = some timer) := by
  intro isHead
  have links := rep.links slot
  rw [rep.heads, split] at isHead
  rw [split] at links
  have absent : timer ∉ first ++ second := (nodup_middle.mp links.nodup).notMem
  cases first with
  | nil => exact later rfl
  | cons head rest =>
    cases isHead
    exact absent (by simp)

end

end

theorem setRotation {data : Timer} (rotation : ℕ) (rep : Represents wheel live lists)
    (isLive : live timer = some data) :
    ∃ cells, wheel.cells.setData timer { data with rotation } = some cells ∧
      Represents { wheel with cells } (update live timer (some { data with rotation })) lists := by
  have atTimer := rep.data timer
  rw [isLive] at atTimer
  obtain ⟨cell, found, rfl⟩ := map_eq_some_iff.mp atTimer
  obtain ⟨cells, written, data⟩ := Cells.exists_setData found { cell.data with rotation }
  have sameData : wheel.cells.dataAt = live := funext rep.data
  rw [sameData] at data
  refine ⟨cells, written, congrFun data, ?_, rep.heads, ?_, rep.bounded⟩
  · intro slot
    exact (rep.links slot).setData written
  · intro slot other
    rw [rep.members]
    by_cases same : other = timer
    · subst same
      simp [isLive]
    · rw [update_of_ne same]

end Represents

/-! ## Deleting and adding -/

variable (rep : Represents wheel live lists)

include rep in
theorem delTimer_spec (isLive : (live timer).isSome = true) :
    ∃ after listsAfter, delTimer wheel timer = some after ∧ after.curSlot = wheel.curSlot ∧
      after.fired = wheel.fired ∧ Represents after (update live timer none) listsAfter := by
  obtain ⟨fields, isFields⟩ := isSome_iff_exists.mp isLive
  obtain ⟨first, second, split⟩ := append_of_mem
    ((rep.members fields.timeSlot timer).mpr ⟨fields, isFields, rfl⟩)
  obtain ⟨data, found, isData, -⟩ := rep.cell split
  rw [isFields] at isData
  cases isData
  obtain ⟨middle, relinked, freed, wroteNext, wrotePrev, wroteFree, result⟩ := rep.remove split
  have head := rep.heads fields.timeSlot
  rw [split] at head
  rcases eq_nil_or_concat first with rfl | ⟨earlier, prev, rfl⟩
  · obtain rfl := Option.some.inj wroteNext
    have isHead : wheel.slots fields.timeSlot = some timer := head
    have wrote : wheel.cells.linkPrev second.head? none = some relinked := wrotePrev
    refine ⟨{ wheel with
        cells := freed
        slots := update wheel.slots fields.timeSlot second.head? },
      _, ?_, rfl, rfl, result⟩
    simp only [delTimer, found, isHead, if_true, wrote, wroteFree, some_bind, Option.pure_def]
  · rw [concat_eq_append] at *
    have notHead := rep.not_head split (by simp)
    rw [rep.slots_of_not_first split (by simp)] at result
    rw [getLast?_concat] at found wroteNext wrotePrev
    have wrote : wheel.cells.setNext prev second.head? = some middle := wroteNext
    refine ⟨{ wheel with cells := freed }, _, ?_, rfl, rfl, result⟩
    simp only [delTimer, found, notHead, if_false, wrote, wrotePrev,
      wroteFree, some_bind, Option.pure_def]

def newTimer (curSlot : Fin N) (ticks : ℕ) : Timer where
  rotation := ticks / N
  timeSlot := Fin.ofNat N (curSlot + ticks % N)

include rep in
theorem Represents.insert {cells : Cells Timer} {data : Timer} (unused : live timer = none)
    (kept : ∀ other, cells.dataAt other = update live timer (some data) other)
    (links : Segment cells none (timer :: lists data.timeSlot) none)
    (outside : ∀ other, other ∉ timer :: lists data.timeSlot → cells other = wheel.cells other) :
    Represents { wheel with
        cells, created := wheel.created + 1
        slots := update wheel.slots data.timeSlot (some timer) }
      (update live timer (some data))
      (update lists data.timeSlot (timer :: lists data.timeSlot)) := by
  have absent : ∀ slot, timer ∉ lists slot := by
    intro slot member
    obtain ⟨fields, isLive, -⟩ := (rep.members slot timer).mp member
    rw [unused] at isLive
    cases isLive
  refine ⟨kept, ?_, ?_, ?_, ?_⟩
  · intro slot
    by_cases same : slot = data.timeSlot
    · rw [same, update_self]
      exact links
    · rw [update_of_ne same]
      apply (rep.links slot).congr
      intro other member
      apply outside
      rw [mem_cons]
      intro again
      rcases again with isTimer | again
      · exact absent slot (isTimer ▸ member)
      · exact rep.apart same member again
  · intro slot
    by_cases same : slot = data.timeSlot
    · simp only [same, update_self, head?_cons]
    · simp only [update_of_ne same]
      exact rep.heads slot
  · intro slot other
    have members := rep.members slot other
    by_cases isTimer : other = timer
    · subst isTimer
      rw [update_self]
      by_cases same : slot = data.timeSlot
      · simp [same]
      · rw [update_of_ne same]
        constructor
        · intro member
          exact absurd member (absent slot)
        · intro atSlot
          obtain ⟨fields, isFields, atSlot⟩ := atSlot
          cases isFields
          exact absurd atSlot.symm same
    · rw [update_of_ne isTimer, ← members]
      by_cases same : slot = data.timeSlot
      · simp [same, isTimer]
      · rw [update_of_ne same]
  · intro slot
    by_cases same : slot = data.timeSlot
    · rw [same, update_self]
      exact succ_le_succ (rep.bounded data.timeSlot)
    · rw [update_of_ne same]
      exact le_succ_of_le (rep.bounded slot)

variable {timeout : ℤ}

include rep in
theorem addTimer_spec (unused : live timer = none) (nonnegative : 0 ≤ timeout) :
    ∃ after listsAfter, addTimer wheel timer timeout = some (after, some timer) ∧
      after.curSlot = wheel.curSlot ∧ after.fired = wheel.fired ∧
      Represents after (update live timer (some (newTimer wheel.curSlot (ticksOf timeout.toNat))))
        listsAfter := by
  generalize isData : newTimer wheel.curSlot (ticksOf timeout.toNat) = data
  have absent : timer ∉ lists data.timeSlot := by
    intro member
    obtain ⟨fields, isLive, -⟩ := (rep.members data.timeSlot timer).mp member
    rw [unused] at isLive
    cases isLive
  have sameData : wheel.cells.dataAt = live := funext rep.data
  let created : Cells Timer := update wheel.cells timer (some ⟨none, none, data⟩)
  have createdData : created.dataAt = update live timer (some data) := by
    rw [Cells.dataAt_update, sameData]
    rfl
  have keptLinks : Segment created none (lists data.timeSlot) none := by
    apply (rep.links data.timeSlot).congr
    intro other member
    exact update_of_ne (ne_of_mem_of_not_mem member absent) ..
  have atTimer : created timer = some ⟨none, none, data⟩ := update_self ..
  have outside : ∀ other, other ∉ timer :: lists data.timeSlot →
      created other = wheel.cells other := by
    intro other foreign
    rw [mem_cons, not_or] at foreign
    exact update_of_ne foreign.1 ..
  have head := rep.heads data.timeSlot
  have notNegative : ¬ (timeout < 0) := Int.not_lt.mpr nonnegative
  cases atSlot : lists data.timeSlot with
  | nil =>
    rw [atSlot] at head
    have links : Segment created none (timer :: lists data.timeSlot) none := by
      rw [atSlot]
      exact ⟨⟨data, atTimer⟩, trivial⟩
    refine ⟨{ wheel with
        cells := created, created := wheel.created + 1
        slots := update wheel.slots data.timeSlot (some timer) },
      _, ?_, rfl, rfl,
      rep.insert unused (congrFun createdData) links outside⟩
    subst isData
    have noHead : wheel.slots (Fin.ofNat N (wheel.curSlot + ticksOf timeout.toNat % N)) = none :=
      head
    simp only [addTimer, if_neg notNegative, noHead]
    rfl
  | cons first rest =>
    obtain ⟨placed, cells, wroteNext, wrotePrev, links, relinked⟩ :=
      keptLinks.push keptLinks.nodup absent atTimer rfl
    rw [atSlot] at head wroteNext wrotePrev
    have sameCells : cells.dataAt = created.dataAt := funext relinked.data
    rw [← sameCells] at createdData
    refine ⟨{ wheel with
        cells, created := wheel.created + 1
        slots := update wheel.slots data.timeSlot (some timer) },
      _, ?_, rfl, rfl,
      rep.insert unused (congrFun createdData) links
        fun other foreign => (relinked.outside other foreign).trans (outside other foreign)⟩
    subst isData
    have isHead : wheel.slots (Fin.ofNat N (wheel.curSlot + ticksOf timeout.toNat % N)) =
      some first := head
    have wroteOne : Cells.setNext (update wheel.cells timer (some ⟨none, none,
              ⟨ticksOf timeout.toNat / N, Fin.ofNat N
                (wheel.curSlot + ticksOf timeout.toNat % N)⟩⟩)) timer (some first) =
          some placed := wroteNext
    have wroteTwo : placed.setPrev first (some timer) = some cells := wrotePrev
    simp only [addTimer, if_neg notNegative, isHead, wroteOne, wroteTwo, some_bind]
    rfl

/-! ## Ticking -/

/-- What the wheel does to a timer of the current slot: it fires or counts
its turns down. -/
def Timer.turn (data : Timer) : Option Timer :=
  if 0 < data.rotation then
    some { data with rotation := data.rotation - 1 }
  else
    none

/-- The timers after those in a list have been passed. -/
def passed (live : Live) (timers : List Addr) : Live :=
  fun timer => if timer ∈ timers then (live timer).bind Timer.turn else live timer

variable {change : Option Timer}

theorem passed_update {rest : List Addr} (absent : timer ∉ rest)
    (turned : (live timer).bind Timer.turn = change) :
    passed (update live timer change) rest = passed live (timer :: rest) := by
  funext other
  by_cases same : other = timer
  · subst same
    simp [passed, absent, turned]
  · simp [passed, same]

/-- The callbacks that run when a timer is passed. -/
def firing (live : Live) (timer : Addr) : List Addr :=
  if (live timer).bind Timer.turn = none then [timer] else []

/-- The wheel after one round of the loop of `tick`, whose timer has been
passed. -/
structure Round (wheel next : Wheel) (live : Live)
    (listsNext : Fin N → List Addr) (timer : Addr) (rest : List Addr) : Prop where
  continues : ∀ fuel, tickLoop (fuel + 1) wheel (some timer) = tickLoop fuel next rest.head?
  curSlot : next.curSlot = wheel.curSlot
  fired : next.fired = wheel.fired ++ firing live timer
  rep : Represents next (update live timer ((live timer).bind Timer.turn)) listsNext
  left : ∃ kept, listsNext wheel.curSlot = kept ++ rest

variable {kept rest : List Addr} {data : Timer}

section

variable (rep : Represents wheel live lists)
  (split : lists wheel.curSlot = kept ++ timer :: rest) (isLive : live timer = some data)

include rep split isLive

theorem Represents.round_count (turns : 0 < data.rotation) :
    ∃ next, Round wheel next live lists timer rest := by
  obtain ⟨same, found, isSame, -⟩ := rep.cell split
  rw [isLive] at isSame
  cases isSame
  have turned : (live timer).bind Timer.turn =
      some { data with rotation := data.rotation - 1 } := by
    rw [isLive, bind_some, Timer.turn, if_pos turns]
  obtain ⟨cells, written, counted⟩ := rep.setRotation (data.rotation - 1) isLive
  rw [← turned] at counted
  refine ⟨{ wheel with cells }, ⟨?_, rfl, ?_, counted, kept ++ [timer], ?_⟩⟩
  · intro fuel
    simp only [tickLoop, found, if_pos turns, written, some_bind]
  · rw [firing, turned]
    exact (append_nil _).symm
  · rw [split, append_assoc, singleton_append]

theorem Represents.round_fire (noTurns : ¬ 0 < data.rotation) :
    ∃ next listsNext, Round wheel next live listsNext timer rest := by
  obtain ⟨same, found, isSame, -⟩ := rep.cell split
  rw [isLive] at isSame
  cases isSame
  have turned : (live timer).bind Timer.turn = none := by
    rw [isLive, bind_some, Timer.turn, if_neg noTurns]
  have fired : wheel.fired ++ [timer] = wheel.fired ++ firing live timer := by
    rw [firing, if_pos turned]
  have links := rep.links wheel.curSlot
  rw [split] at links
  obtain ⟨middle, relinked, freed, wroteNext, wrotePrev, wroteFree, removed⟩ := rep.remove split
  rw [← turned] at removed
  rcases eq_nil_or_concat kept with rfl | ⟨earlier, prev, rfl⟩
  · obtain rfl := some.inj wroteNext
    have isHead : wheel.slots wheel.curSlot = some timer := by
      rw [rep.heads, split]
      rfl
    have apart : rest.head? ≠ some timer := by
      intro again
      exact (nodup_cons.mp links.nodup).1 (mem_of_head? again)
    have wrote : ((wheel.cells.free timer).bind fun cells =>
        cells.linkPrev rest.head? none) = some freed := by
      have written : wheel.cells.linkPrev rest.head? none = some relinked := wrotePrev
      rw [Cells.free_linkPrev_comm _ _ _ apart, written]
      exact wroteFree
    obtain ⟨cells, wroteOne, wroteTwo⟩ := bind_eq_some_iff.mp wrote
    refine ⟨⟨freed, update wheel.slots wheel.curSlot rest.head?,
        wheel.curSlot, wheel.created, wheel.fired ++ [timer]⟩, _,
      ⟨?_, rfl, fired, { removed with }, [], ?_⟩⟩
    · intro fuel
      simp only [tickLoop, found, if_neg noTurns, isHead, if_true, wroteOne, wroteTwo, some_bind]
    · exact update_self ..
  · rw [concat_eq_append] at *
    have notHead := rep.not_head split (by simp)
    rw [rep.slots_of_not_first split (by simp)] at removed
    rw [getLast?_concat] at found wroteNext wrotePrev
    have wrote : wheel.cells.setNext prev rest.head? = some middle := wroteNext
    refine ⟨⟨freed, wheel.slots, wheel.curSlot, wheel.created, wheel.fired ++ [timer]⟩, _,
      ⟨?_, rfl, fired, { removed with }, earlier ++ [prev], ?_⟩⟩
    · intro fuel
      simp only [tickLoop, found, if_neg noTurns, notHead, if_false, wrote,
        wrotePrev, wroteFree, some_bind]
    · exact update_self ..

end

/-- The timers of a list whose turns are over. -/
structure Due (live : Live) (timers due : List Addr) : Prop where
  once : due.Nodup
  exactly : ∀ timer, timer ∈ due ↔ timer ∈ timers ∧ (live timer).bind Timer.turn = none

variable {due : List Addr}

theorem Due.cons (isDue : Due (update live timer change) rest due) (absent : timer ∉ rest) :
    Due live (timer :: rest) (firing live timer ++ due) where
  once := by
    have notDue : timer ∉ due := fun member =>
      absent ((isDue.exactly timer).mp member).1
    rw [firing]
    split
    · exact nodup_cons.mpr ⟨notDue, isDue.once⟩
    · exact isDue.once
  exactly := by
    intro other
    rw [mem_append, isDue.exactly, firing]
    by_cases same : other = timer
    · subst same
      by_cases turned : (live other).bind Timer.turn = none
      · simp [turned]
      · simp [turned, absent]
    · split
      · simp [same]
      · simp [same]

include rep in
theorem Represents.round (split : lists wheel.curSlot = kept ++ timer :: rest) :
    ∃ next listsNext, Round wheel next live listsNext timer rest := by
  obtain ⟨data, -, isLive, -⟩ := rep.cell split
  by_cases turns : 0 < data.rotation
  · obtain ⟨next, round⟩ := rep.round_count split isLive turns
    exact ⟨next, lists, round⟩
  · exact rep.round_fire split isLive turns

include rep in
theorem tickLoop_spec {fuel : ℕ} (split : lists wheel.curSlot = kept ++ rest)
    (enough : rest.length < fuel) :
    ∃ after listsAfter due, tickLoop fuel wheel rest.head? = some after ∧
      after.curSlot = wheel.curSlot ∧ after.fired = wheel.fired ++ due ∧ Due live rest due ∧
      Represents after (passed live rest) listsAfter := by
  induction rest generalizing wheel live lists fuel kept with
  | nil =>
    obtain ⟨fuel, rfl⟩ := exists_eq_add_one_of_ne_zero (ne_zero_of_lt enough)
    have samePassed : passed live [] = live := by
      funext timer
      simp [passed]
    refine ⟨wheel, lists, [], rfl, rfl, (append_nil _).symm, ⟨nodup_nil, by simp⟩, ?_⟩
    rw [samePassed]
    exact rep
  | cons timer rest ih =>
    obtain ⟨fuel, rfl⟩ := exists_eq_add_one_of_ne_zero (ne_zero_of_lt enough)
    have links := rep.links wheel.curSlot
    rw [split] at links
    have absent : timer ∉ rest := (nodup_cons.mp links.nodup.of_append_right).1
    obtain ⟨next, listsNext, round⟩ := rep.round split
    obtain ⟨keptNext, splitNext⟩ := round.left
    rw [← round.curSlot] at splitNext
    obtain ⟨after, listsAfter, due, looped, curSlot, fired, isDue, result⟩ :=
      ih round.rep splitNext (lt_of_succ_lt_succ enough)
    rw [passed_update absent rfl] at result
    refine ⟨after, listsAfter, firing live timer ++ due, ?_,
      curSlot.trans round.curSlot, ?_, isDue.cons absent, result⟩
    · rw [head?_cons, round.continues]
      exact looped
    · rw [fired, round.fired, append_assoc]

/-! ## The schedule -/

/-- The number of ticks that come before the one on which a timer fires. -/
def Timer.left (curSlot : Fin N) (data : Timer) : ℕ :=
  data.rotation * N + (data.timeSlot + N - curSlot) % N

theorem left_newTimer (curSlot : Fin N) (ticks : ℕ) :
    (newTimer curSlot ticks).left curSlot = ticks := by
  have inside : curSlot.val < 60 := curSlot.isLt
  simp only [Timer.left, newTimer, Fin.val_ofNat, N]
  omega

variable {curSlot : Fin N}

theorem left_of_ne (different : data.timeSlot ≠ curSlot) :
    (data.left curSlot).ppred = some (data.left (Fin.ofNat N (curSlot + 1))) := by
  have inside : curSlot.val < 60 := curSlot.isLt
  have slotInside : data.timeSlot.val < 60 := data.timeSlot.isLt
  have apart : data.timeSlot.val ≠ curSlot.val := fun same =>
    different (Fin.ext same)
  rw [ppred_eq_some]
  simp only [Timer.left, Fin.val_ofNat, N]
  omega

/-- A timer of the current slot fires when no tick is left and is one tick
nearer afterwards otherwise. -/
theorem left_of_eq (same : data.timeSlot = curSlot) :
    (data.left curSlot).ppred = data.turn.map (Timer.left (Fin.ofNat N (curSlot + 1))) := by
  subst same
  have inside : data.timeSlot.val < 60 := data.timeSlot.isLt
  by_cases turns : 0 < data.rotation
  · rw [Timer.turn, if_pos turns, map_some, ppred_eq_some]
    simp only [Timer.left, Fin.val_ofNat, N]
    omega
  · rw [Timer.turn, if_neg turns, map_none, ppred_eq_none]
    simp only [Timer.left, N]
    omega

/-- For every live timer the number of ticks that come before the one on
which it fires. -/
abbrev Schedule := Addr → Option ℕ

def scheduleOf (curSlot : Fin N) (live : Live) : Schedule :=
  fun timer => (live timer).map (Timer.left curSlot)

theorem scheduleOf_update (curSlot : Fin N) (live : Live) (timer : Addr) (change : Option Timer) :
    scheduleOf curSlot (update live timer change) =
      update (scheduleOf curSlot live) timer (change.map (Timer.left curSlot)) := by
  funext other
  by_cases same : other = timer
  · subst same
    simp [scheduleOf]
  · simp [scheduleOf, same]

/-- The wheel is well formed and its timers are due as scheduled. -/
def Follows (wheel : Wheel) (schedule : Schedule) : Prop :=
  ∃ live lists, Represents wheel live lists ∧ schedule = scheduleOf wheel.curSlot live

inductive Operation
  | add (timer : Addr) (timeout : ℤ)
  | del (timer : Addr)
  | tick
deriving DecidableEq, Repr

def perform (wheel : Wheel) : Operation → Option Wheel
  | .add timer timeout => (addTimer wheel timer timeout).map Prod.fst
  | .del timer => delTimer wheel timer
  | .tick => tick wheel

def performAll (wheel : Wheel) : List Operation → Option Wheel
  | [] => some wheel
  | operation :: rest => (perform wheel operation).bind (performAll · rest)

def Operation.after (schedule : Schedule) : Operation → Schedule
  | .add timer timeout => update schedule timer (some (max 1 (timeout / TI)).toNat)
  | .del timer => update schedule timer none
  | .tick => fun timer => (schedule timer).bind Nat.ppred

/-- How often a call runs the callback of a timer. -/
def Operation.fires (schedule : Schedule) (timer : Addr) : Operation → ℕ
  | .tick => if schedule timer = some 0 then 1 else 0
  | _ => 0

/-- A timer is created in free memory, and only live timers are deleted. -/
def Operation.Proper (schedule : Schedule) : Operation → Prop
  | .add timer timeout => 0 ≤ timeout ∧ schedule timer = none
  | .del timer => (schedule timer).isSome = true
  | .tick => True

def ProperRun : Schedule → List Operation → Prop
  | _, [] => True
  | schedule, operation :: rest =>
    operation.Proper schedule ∧ ProperRun (operation.after schedule) rest

variable {schedule : Schedule}

theorem follows_empty : Follows empty fun _ => none := ⟨_, _, represents_empty, rfl⟩

variable (follows : Follows wheel schedule)

include follows in
theorem Follows.add (nonnegative : 0 ≤ timeout) (unused : schedule timer = none) :
    ∃ after, perform wheel (.add timer timeout) = some after ∧ after.fired = wheel.fired ∧
      Follows after (Operation.after schedule (.add timer timeout)) := by
  obtain ⟨live, lists, rep, rfl⟩ := follows
  obtain ⟨after, listsAfter, added, curSlot, fired, result⟩ :=
    addTimer_spec rep (map_eq_none_iff.mp unused) nonnegative
  have ticks : ticksOf timeout.toNat = (max 1 (timeout / TI)).toNat := by
    simp only [ticksOf, TI]
    split
    all_goals omega
  refine ⟨after, ?_, fired, _, listsAfter, result, ?_⟩
  · rw [perform, added]
    rfl
  · rw [curSlot, scheduleOf_update, map_some, left_newTimer, ticks]
    rfl

include follows in
theorem Follows.del (isLive : (schedule timer).isSome = true) :
    ∃ after, perform wheel (.del timer) = some after ∧ after.fired = wheel.fired ∧
      Follows after (Operation.after schedule (.del timer)) := by
  obtain ⟨live, lists, rep, rfl⟩ := follows
  obtain ⟨after, listsAfter, deleted, curSlot, fired, result⟩ :=
    delTimer_spec rep (by simpa [scheduleOf] using isLive)
  refine ⟨after, deleted, fired, _, listsAfter, result, ?_⟩
  rw [curSlot, scheduleOf_update]
  rfl

include rep in
/-- Passing the timers of the current slot brings every timer one tick
nearer. -/
theorem Represents.scheduleOf_passed :
    scheduleOf (Fin.ofNat N (wheel.curSlot + 1)) (passed live (lists wheel.curSlot)) =
      Operation.after (scheduleOf wheel.curSlot live) .tick := by
  funext timer
  have members := rep.members wheel.curSlot timer
  simp only [scheduleOf, passed, Operation.after]
  cases isLive : live timer with
  | none => simp
  | some data =>
    simp only [map_some, bind_some]
    by_cases same : data.timeSlot = wheel.curSlot
    · have member := members.mpr ⟨data, isLive, same⟩
      rw [if_pos member, left_of_eq same]
    · have absent : timer ∉ lists wheel.curSlot := by
        intro member
        obtain ⟨fields, isFields, atSlot⟩ := members.mp member
        rw [isLive] at isFields
        cases isFields
        exact same atSlot
      rw [if_neg absent, left_of_ne same, map_some]

include rep in
theorem Represents.due_iff (isDue : Due live (lists wheel.curSlot) due) :
    timer ∈ due ↔ scheduleOf wheel.curSlot live timer = some 0 := by
  rw [isDue.exactly, rep.members]
  constructor
  · intro turned
    obtain ⟨⟨data, isLive, atSlot⟩, noTurn⟩ := turned
    have noneLeft := left_of_eq atSlot
    rw [isLive, bind_some] at noTurn
    rw [noTurn, map_none, ppred_eq_none] at noneLeft
    rw [scheduleOf, isLive, map_some, noneLeft]
  · intro scheduled
    obtain ⟨data, isLive, noneLeft⟩ := map_eq_some_iff.mp scheduled
    have atSlot : data.timeSlot = wheel.curSlot := by
      by_contra apart
      have nearer := left_of_ne apart
      rw [noneLeft] at nearer
      cases nearer
    have turned := left_of_eq atSlot
    rw [noneLeft] at turned
    refine ⟨⟨data, isLive, atSlot⟩, ?_⟩
    rw [isLive, bind_some]
    exact map_eq_none_iff.mp turned.symm

include follows in
theorem Follows.tick :
    ∃ after due, perform wheel .tick = some after ∧ after.fired = wheel.fired ++ due ∧
      (∀ timer, due.count timer = Operation.fires schedule timer .tick) ∧
      Follows after (Operation.after schedule .tick) := by
  obtain ⟨live, lists, rep, rfl⟩ := follows
  have wholeSlot : lists wheel.curSlot = [] ++ lists wheel.curSlot := rfl
  obtain ⟨after, listsAfter, due, looped, curSlot, fired, isDue, result⟩ :=
    tickLoop_spec rep wholeSlot (lt_succ_of_le (rep.bounded wheel.curSlot))
  refine ⟨{ after with curSlot := Fin.ofNat N (wheel.curSlot + 1) }, due, ?_,
    fired, ?_, passed live (lists wheel.curSlot), listsAfter,
    { result with },
    rep.scheduleOf_passed.symm⟩
  · rw [← rep.heads] at looped
    rw [perform, TimeWheel.tick, looped, some_bind, curSlot]
    rfl
  · intro timer
    rw [isDue.once.count, Operation.fires]
    by_cases isFired : timer ∈ due
    · rw [if_pos isFired, if_pos ((rep.due_iff isDue).mp isFired)]
    · rw [if_neg isFired, if_neg fun noneLeft => isFired ((rep.due_iff isDue).mpr noneLeft)]

/-! ## Runs -/

include follows in
theorem perform_spec {operation : Operation} (proper : operation.Proper schedule) :
    ∃ after log, perform wheel operation = some after ∧ after.fired = wheel.fired ++ log ∧
      (∀ timer, log.count timer = operation.fires schedule timer) ∧
      Follows after (operation.after schedule) := by
  cases operation with
  | add timer timeout =>
    obtain ⟨after, added, fired, result⟩ := follows.add proper.1 proper.2
    exact ⟨after, [], added, by rw [fired, append_nil], fun _ => count_nil, result⟩
  | del timer =>
    obtain ⟨after, deleted, fired, result⟩ := follows.del proper
    exact ⟨after, [], deleted, by rw [fired, append_nil], fun _ => count_nil, result⟩
  | tick => exact follows.tick

/-- The number of times the callback of a timer that has some ticks left
runs in a number of ticks. -/
def firings (left : Option ℕ) (ticks : ℕ) : ℕ :=
  if ∃ before ∈ left, before < ticks then 1 else 0

theorem firings_tick (left : Option ℕ) (ticks : ℕ) :
    firings left (ticks + 1) = (if left = some 0 then 1 else 0) +
      firings (left.bind Nat.ppred) ticks := by
  cases left with
  | none => simp [firings]
  | some left =>
    cases left with
    | zero | succ => simp [firings]

def Operation.Names (timer : Addr) : Operation → Prop
  | .add other _ => other = timer
  | .del other => other = timer
  | .tick => False

include follows in
/-- Any sequence of calls.  The callback of a timer runs when it is due,
unless the timer is deleted or, once it has fired, its memory used for another
timer. -/
theorem performAll_spec {operations : List Operation} (proper : ProperRun schedule operations) :
    ∃ after log, performAll wheel operations = some after ∧ after.fired = wheel.fired ++ log ∧
      Follows after (operations.foldl Operation.after schedule) ∧
      ∀ timer, (∀ operation ∈ operations, ¬ operation.Names timer) →
        log.count timer = firings (schedule timer) (operations.count .tick) := by
  induction operations generalizing wheel schedule with
  | nil =>
    refine ⟨wheel, [], rfl, (append_nil _).symm, follows, ?_⟩
    simp [firings]
  | cons operation rest ih =>
    obtain ⟨middle, log, performed, fired, counts, followsMiddle⟩ := perform_spec follows proper.1
    obtain ⟨after, logRest, performedRest, firedRest, result, countRest⟩ :=
      ih followsMiddle proper.2
    refine ⟨after, log ++ logRest, ?_, ?_, result, ?_⟩
    · rw [performAll, performed]
      exact performedRest
    · rw [firedRest, fired, append_assoc]
    · intro timer kept
      rw [count_append, counts, countRest timer (forall_mem_cons.mp kept).2]
      have foreign := kept operation mem_cons_self
      cases operation with
      | add other timeout | del other =>
        have apart : timer ≠ other := fun same => foreign same.symm
        simp [Operation.fires, Operation.after, apart]
      | tick =>
        rw [count_cons_self, firings_tick]
        rfl

theorem properRun_append {first second : List Operation} :
    ProperRun schedule (first ++ second) ↔
      ProperRun schedule first ∧ ProperRun (first.foldl Operation.after schedule) second := by
  induction first generalizing schedule with
  | nil => simp [ProperRun]
  | cons operation rest ih =>
    simp only [cons_append, ProperRun, ih, and_assoc, foldl_cons]

/-- In every run a timer added with some timeout has its callback run not at
all in the first `max 1 (timeout / TI)` ticks after that, once in the next
one, and not again, whatever the other calls in between do.  The calls after
the addition neither delete the timer nor use its memory for another one. -/
theorem fired_once_on_due_tick (before later : List Operation) (timer : Addr) (timeout : ℤ)
    (proper : ProperRun (fun _ => none) (before ++ [.add timer timeout] ++ later))
    (kept : ∀ operation ∈ later, ¬ operation.Names timer) :
    ∃ start wheel log, performAll empty (before ++ [.add timer timeout]) = some start ∧
      performAll start later = some wheel ∧
      wheel.fired = start.fired ++ log ∧
      log.count timer = if max 1 (timeout / TI) + 1 ≤ (later.count .tick : ℤ) then 1
        else 0 := by
  obtain ⟨properStart, properLater⟩ := properRun_append.mp proper
  obtain ⟨start, -, started, -, follows, -⟩ := performAll_spec follows_empty properStart
  obtain ⟨wheel, log, performed, fired, -, count⟩ := performAll_spec follows properLater
  refine ⟨start, wheel, log, started, performed, fired, ?_⟩
  rw [count timer kept, foldl_append, foldl_cons, foldl_nil, Operation.after, update_self, firings]
  simp only [mem_def, some.injEq, exists_eq_left']
  congr 1
  apply propext
  omega

/-- One timer has fired before and another one is deleted in between. -/
theorem fired_once_on_due_tick_threeTimers :
    ∃ start wheel log, performAll empty [.add 1 0, .tick, .tick, .add 2 2] = some start ∧
      performAll start [.add 3 5, .tick, .del 3, .tick, .tick] = some wheel ∧
      wheel.fired = start.fired ++ log ∧
      log.count 2 = 1 := by
  obtain ⟨start, wheel, log, started, performed, fired, count⟩ :=
    fired_once_on_due_tick [.add 1 0, .tick, .tick] [.add 3 5, .tick, .del 3, .tick, .tick] 2 2
      ⟨⟨by decide, rfl⟩, trivial, trivial, ⟨by decide, rfl⟩,
        ⟨by decide, rfl⟩, trivial, rfl, trivial, trivial, trivial⟩ (by simp [Operation.Names])
  refine ⟨start, wheel, log, started, performed, fired, ?_⟩
  rw [count]
  decide

end Skyc.Socket.TimeWheel
