import Skyc.Lib.LinkedHeap

/-!
# Doubly linked nodes in memory

Access to an address that holds no node fails.  `Segment` says that a list of
addresses is what one finds by following the pointers in both directions between
two ends.
-/

namespace Skyc.Lib

open Function List Option

universe u

structure Cell (Data : Type u) where
  next : Option Addr
  prev : Option Addr
  data : Data
deriving DecidableEq, Repr

abbrev Cells (Data : Type u) := Addr → Option (Cell Data)

variable {Data : Type u}

namespace Cells

def modify (cells : Cells Data) (address : Addr)
    (change : Cell Data → Cell Data) : Option (Cells Data) :=
  (cells address).map fun cell =>
    update cells address (some (change cell))

/-- `address->next = next` -/
def setNext (cells : Cells Data) (address : Addr) (next : Option Addr) : Option (Cells Data) :=
  cells.modify address fun cell => { cell with next }

/-- `address->prev = prev` -/
def setPrev (cells : Cells Data) (address : Addr) (prev : Option Addr) : Option (Cells Data) :=
  cells.modify address fun cell => { cell with prev }

def setData (cells : Cells Data) (address : Addr) (data : Data) : Option (Cells Data) :=
  cells.modify address fun cell => { cell with data }

def free (cells : Cells Data) (address : Addr) : Option (Cells Data) :=
  (cells address).map fun _ => update cells address none

/-- `if (pointer) pointer->next = next` -/
def linkNext (cells : Cells Data) (pointer next : Option Addr) : Option (Cells Data) :=
  match pointer with
  | none => some cells
  | some address => cells.setNext address next

/-- `if (pointer) pointer->prev = prev` -/
def linkPrev (cells : Cells Data) (pointer prev : Option Addr) : Option (Cells Data) :=
  match pointer with
  | none => some cells
  | some address => cells.setPrev address prev

def dataAt (cells : Cells Data) (address : Addr) : Option Data :=
  (cells address).map Cell.data

/-- Two memories have the same data everywhere, and the same nodes outside
some addresses. -/
structure Relinked (addresses : List Addr) (before after : Cells Data) : Prop where
  data : ∀ address, after.dataAt address = before.dataAt address
  outside : ∀ address, address ∉ addresses → after address = before address

namespace Relinked

variable {first second third : Cells Data} {addresses more : List Addr}

theorem refl (cells : Cells Data) : Relinked addresses cells cells := ⟨fun _ => rfl, fun _ _ => rfl⟩

theorem trans (left : Relinked addresses first second) (right : Relinked addresses second third) :
    Relinked addresses first third where
  data := fun address => (right.data address).trans (left.data address)
  outside := fun address foreign =>
    (right.outside address foreign).trans (left.outside address foreign)

theorem mono (relinked : Relinked addresses first second) (subset : addresses ⊆ more) :
    Relinked more first second where
  data := relinked.data
  outside := fun address foreign =>
    relinked.outside address fun member => foreign (subset member)

end Relinked

variable {cells after : Cells Data} {address : Addr} {cell : Cell Data}

theorem relinked_modify {change : Cell Data → Cell Data}
    (modified : cells.modify address change = some after)
    (keepsData : ∀ cell, (change cell).data = cell.data) : Relinked [address] cells after := by
  obtain ⟨cell, present, rfl⟩ := map_eq_some_iff.mp modified
  constructor
  · intro other
    by_cases same : other = address
    · subst same
      simp [dataAt, present, keepsData]
    · simp [dataAt, same]
  · intro other foreign
    have apart : other ≠ address := by simpa using foreign
    exact update_of_ne apart ..

theorem linkNext_linkPrev_comm (cells : Cells Data) (left next right prev : Option Addr) :
    ((cells.linkPrev right prev).bind fun middle =>
        middle.linkNext left next) =
      (cells.linkNext left next).bind fun middle =>
        middle.linkPrev right prev := by
  cases left with
  | none => simp [linkNext]
  | some left =>
    cases right with
    | none => simp [linkPrev]
    | some right =>
      simp only [linkNext, linkPrev, setNext, setPrev, modify]
      by_cases same : left = right
      · subst same
        cases cells left with
        | none | some => simp
      · cases atLeft : cells left with
        | none =>
          cases atRight : cells right with
          | none => simp
          | some cell => simp [same, atLeft]
        | some cell =>
          cases atRight : cells right with
          | none => simp [Ne.symm same, atRight]
          | some cell => simp [same, Ne.symm same, atLeft, atRight, update_comm same]

theorem free_linkPrev_comm (cells : Cells Data) (pointer prev : Option Addr)
    (different : pointer ≠ some address) :
    ((cells.free address).bind fun middle => middle.linkPrev pointer prev) =
      (cells.linkPrev pointer prev).bind fun middle =>
        middle.free address := by
  cases pointer with
  | none => simp [linkPrev]
  | some written =>
    have apart : written ≠ address := fun same => different (same ▸ rfl)
    cases atWritten : cells written with
    | none =>
      cases atFreed : cells address with
      | none => simp [linkPrev, setPrev, modify, free, atWritten, atFreed]
      | some freed =>
        simp [linkPrev, setPrev, modify, free, atWritten, atFreed, update_of_ne apart]
    | some cell =>
      cases atFreed : cells address with
      | none =>
        simp [linkPrev, setPrev, modify, free, atWritten, atFreed, update_of_ne apart.symm]
      | some freed =>
        simp [linkPrev, setPrev, modify, free, atWritten, atFreed,
          update_of_ne apart, update_of_ne apart.symm, update_comm apart]

theorem modify_eq_some (present : cells address = some cell) (change : Cell Data → Cell Data) :
    cells.modify address change = some (update cells address (some (change cell))) := by
  rw [modify, present]
  rfl

theorem dataAt_update (cells : Cells Data) (address : Addr) (cell : Option (Cell Data)) :
    dataAt (update cells address cell) = update cells.dataAt address (cell.map Cell.data) := by
  funext other
  by_cases same : other = address
  · subst same
    simp [dataAt]
  · simp [dataAt, update_of_ne same]

theorem exists_setData (present : cells address = some cell) (data : Data) :
    ∃ after, cells.setData address data = some after ∧
      after.dataAt = update cells.dataAt address (some data) :=
  ⟨_, modify_eq_some present _, dataAt_update ..⟩

end Cells

/-! ## Segments -/

/-- The addresses found between the ends `before` and `after`. -/
def Segment (cells : Cells Data) : Option Addr → List Addr → Option Addr → Prop
  | _, [], _ => True
  | before, address :: rest, after =>
    (∃ data, cells address = some ⟨rest.head?.or after, before, data⟩) ∧
      Segment cells (some address) rest after

variable {cells other : Cells Data} {before after : Option Addr}
  {address : Addr} {first second addresses : List Addr}

theorem segment_append :
    Segment cells before (first ++ second) after ↔
      Segment cells before first (second.head?.or after) ∧
        Segment cells (first.getLast?.or before) second after := by
  induction first generalizing before with
  | nil => simp [Segment]
  | cons address rest ih =>
    have last : (address :: rest).getLast?.or before = rest.getLast?.or (some address) := by
      cases rest with
      | nil => rfl
      | cons next remaining => simp [getLast?_cons]
    have head : (rest ++ second).head?.or after = rest.head?.or (second.head?.or after) := by
      cases rest with
      | nil | cons => rfl
    simp only [cons_append, Segment, ih, last, head, and_assoc]

namespace Segment

section

variable (segment : Segment cells before addresses after)
include segment

theorem congr (same : ∀ address ∈ addresses, other address = cells address) :
    Segment other before addresses after := by
  induction addresses generalizing before with
  | nil => trivial
  | cons address rest ih =>
    obtain ⟨⟨data, found⟩, remaining⟩ := segment
    refine ⟨⟨data, ?_⟩, ?_⟩
    · rw [same address mem_cons_self]
      exact found
    · apply ih remaining
      intro later member
      exact same later (mem_cons_of_mem _ member)

theorem frame {changed : List Addr} (relinked : Cells.Relinked changed cells other)
    (apart : ∀ address ∈ addresses, address ∉ changed) :
    Segment other before addresses after := segment.congr fun address member =>
    relinked.outside address (apart address member)

theorem present (member : address ∈ addresses) : ∃ cell, cells address = some cell := by
  induction addresses generalizing before with
  | nil => cases member
  | cons first rest ih =>
    obtain ⟨⟨data, found⟩, remaining⟩ := segment
    rcases mem_cons.mp member with rfl | member
    · exact ⟨_, found⟩
    · exact ih remaining member

theorem setData {written : Addr} {data : Data}
    (modified : cells.setData written data = some other) :
    Segment other before addresses after := by
  obtain ⟨cell, present, rfl⟩ := map_eq_some_iff.mp modified
  induction addresses generalizing before with
  | nil => trivial
  | cons address rest ih =>
    obtain ⟨⟨oldData, found⟩, remaining⟩ := segment
    refine ⟨?_, ih remaining⟩
    by_cases same : address = written
    · subst same
      rw [found] at present
      cases present
      exact ⟨data, update_self ..⟩
    · exact ⟨oldData, by rw [update_of_ne same, found]⟩

theorem linkNext (distinct : addresses.Nodup) (next : Option Addr) :
    ∃ result, cells.linkNext addresses.getLast? next = some result ∧
      Segment result before addresses next ∧ Cells.Relinked addresses cells result := by
  rcases eq_nil_or_concat addresses with rfl | ⟨rest, last, rfl⟩
  · exact ⟨cells, rfl, trivial, .refl cells⟩
  · rw [concat_eq_append] at segment distinct ⊢
    obtain ⟨earlier, ⟨data, found⟩, -⟩ := segment_append.mp segment
    have written := Cells.modify_eq_some found fun cell => { cell with next }
    have relinked := Cells.relinked_modify written fun _ => rfl
    have notEarlier : ∀ address ∈ rest, address ∉ [last] := by
      intro address member isLast
      rw [mem_singleton] at isLast
      subst isLast
      exact disjoint_of_nodup_append distinct member mem_cons_self
    refine ⟨_, ?_, segment_append.mpr ⟨?_, ⟨data, ?_⟩, trivial⟩, relinked.mono (by simp)⟩
    · rw [getLast?_concat]
      exact written
    · exact earlier.frame relinked notEarlier
    · rw [update_self]
      rfl

theorem linkPrev (distinct : addresses.Nodup) (prev : Option Addr) :
    ∃ result, cells.linkPrev addresses.head? prev = some result ∧
      Segment result prev addresses after ∧ Cells.Relinked addresses cells result := by
  cases addresses with
  | nil => exact ⟨cells, rfl, trivial, .refl cells⟩
  | cons first rest =>
    obtain ⟨⟨data, found⟩, remaining⟩ := segment
    have written := Cells.modify_eq_some found fun cell => { cell with prev }
    have relinked := Cells.relinked_modify written fun _ => rfl
    have notFirst : ∀ address ∈ rest, address ∉ [first] := by
      intro address member isFirst
      rw [mem_singleton] at isFirst
      subst isFirst
      exact (nodup_cons.mp distinct).1 member
    refine ⟨_, written, ⟨⟨data, ?_⟩, ?_⟩, relinked.mono (by simp)⟩
    · rw [update_self]
    · exact remaining.frame relinked notFirst

end

theorem skip {range : List Addr} (segment : Segment cells before (first ++ (range ++ second)) after)
    (distinct : (first ++ (range ++ second)).Nodup) :
    ∃ middle result, cells.linkNext first.getLast? (second.head?.or after) = some middle ∧
      middle.linkPrev second.head? (first.getLast?.or before) = some result ∧
      Segment result before (first ++ second) after ∧
      Cells.Relinked (first ++ second) cells result := by
  obtain ⟨left, behind⟩ := segment_append.mp segment
  have right := (segment_append.mp behind).2
  have apart : first.Disjoint second := (disjoint_append_right.mp
    (disjoint_of_nodup_append distinct)).2
  obtain ⟨middle, wroteNext, leftLinked, leftRelinked⟩ :=
    left.linkNext distinct.of_append_left (second.head?.or after)
  have rightKept := right.frame leftRelinked fun other member inFirst => apart inFirst member
  obtain ⟨result, wrotePrev, rightLinked, rightRelinked⟩ :=
    rightKept.linkPrev distinct.of_append_right.of_append_right (first.getLast?.or before)
  have leftKept := leftLinked.frame rightRelinked fun other member inSecond => apart member inSecond
  refine ⟨middle, result, wroteNext, wrotePrev, segment_append.mpr ⟨leftKept, rightLinked⟩, ?_⟩
  exact (leftRelinked.mono (subset_append_left _ _)).trans
    (rightRelinked.mono (subset_append_right _ _))

theorem unlink (segment : Segment cells before (first ++ address :: second) after)
    (distinct : (first ++ address :: second).Nodup) :
    ∃ middle result, cells.linkNext first.getLast? (second.head?.or after) = some middle ∧
      middle.linkPrev second.head? (first.getLast?.or before) = some result ∧
      Segment result before (first ++ second) after ∧
      Cells.Relinked (first ++ second) cells result := by
  have around : Segment cells before (first ++ ([address] ++ second)) after := segment
  exact around.skip distinct

theorem splice {chain : List Addr} {chainBefore chainAfter : Option Addr}
    (segment : Segment cells before (first ++ second) after)
    (inserted : Segment cells chainBefore chain chainAfter) (nonempty : chain ≠ [])
    (distinct : (first ++ (chain ++ second)).Nodup) :
    ∃ left front back result, cells.linkNext first.getLast? chain.head? = some left ∧
      left.linkPrev chain.head? (first.getLast?.or before) = some front ∧
      front.linkNext chain.getLast? (second.head?.or after) = some back ∧
      back.linkPrev second.head? chain.getLast? = some result ∧
      Segment result before (first ++ (chain ++ second)) after ∧
      Cells.Relinked (first ++ (chain ++ second)) cells result := by
  obtain ⟨inFirst, inSecond⟩ := segment_append.mp segment
  have apart := disjoint_append_right.mp (disjoint_of_nodup_append distinct)
  have distinctBehind := distinct.of_append_right
  have behindApart := disjoint_of_nodup_append distinctBehind
  obtain ⟨left, wroteFirst, firstLinked, firstRelinked⟩ :=
    inFirst.linkNext distinct.of_append_left chain.head?
  have chainKept := inserted.frame firstRelinked fun other member there => apart.1 there member
  obtain ⟨front, wroteFront, frontLinked, frontRelinked⟩ :=
    chainKept.linkPrev distinctBehind.of_append_left (first.getLast?.or before)
  obtain ⟨back, wroteBack, backLinked, backRelinked⟩ :=
    frontLinked.linkNext distinctBehind.of_append_left (second.head?.or after)
  have chainRelinked := frontRelinked.trans backRelinked
  have secondKept := (inSecond.frame firstRelinked
    fun other member there => apart.2 there member).frame chainRelinked
      fun other member there => behindApart there member
  obtain ⟨result, wroteSecond, secondLinked, secondRelinked⟩ :=
    secondKept.linkPrev distinctBehind.of_append_right chain.getLast?
  have firstKept := (firstLinked.frame chainRelinked
    fun other member there => apart.1 member there).frame secondRelinked
      fun other member there => apart.2 member there
  have middleKept := backLinked.frame secondRelinked
    fun other member there => behindApart member there
  refine ⟨left, front, back, result, wroteFirst, wroteFront, wroteBack, wroteSecond, ?_, ?_⟩
  · obtain ⟨last, isLast⟩ := isSome_iff_exists.mp (getLast?_isSome.mpr nonempty)
    obtain ⟨start, isStart⟩ := isSome_iff_exists.mp (isSome_head?.mpr nonempty)
    rw [isStart] at firstKept
    rw [isLast] at secondLinked
    refine segment_append.mpr ⟨?_, segment_append.mpr ⟨middleKept, ?_⟩⟩
    · rw [head?_append, isStart]
      exact firstKept
    · rw [isLast]
      exact secondLinked
  · have chainBehind := subset_append_left chain second
    have secondBehind := subset_append_right chain second
    exact ((firstRelinked.mono (subset_append_left _ _)).trans (chainRelinked.mono
      (subset_append_of_subset_right first chainBehind))).trans (secondRelinked.mono
      (subset_append_of_subset_right first secondBehind))

theorem insert {cell : Cell Data} (segment : Segment cells before (first ++ second) after)
    (distinct : (first ++ second).Nodup) (fresh : address ∉ first ++ second)
    (present : cells address = some cell) :
    ∃ left placed right result, cells.linkNext first.getLast? (some address) = some left ∧
      left.setNext address (second.head?.or after) = some placed ∧
      placed.linkPrev second.head? (some address) = some right ∧
      right.setPrev address (first.getLast?.or before) = some result ∧
      Segment result before (first ++ address :: second) after ∧
      Cells.Relinked (address :: (first ++ second)) cells result := by
  obtain ⟨inFirst, inSecond⟩ := segment_append.mp segment
  have apart := disjoint_of_nodup_append distinct
  rw [mem_append, not_or] at fresh
  have notAddress : ∀ {nodes : List Addr}, address ∉ nodes →
      ∀ other ∈ nodes, other ∉ [address] := by
    intro nodes absent other member same
    rw [mem_singleton] at same
    exact absent (same ▸ member)
  obtain ⟨left, wroteLeft, leftSegment, leftRelinked⟩ :=
    inFirst.linkNext distinct.of_append_left (some address)
  have placedAt : left address = some cell := (leftRelinked.outside address fresh.1).trans present
  have wroteNext := Cells.modify_eq_some placedAt
    fun cell => { cell with next := second.head?.or after }
  have nextRelinked := Cells.relinked_modify wroteNext fun _ => rfl
  have secondKept := (inSecond.frame leftRelinked fun other member inLeft =>
    apart inLeft member).frame nextRelinked (notAddress fresh.2)
  obtain ⟨right, wroteRight, rightSegment, rightRelinked⟩ :=
    secondKept.linkPrev distinct.of_append_right (some address)
  have stillPlaced : right address = some { cell with next := second.head?.or after } :=
    (rightRelinked.outside address fresh.2).trans (update_self ..)
  have wrotePrev := Cells.modify_eq_some stillPlaced
    fun cell => { cell with prev := first.getLast?.or before }
  have prevRelinked := Cells.relinked_modify wrotePrev fun _ => rfl
  refine ⟨left, _, right, _, wroteLeft, wroteNext, wroteRight, wrotePrev,
    segment_append.mpr ⟨?_, ⟨cell.data, update_self ..⟩, ?_⟩, ?_⟩
  · exact ((leftSegment.frame nextRelinked (notAddress fresh.1)).frame
      rightRelinked fun other member inRight =>
        apart member inRight).frame prevRelinked (notAddress fresh.1)
  · exact rightSegment.frame prevRelinked (notAddress fresh.2)
  · have fromLeft := leftRelinked.mono (subset_cons_of_subset address
      (subset_append_left first second))
    have fromRight := rightRelinked.mono (subset_cons_of_subset address
      (subset_append_right first second))
    have atAddress : [address] ⊆ address :: (first ++ second) := by simp
    exact ((fromLeft.trans (nextRelinked.mono atAddress)).trans
      fromRight).trans (prevRelinked.mono atAddress)

theorem push {cell : Cell Data} (segment : Segment cells none addresses after)
    (distinct : addresses.Nodup) (fresh : address ∉ addresses)
    (present : cells address = some cell) (atFront : cell.prev = none) :
    ∃ placed result, cells.setNext address (addresses.head?.or after) = some placed ∧
      placed.linkPrev addresses.head? (some address) = some result ∧
      Segment result none (address :: addresses) after ∧
      Cells.Relinked (address :: addresses) cells result := by
  have wroteNext := Cells.modify_eq_some present
    fun cell => { cell with next := addresses.head?.or after }
  have nextRelinked := Cells.relinked_modify wroteNext fun _ => rfl
  have kept := segment.frame nextRelinked fun other member same =>
    fresh (mem_singleton.mp same ▸ member)
  obtain ⟨result, wrotePrev, linked, prevRelinked⟩ := kept.linkPrev distinct (some address)
  refine ⟨_, result, wroteNext, wrotePrev, ⟨⟨cell.data, ?_⟩, linked⟩, ?_⟩
  · rw [prevRelinked.outside address fresh, update_self, atFront]
  · have atAddress : [address] ⊆ address :: addresses := by simp
    exact (nextRelinked.mono atAddress).trans
      (prevRelinked.mono (subset_cons_self address addresses))

theorem eq_of_head_eq {otherBefore : Option Addr} {others : List Addr}
    (segment : Segment cells before addresses none)
    (otherSegment : Segment cells otherBefore others none)
    (sameHead : addresses.head? = others.head?) : addresses = others := by
  induction addresses generalizing before otherBefore others with
  | nil =>
    cases others with
    | nil => rfl
    | cons other rest => cases sameHead
  | cons first rest ih =>
    cases others with
    | nil => cases sameHead
    | cons other otherRest =>
      cases sameHead
      obtain ⟨⟨data, found⟩, remaining⟩ := segment
      obtain ⟨⟨otherData, otherFound⟩, otherRemaining⟩ := otherSegment
      rw [found] at otherFound
      simp only [some.injEq, Cell.mk.injEq, or_none] at otherFound
      rw [ih remaining otherRemaining otherFound.1]

theorem nodup (segment : Segment cells before addresses none) : addresses.Nodup := by
  induction addresses generalizing before with
  | nil => exact nodup_nil
  | cons first rest ih =>
    have remaining := segment.2
    refine nodup_cons.mpr ⟨?_, ih remaining⟩
    intro again
    obtain ⟨left, right, split⟩ := append_of_mem again
    have later := remaining
    rw [split] at later
    have same := segment.eq_of_head_eq (segment_append.mp later).2 rfl
    have lengths := congrArg length same
    rw [split] at lengths
    simp at lengths
    omega

/-! ### Removing a node of a whole list -/

theorem cell (segment : Segment cells none (first ++ address :: second) none) :
    ∃ data, cells address = some ⟨second.head?, first.getLast?, data⟩ := by
  obtain ⟨-, ⟨data, found⟩, -⟩ := segment_append.mp segment
  simp only [or_none] at found
  exact ⟨data, found⟩

theorem remove (segment : Segment cells none (first ++ address :: second) none) :
    ∃ middle relinked freed, cells.linkNext first.getLast? second.head? = some middle ∧
      middle.linkPrev second.head? first.getLast? = some relinked ∧
      relinked.free address = some freed ∧ Segment freed none (first ++ second) none ∧
      (∀ other, freed.dataAt other = update cells.dataAt address none other) ∧
      ∀ other, other ∉ first ++ address :: second → freed other = cells other := by
  have absent : address ∉ first ++ second := (nodup_middle.mp segment.nodup).notMem
  obtain ⟨middle, relinked, wroteNext, wrotePrev, linked, kept⟩ := segment.unlink segment.nodup
  simp only [or_none] at wroteNext wrotePrev
  obtain ⟨data, found⟩ := segment.cell
  have atAddress := (kept.outside address absent).trans found
  refine ⟨middle, relinked, update relinked address none, wroteNext,
    wrotePrev, by rw [Cells.free, atAddress]; rfl, ?_, ?_, ?_⟩
  · apply linked.congr
    intro other member
    exact update_of_ne (ne_of_mem_of_not_mem member absent) ..
  · have sameData : relinked.dataAt = cells.dataAt := funext kept.data
    rw [Cells.dataAt_update, sameData]
    exact fun _ => rfl
  · intro other foreign
    have apart : other ≠ address := by
      intro same
      exact foreign (by simp [same])
    rw [update_of_ne apart]
    apply kept.outside
    intro member
    apply foreign
    rw [mem_append] at member
    rw [mem_append, mem_cons]
    rcases member with inFirst | inSecond
    · exact .inl inFirst
    · exact .inr (.inr inSecond)

end Segment

end Skyc.Lib
