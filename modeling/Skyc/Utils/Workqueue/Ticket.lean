import Mathlib

/-!
# The life of a work item in the queue

A *ticket* is one add of a work item: the item with the number of that add.  It goes
through the phases below.
-/

namespace Skyc.Utils.Workqueue

open Function

/-- `enum work_status` -/
inductive WorkStatus where
  | new
  | queued
  | inProgress
  | complete
deriving DecidableEq, Repr

/-- The `serial`-th add of an item. -/
structure Ticket (Work : Type) where
  work : Work
  serial : Nat
deriving DecidableEq, Repr

/-- What is recorded of a ticket: a call of `work_fn`, its return, the store
of `WQ_WORK_COMPLETE`, the call of `complete_fn`, and a cancel request that
arrives while the ticket waits in the backlog. -/
inductive Event where
  | call
  | ret (rc : Int)
  | complete
  | completeFn
  | cancelled
deriving DecidableEq, Repr

/-- The fields `status` and `requests` of the items, with the record of
their adds and calls. -/
structure Books (Work : Type) where
  status : Work → WorkStatus
  cancelRequested : Work → Bool
  adds : Work → Nat
  history : Ticket Work → List Event

inductive Phase where
  /-- in `workqueue_add_work`, before `status = WQ_WORK_QUEUED` -/
  | queueing
  /-- in `put_backlog`, before the enqueue -/
  | putting
  /-- in the backlog -/
  | waiting
  /-- dequeued, before the test of the cancel request -/
  | taken
  /-- in the first `complete_work`, before its store -/
  | cancelling
  /-- in the first `complete_work`, before the call of `complete_fn` -/
  | cancelNotifying
  /-- before `status = WQ_WORK_IN_PROGRESS` -/
  | proceeding
  /-- before the call of `work_fn` -/
  | ready
  /-- in `work_fn` -/
  | running
  /-- before the test of the result of `work_fn` -/
  | returned (rc : Int)
  /-- in the second `complete_work`, before its store -/
  | finishing
  /-- in the second `complete_work`, before the call of `complete_fn` -/
  | notifying
deriving DecidableEq, Repr

variable {Work : Type} [DecidableEq Work]

namespace Books

def setStatus (books : Books Work) (work : Work) (status : WorkStatus) : Books Work :=
  { books with status := update books.status work status }

def record (books : Books Work) (ticket : Ticket Work) (event : Event) : Books Work :=
  { books with
    history := update books.history ticket (books.history ticket ++ [event]) }

/-- `work->status = WQ_WORK_COMPLETE` -/
def complete (books : Books Work) (ticket : Ticket Work) : Books Work :=
  (books.setStatus ticket.work .complete).record ticket .complete

/-- `if (work->complete_fn) work->complete_fn(work)` -/
def callCompleteFn (books : Books Work) (hasCompleteFn : Bool)
    (ticket : Ticket Work) : Books Work :=
  if hasCompleteFn then books.record ticket .completeFn else books

/-- A new add of the item starts with `requests = 0`. -/
def beginAdd (books : Books Work) (work : Work) : Books Work :=
  { books with
    cancelRequested := update books.cancelRequested work false
    adds := update books.adds work (books.adds work + 1) }

/-- `work->requests |= WQ_REQ_CANCEL_WORK`, noted for a waiting ticket. -/
def cancel (books : Books Work) (waiting : Ticket Work → Bool) (work : Work) : Books Work :=
  { books with
    cancelRequested := update books.cancelRequested work true
    history := fun ticket =>
      if ticket.work = work ∧ waiting ticket = true then
        books.history ticket ++ [.cancelled]
      else
        books.history ticket }

end Books

def Books.nextTicket (books : Books Work) (work : Work) : Ticket Work :=
  ⟨work, books.adds work + 1⟩

/-- One step of a ticket: the phase it leaves, the phase it enters (`none`
when the worker is done with it) and the books afterwards. -/
inductive Moves (hasCompleteFn : Work → Bool) (books : Books Work)
    (ticket : Ticket Work) : Phase → Option Phase → Books Work → Prop
  | setQueued : Moves hasCompleteFn books ticket .queueing (some .putting)
    (books.setStatus ticket.work .queued)
  | enqueue : Moves hasCompleteFn books ticket .putting (some .waiting) books
  | dequeue : Moves hasCompleteFn books ticket .waiting (some .taken) books
  | proceed : books.cancelRequested ticket.work = false →
    Moves hasCompleteFn books ticket .taken (some .proceeding) books
  | cancel : books.cancelRequested ticket.work = true →
    Moves hasCompleteFn books ticket .taken (some .cancelling) books
  | cancelComplete : Moves hasCompleteFn books ticket .cancelling (some .cancelNotifying)
    (books.complete ticket)
  | cancelNotify : Moves hasCompleteFn books ticket .cancelNotifying (some .proceeding)
    (books.callCompleteFn (hasCompleteFn ticket.work) ticket)
  | setInProgress : Moves hasCompleteFn books ticket .proceeding (some .ready)
    (books.setStatus ticket.work .inProgress)
  | call : Moves hasCompleteFn books ticket .ready (some .running) (books.record ticket .call)
  | ret (rc : Int) : Moves hasCompleteFn books ticket .running (some (.returned rc))
    (books.record ticket (.ret rc))
  | finish {rc : Int} : rc ≤ 0 ∨ books.cancelRequested ticket.work = true →
    Moves hasCompleteFn books ticket (.returned rc) (some .finishing) books
  | again {rc : Int} : 0 < rc → books.cancelRequested ticket.work = false →
    Moves hasCompleteFn books ticket (.returned rc) (some .putting) books
  | complete : Moves hasCompleteFn books ticket .finishing (some .notifying) (books.complete ticket)
  | notify : Moves hasCompleteFn books ticket .notifying none
    (books.callCompleteFn (hasCompleteFn ticket.work) ticket)

/-! ## What a step leaves alone -/

variable {hasCompleteFn : Work → Bool} {books after : Books Work}
  {ticket other : Ticket Work} {source : Phase} {target : Option Phase}
  {phase : Ticket Work → Option Phase} {work : Work}

variable {called : Bool}

theorem Books.callCompleteFn_history_of_ne (apart : other ≠ ticket) :
    (books.callCompleteFn called ticket).history other = books.history other := by
  unfold Books.callCompleteFn
  split
  · exact update_of_ne apart ..
  · rfl

theorem Books.callCompleteFn_history :
    (books.callCompleteFn called ticket).history ticket =
      books.history ticket ++ if called then [.completeFn] else [] := by
  cases called with
  | true => exact update_self ..
  | false => exact (List.append_nil _).symm

theorem Books.callCompleteFn_frame :
    (books.callCompleteFn called ticket).status = books.status ∧
      (books.callCompleteFn called ticket).adds = books.adds ∧
      (books.callCompleteFn called ticket).cancelRequested = books.cancelRequested := by
  cases called with
  | true | false => exact ⟨rfl, rfl, rfl⟩

section

variable (moves : Moves hasCompleteFn books ticket source target after)
include moves

theorem Moves.adds_eq : after.adds = books.adds := by
  cases moves with
  | cancelNotify | notify => exact Books.callCompleteFn_frame.2.1
  | _ => rfl

theorem Moves.cancelRequested_eq : after.cancelRequested = books.cancelRequested := by
  cases moves with
  | cancelNotify | notify => exact Books.callCompleteFn_frame.2.2
  | _ => rfl

theorem Moves.history_of_ne (apart : other ≠ ticket) :
    after.history other = books.history other := by
  cases moves with
  | cancelNotify | notify => exact Books.callCompleteFn_history_of_ne apart
  | cancelComplete | call | ret | complete => exact update_of_ne apart ..
  | _ => rfl

theorem Moves.status_of_ne (apart : work ≠ ticket.work) :
    after.status work = books.status work := by
  cases moves with
  | cancelNotify | notify => rw [Books.callCompleteFn_frame.1]
  | setQueued | setInProgress | cancelComplete | complete => exact update_of_ne apart ..
  | _ => rfl

end

theorem Moves.status_of_notifying
    (moves : Moves hasCompleteFn books ticket .notifying target after) :
    target = none ∧ after.status = books.status := by
  cases moves with
  | notify => exact ⟨rfl, Books.callCompleteFn_frame.1⟩

/-! ## Tickets and adds -/

/-- All tickets in the queue but those that wait for their last `complete_fn` belong to
the latest add of their item. -/
structure Sound (phase : Ticket Work → Option Phase) (books : Books Work) : Prop where
  serial_pos : ∀ {ticket now}, phase ticket = some now → 0 < ticket.serial
  serial_le :
    ∀ {ticket now}, phase ticket = some now → ticket.serial ≤ books.adds ticket.work
  latest :
    ∀ {ticket now}, phase ticket = some now → now ≠ .notifying →
      ticket.serial = books.adds ticket.work
  blank :
    ∀ {ticket}, books.adds ticket.work < ticket.serial → books.history ticket = []

/-- The item can be added: no ticket of it is queued or running. -/
def Free (phase : Ticket Work → Option Phase) (work : Work) : Prop :=
  ∀ ticket now, phase ticket = some now → ticket.work = work → now = .notifying

omit [DecidableEq Work] in
theorem Sound.start :
    Sound (fun _ : Ticket Work => none)
      { status := fun _ => .new
        cancelRequested := fun _ => false
        adds := fun _ => 0
        history := fun _ => [] } where
  serial_pos := nofun
  serial_le := nofun
  latest := nofun
  blank := fun _ => rfl

omit [DecidableEq Work] in
theorem Sound.eq_of_work_eq (sound : Sound phase books) {now otherNow : Phase}
    (placed : phase ticket = some now) (otherPlaced : phase other = some otherNow)
    (unfinished : now ≠ .notifying) (otherUnfinished : otherNow ≠ .notifying)
    (sameWork : other.work = ticket.work) : other = ticket := by
  have serial := sound.latest placed unfinished
  have otherSerial := sound.latest otherPlaced otherUnfinished
  rw [sameWork, ← serial] at otherSerial
  cases ticket
  cases other
  simp only at sameWork otherSerial
  rw [sameWork, otherSerial]

omit [DecidableEq Work] in
theorem Sound.nextTicket_unplaced (sound : Sound phase books) :
    phase (books.nextTicket work) = none := by
  cases placed : phase (books.nextTicket work) with
  | none => rfl
  | some now =>
    have bound := sound.serial_le placed
    exact absurd bound (Nat.not_succ_le_self _)

theorem Sound.move (sound : Sound phase books) (placed : phase ticket = some source)
    (moves : Moves hasCompleteFn books ticket source target after) :
    Sound (update phase ticket target) after := by
  have lookup : ∀ found now, update phase ticket target found = some now →
      ∃ earlier, phase found = some earlier ∧ (now ≠ .notifying → earlier ≠ .notifying) := by
    intro found now known
    by_cases same : found = ticket
    · subst found
      refine ⟨source, placed, ?_⟩
      intro _ isNotifying
      subst source
      rw [update_self, moves.status_of_notifying.1] at known
      cases known
    · rw [update_of_ne same] at known
      exact ⟨now, known, id⟩
  constructor
  · intro found now known
    rcases lookup found now known with ⟨earlier, before, _⟩
    exact sound.serial_pos before
  · intro found now known
    rcases lookup found now known with ⟨earlier, before, _⟩
    rw [moves.adds_eq]
    exact sound.serial_le before
  · intro found now known unfinished
    rcases lookup found now known with ⟨earlier, before, notEarlier⟩
    rw [moves.adds_eq]
    exact sound.latest before (notEarlier unfinished)
  · intro found beyond
    rw [moves.adds_eq] at beyond
    have apart : found ≠ ticket := by
      intro same
      subst found
      have bound := sound.serial_le placed
      omega
    rw [moves.history_of_ne apart]
    exact sound.blank beyond

theorem Sound.beginAdd (sound : Sound phase books) (free : Free phase work) :
    Sound (update phase (books.nextTicket work) (some .queueing)) (books.beginAdd work) := by
  have grows : ∀ item, books.adds item ≤ (books.beginAdd work).adds item := by
    intro item
    by_cases same : item = work
    · subst item
      simp [Books.beginAdd]
    · simp [Books.beginAdd, update_of_ne same]
  have nextSerial : (books.nextTicket work).serial =
      (books.beginAdd work).adds (books.nextTicket work).work := by
    simp [Books.nextTicket, Books.beginAdd]
  constructor
  · intro found now known
    by_cases same : found = books.nextTicket work
    · subst found
      exact Nat.succ_pos _
    · rw [update_of_ne same] at known
      exact sound.serial_pos known
  · intro found now known
    by_cases same : found = books.nextTicket work
    · subst found
      exact nextSerial.le
    · rw [update_of_ne same] at known
      exact le_trans (sound.serial_le known) (grows _)
  · intro found now known unfinished
    by_cases same : found = books.nextTicket work
    · subst found
      exact nextSerial
    · rw [update_of_ne same] at known
      have otherWork : found.work ≠ work := by
        intro sameWork
        exact unfinished (free found now known sameWork)
      rw [sound.latest known unfinished]
      simp [Books.beginAdd, update_of_ne otherWork]
  · intro found beyond
    exact sound.blank (lt_of_le_of_lt (grows _) beyond)

/-- The waiting tickets of the item, as the backlog shows them. -/
def ShowsWaiting (phase : Ticket Work → Option Phase) (waiting : Ticket Work → Bool) : Prop :=
  ∀ ticket, waiting ticket = true ↔ phase ticket = some .waiting

variable {waiting : Ticket Work → Bool}

theorem Books.cancel_history_of_not_waiting (shown : ShowsWaiting phase waiting)
    (notWaiting : ticket.work = work → phase ticket ≠ some .waiting) :
    (books.cancel waiting work).history ticket = books.history ticket := by
  apply if_neg
  rintro ⟨sameWork, isWaiting⟩
  exact notWaiting sameWork ((shown ticket).mp isWaiting)

theorem Sound.cancel (sound : Sound phase books) (shown : ShowsWaiting phase waiting) :
    Sound phase (books.cancel waiting work) where
  __ := sound
  blank := by
    intro found beyond
    rw [Books.cancel_history_of_not_waiting shown]
    · exact sound.blank beyond
    · intro _ isWaiting
      have bound : found.serial ≤ books.adds found.work := sound.serial_le isWaiting
      exact absurd beyond (not_lt.mpr bound)

end Skyc.Utils.Workqueue
