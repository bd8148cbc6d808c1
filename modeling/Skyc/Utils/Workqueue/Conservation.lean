import Skyc.Utils.Workqueue.Refinement

/-!
# No item is lost, run twice at a time or completed twice

Without cancel requests a ticket waits, is run until `work_fn` returns a
value that is not positive, and is completed once.
-/

namespace Skyc.Utils.Workqueue

open Skyc.Lib Function List Option Int Books Workqueue

/-! ## Histories -/

/-- Calls of `work_fn` with the given results. -/
def attempts (results : List Int) : List Event :=
  results.flatMap fun rc => [.call, .ret rc]

/-- The whole history of one add: calls whose results asked for another
call, the last call, the completion and the call of `complete_fn`. -/
def fullHistory (hasCompleteFn : Bool) (again : List Int) (last : Int) : List Event :=
  attempts again ++ [.call, .ret last, .complete] ++ if hasCompleteFn then [.completeFn] else []

def Phase.Shape (history : List Event) : Phase → Prop
  | .queueing => history = []
  | .putting | .waiting | .taken | .proceeding | .ready =>
    ∃ again, (∀ rc ∈ again, 0 < rc) ∧ history = attempts again
  | .cancelling | .cancelNotifying => False
  | .running => ∃ again, (∀ rc ∈ again, 0 < rc) ∧ history = attempts again ++ [.call]
  | .returned rc =>
    ∃ again, (∀ rc ∈ again, 0 < rc) ∧ history = attempts again ++ [.call, .ret rc]
  | .finishing =>
    ∃ again last, (∀ rc ∈ again, 0 < rc) ∧ last ≤ 0 ∧ history = attempts again ++ [.call, .ret last]
  | .notifying =>
    ∃ again last, (∀ rc ∈ again, 0 < rc) ∧ last ≤ 0 ∧
      history = attempts again ++ [.call, .ret last, .complete]

def Over (hasCompleteFn : Bool) (history : List Event) : Prop :=
  ∃ again last, (∀ rc ∈ again, 0 < rc) ∧ last ≤ 0 ∧ history = fullHistory hasCompleteFn again last

theorem attempts_append (again : List Int) (rc : Int) :
    attempts (again ++ [rc]) = attempts again ++ [.call, .ret rc] := by
  simp [attempts]

theorem Phase.Shape.isPrefix {now : Phase} {history : List Event} (hasCompleteFn : Bool)
    (shape : now.Shape history) :
    ∃ again last, (∀ rc ∈ again, 0 < rc) ∧ last ≤ 0 ∧
      history <+: fullHistory hasCompleteFn again last := by
  cases now with
  | queueing =>
    refine ⟨[], 0, nofun, le_refl 0, ?_⟩
    rw [shape]
    exact nil_prefix
  | putting | waiting | taken | proceeding | ready | running =>
    rcases shape with ⟨again, positive, rfl⟩
    refine ⟨again, 0, positive, le_refl 0, ?_⟩
    simp [fullHistory]
  | cancelling | cancelNotifying => exact absurd shape id
  | returned rc =>
    rcases shape with ⟨again, positive, rfl⟩
    by_cases more : 0 < rc
    · refine ⟨again ++ [rc], 0, ?_, le_refl 0, ?_⟩
      · exact forall_mem_append.mpr ⟨positive, forall_mem_singleton.mpr more⟩
      · rw [← attempts_append]
        simp [fullHistory]
    · refine ⟨again, rc, positive, not_lt.mp more, ?_⟩
      simp [fullHistory]
  | finishing | notifying =>
    rcases shape with ⟨again, last, positive, done, rfl⟩
    refine ⟨again, last, positive, done, ?_⟩
    simp [fullHistory]

variable {workers clients : Nat} {Work : Type} [DecidableEq Work]
  {items : Items Work} {hasCompleteFn : Work → Bool}
  {phase : Ticket Work → Option Phase} {books booksAfter : Books Work}
  {ticket : Ticket Work} {work : Work}

variable {source : Phase} {target : Option Phase}

theorem Phase.Shape.move (shape : source.Shape (books.history ticket))
    (notRequested : books.cancelRequested ticket.work = false)
    (moves : Moves hasCompleteFn books ticket source target booksAfter) :
    target.elim (Over (hasCompleteFn ticket.work) (booksAfter.history ticket))
      (Phase.Shape (booksAfter.history ticket)) := by
  cases moves with
  | setQueued => exact ⟨[], nofun, shape⟩
  | enqueue | dequeue | proceed | setInProgress => exact shape
  | cancel requested =>
    rw [notRequested] at requested
    cases requested
  | cancelComplete | cancelNotify => exact absurd shape id
  | call =>
    rcases shape with ⟨again, positive, history⟩
    refine ⟨again, positive, ?_⟩
    simp only [record, update_self, history]
  | ret rc =>
    rcases shape with ⟨again, positive, history⟩
    refine ⟨again, positive, ?_⟩
    simp [record, history]
  | finish done =>
    rcases shape with ⟨again, positive, history⟩
    rw [notRequested] at done
    rcases done with notPositive | requested
    · exact ⟨again, _, positive, notPositive, history⟩
    · cases requested
  | @again rc more _ =>
    rcases shape with ⟨earlier, positive, history⟩
    refine ⟨earlier ++ [rc], ?_, ?_⟩
    · exact forall_mem_append.mpr ⟨positive, forall_mem_singleton.mpr more⟩
    · rw [attempts_append]
      exact history
  | complete =>
    rcases shape with ⟨again, last, positive, done, history⟩
    refine ⟨again, last, positive, done, ?_⟩
    simp [complete, record, setStatus, history]
  | notify =>
    rcases shape with ⟨again, last, positive, done, history⟩
    refine ⟨again, last, positive, done, ?_⟩
    rw [callCompleteFn_history, history]
    rfl

/-! ## Tickets without cancel requests -/

structure Regular (hasCompleteFn : Work → Bool)
    (phase : Ticket Work → Option Phase) (books : Books Work) : Prop where
  quiet : ∀ work, books.cancelRequested work = false
  shape : ∀ {ticket now}, phase ticket = some now → now.Shape (books.history ticket)
  ended : ∀ {ticket}, phase ticket = none → 0 < ticket.serial →
    ticket.serial ≤ books.adds ticket.work → Over (hasCompleteFn ticket.work) (books.history ticket)
  /-- An item of which no ticket is queued or running is new or
  complete. -/
  resting : ∀ work, (∀ now, phase ⟨work, books.adds work⟩ = some now → now = .notifying) →
    books.status work = .new ∨ books.status work = .complete

theorem Regular.move (regular : Regular hasCompleteFn phase books) (sound : Sound phase books)
    (placed : phase ticket = some source)
    (moves : Moves hasCompleteFn books ticket source target booksAfter) :
    Regular hasCompleteFn (update phase ticket target) booksAfter := by
  have moved := (regular.shape placed).move (regular.quiet ticket.work) moves
  constructor
  · rw [moves.cancelRequested_eq]
    exact regular.quiet
  · intro found now known
    rcases update_cases known with ⟨rfl, rfl⟩ | ⟨same, known⟩
    · exact moved
    · rw [moves.history_of_ne same]
      exact regular.shape known
  · intro found known positive bound
    rcases update_cases known with ⟨rfl, rfl⟩ | ⟨same, known⟩
    · exact moved
    · rw [moves.history_of_ne same]
      rw [moves.adds_eq] at bound
      exact regular.ended known positive bound
  · intro item resting
    rw [moves.adds_eq] at resting
    by_cases finished : source = .notifying
    · -- the item is not touched, and it was at rest before
      subst source
      rw [moves.status_of_notifying.2]
      apply regular.resting
      intro now known
      by_cases same : (⟨item, books.adds item⟩ : Ticket Work) = ticket
      · rw [same, placed] at known
        exact (some.inj known).symm
      · apply resting
        rw [update_of_ne same]
        exact known
    · by_cases sameWork : item = ticket.work
      · subst item
        have latest : (⟨ticket.work, books.adds ticket.work⟩ : Ticket Work) = ticket := by
          rw [← sound.latest placed finished]
        rw [latest, update_self] at resting
        cases moves with
        | complete =>
          right
          exact update_self ..
        | notify => exact absurd rfl finished
        | _ =>
          have impossible := resting _ rfl
          cases impossible
      · have apart : (⟨item, books.adds item⟩ : Ticket Work) ≠ ticket := by
          intro same
          exact sameWork (congrArg Ticket.work same)
        rw [moves.status_of_ne sameWork]
        apply regular.resting
        intro now known
        apply resting
        rw [update_of_ne apart]
        exact known

theorem Regular.beginAdd (regular : Regular hasCompleteFn phase books) (sound : Sound phase books) :
    Regular hasCompleteFn (update phase (books.nextTicket work) (some .queueing))
      (books.beginAdd work) := by
  have blank : books.history (books.nextTicket work) = [] := sound.blank (lt_add_one _)
  constructor
  · intro item
    by_cases same : item = work
    · subst item
      exact update_self ..
    · simp only [Books.beginAdd, update_of_ne same]
      exact regular.quiet item
  · intro found now known
    rcases update_cases known with ⟨rfl, first⟩ | ⟨_, known⟩
    · cases first
      exact blank
    · exact regular.shape known
  · intro found known positive bound
    rcases update_cases known with ⟨_, impossible⟩ | ⟨same, known⟩
    · cases impossible
    · apply regular.ended known positive
      by_cases sameWork : found.work = work
      · -- below the serial of the new ticket, so an earlier one
        rcases found with ⟨item, serial⟩
        simp only at sameWork
        subst item
        simp only [Books.beginAdd, update_self] at bound
        have notNew : serial ≠ books.adds work + 1 := by
          intro sameSerial
          exact same (by rw [sameSerial, Books.nextTicket])
        simp only
        omega
      · simp only [Books.beginAdd, update_of_ne sameWork] at bound
        exact bound
  · intro item resting
    by_cases same : item = work
    · subst item
      have opened := resting .queueing (by
        simp [Books.beginAdd, Books.nextTicket])
      cases opened
    · apply regular.resting
      intro now known
      apply resting
      have apart : (⟨item, books.adds item⟩ : Ticket Work) ≠ books.nextTicket work := by
        intro sameTicket
        exact same (congrArg Ticket.work sameTicket)
      simp only [Books.beginAdd, update_of_ne same]
      rw [update_of_ne apart]
      exact known

def NoCancel (_ : State workers clients Work) : Label workers clients Work → Prop
  | .cancel _ => False
  | .add _ _ | .step _ | .ret _ _ => True

variable {label : Label workers clients Work}

theorem Regular.change {state : State workers clients Work}
    {phaseAfter : Ticket Work → Option Phase}
    (regular : Regular items.hasCompleteFn phase state.shared.books)
    (sound : Sound phase state.shared.books) (noCancel : NoCancel state label)
    (change : Change items state label phase phaseAfter booksAfter) :
    Regular items.hasCompleteFn phaseAfter booksAfter := by
  cases change with
  | quiet => exact regular
  | moved placed _ moves => exact regular.move sound placed moves
  | opened _ _ => exact regular.beginAdd sound
  | cancelled isCancel _ =>
    subst label
    exact absurd noCancel id

/-! ## The lock and the counter -/

/-- By how much the backlog is longer than the counter says, for a thread
that holds `backlog_lock`. -/
def PutPoint.due : PutPoint workers Work → Option Int
  | .lock _ | .scan _ | .signal _ => none
  | .enqueue _ | .unlock => some 0
  | .increment => some 1

def WorkerPoint.due : WorkerPoint workers Work → Option Int
  | .getDequeue | .getUnlock _ => some 0
  | .getDecrement _ => some (-1)
  | .put point => point.due
  | .start | .readEvent | .setRunning | .getLock | .testCancel _
  | .cancelStatus _ | .cancelCall _ | .setInProgress _ | .callWork _
  | .working _ | .testAgain _ _ | .completeStatus _ | .completeCall _
  | .setIdle => none

def ClientPoint.due : ClientPoint workers Work → Option Int
  | .put point => point.due
  | .outside | .setQueued _ => none

def State.due (state : State workers clients Work) : Thread workers clients → Option Int :=
  state.each WorkerPoint.due ClientPoint.due

/-- The counter is exact while nobody holds the lock, and off by what the
holder still owes otherwise. -/
structure Counted (shared : Shared workers clients Work)
    (due : Thread workers clients → Option Int) : Prop where
  free : shared.backlogLock = none → shared.backlog.length = shared.backlogCount ∧
    ∀ thread, due thread = none
  taken : ∀ {holder}, shared.backlogLock = some holder → ∃ owed, due holder = some owed ∧
    shared.backlog.length = shared.backlogCount + owed ∧
    ∀ other, other ≠ holder → due other = none

/-- What a step of a thread does to the lock and the counter. -/
inductive Locking (thread : Thread workers clients)
    (shared sharedAfter : Shared workers clients Work) : Option Int → Option Int → Prop
  | outside : sharedAfter.backlogLock = shared.backlogLock → sharedAfter.backlog = shared.backlog →
    sharedAfter.backlogCount = shared.backlogCount →
    Locking thread shared sharedAfter none none
  | acquire : shared.backlogLock = none → sharedAfter.backlogLock = some thread →
    sharedAfter.backlog = shared.backlog →
    sharedAfter.backlogCount = shared.backlogCount →
    Locking thread shared sharedAfter none (some 0)
  | inside {owed owedAfter : Int} : sharedAfter.backlogLock = shared.backlogLock →
    (shared.backlog.length = shared.backlogCount + owed →
      sharedAfter.backlog.length = sharedAfter.backlogCount + owedAfter) →
    Locking thread shared sharedAfter (some owed) (some owedAfter)
  | release : sharedAfter.backlogLock = none → sharedAfter.backlog = shared.backlog →
    sharedAfter.backlogCount = shared.backlogCount →
    Locking thread shared sharedAfter (some 0) none

variable {shared sharedAfter : Shared workers clients Work}
  {state after : State workers clients Work}

variable {thread : Thread workers clients}

omit [DecidableEq Work] in
theorem Counted.step {due : Thread workers clients → Option Int} {dueAfter : Option Int}
    (counted : Counted shared due)
    (locking : Locking thread shared sharedAfter (due thread) dueAfter) :
    Counted sharedAfter (update due thread dueAfter) := by
  have holderOf : ∀ owed, due thread = some owed → shared.backlogLock = some thread ∧
      shared.backlog.length = shared.backlogCount + owed ∧
      ∀ other, other ≠ thread → due other = none := by
    intro owed owes
    cases lock : shared.backlogLock with
    | none =>
      rw [(counted.free lock).2 thread] at owes
      cases owes
    | some holder =>
      rcases counted.taken lock with ⟨holderOwed, known, length, others⟩
      have same : thread = holder := by
        by_contra apart
        rw [others thread apart] at owes
        cases owes
      subst holder
      rw [owes] at known
      cases known
      exact ⟨rfl, length, others⟩
  generalize before : due thread = dueBefore at locking
  cases locking with
  | outside lock backlog count =>
    rw [← before, update_eq_self]
    constructor
    · rw [lock, backlog, count]
      exact counted.free
    · intro holder
      rw [lock, backlog, count]
      exact counted.taken
  | acquire wasFree lock backlog count =>
    rcases counted.free wasFree with ⟨length, nobody⟩
    constructor
    · intro free
      rw [lock] at free
      cases free
    · intro holder held
      rw [lock] at held
      cases held
      refine ⟨0, update_self .., ?_, ?_⟩
      · rw [backlog, count, length, add_zero]
      · intro other apart
        rw [update_of_ne apart]
        exact nobody other
  | inside lock length =>
    rename_i owed owedAfter
    rcases holderOf owed before with ⟨held, exactly, others⟩
    constructor
    · intro free
      rw [lock, held] at free
      cases free
    · intro holder heldAfter
      rw [lock, held] at heldAfter
      cases heldAfter
      refine ⟨owedAfter, update_self .., length exactly, ?_⟩
      intro other apart
      rw [update_of_ne apart]
      exact others other apart
  | release lock backlog count =>
    rcases holderOf 0 before with ⟨_, exactly, others⟩
    constructor
    · intro _
      refine ⟨?_, ?_⟩
      · rw [backlog, count, exactly, add_zero]
      · intro other
        by_cases same : other = thread
        · subst other
          exact update_self ..
        · rw [update_of_ne same]
          exact others other same
    · intro holder held
      rw [lock] at held
      cases held

omit [DecidableEq Work] in
theorem locking_putStep {point : PutPoint workers Work} {next : Option (PutPoint workers Work)}
    (stepped : putStep thread shared point = some (next, sharedAfter)) :
    Locking thread shared sharedAfter point.due (next.elim none PutPoint.due) := by
  cases point with
  | lock ticket =>
    simp only [putStep] at stepped
    split at stepped
    · rename_i free
      cases stepped
      exact Locking.acquire free rfl rfl rfl
    · cases stepped
  | enqueue ticket =>
    cases stepped
    refine Locking.inside rfl ?_
    intro length
    simp only [length_append, length_singleton]
    omega
  | increment =>
    cases stepped
    refine Locking.inside rfl ?_
    intro length
    simp only
    omega
  | unlock =>
    cases stepped
    exact Locking.release rfl rfl rfl
  | scan | signal =>
    simp only [putStep] at stepped
    repeat' split at stepped
    all_goals cases stepped
    all_goals exact Locking.outside rfl rfl rfl

theorem locking_workerStep {worker : Fin workers} {point next : WorkerPoint workers Work} (stepped :
      workerStep items worker shared point = some (next, sharedAfter)) :
    Locking (.worker worker) shared sharedAfter point.due next.due := by
  cases point with
  | readEvent =>
    simp only [workerStep] at stepped
    split at stepped
    · cases stepped
    · cases stepped
      split
      · exact Locking.outside rfl rfl rfl
      · exact Locking.outside rfl rfl rfl
  | getLock =>
    simp only [workerStep] at stepped
    split at stepped
    · rename_i free
      cases stepped
      exact Locking.acquire free rfl rfl rfl
    · cases stepped
  | getDequeue =>
    simp only [workerStep] at stepped
    split at stepped
    · cases stepped
      exact Locking.inside rfl id
    · rename_i ticket rest content
      cases stepped
      refine Locking.inside rfl ?_
      intro length
      rw [content, length_cons] at length
      simp only
      omega
  | getDecrement ticket =>
    cases stepped
    refine Locking.inside rfl ?_
    intro length
    simp only
    omega
  | getUnlock found =>
    cases found with
    | none | some =>
      cases stepped
      exact Locking.release rfl rfl rfl
  | working ticket => cases stepped
  | put point =>
    simp only [workerStep, map_eq_some_iff] at stepped
    rcases stepped with ⟨⟨following, result⟩, moved, same⟩
    cases same
    have locking := locking_putStep moved
    cases following with
    | none | some => exact locking
  | _ =>
    simp only [workerStep] at stepped
    repeat' split at stepped
    all_goals cases stepped
    all_goals exact Locking.outside rfl rfl rfl

theorem locking_clientStep {client : Fin clients} {point next : ClientPoint workers Work}
    (stepped : clientStep client shared point = some (next, sharedAfter)) :
    Locking (.client client) shared sharedAfter point.due next.due := by
  cases point with
  | outside => cases stepped
  | setQueued ticket =>
    cases stepped
    exact Locking.outside rfl rfl rfl
  | put point =>
    simp only [clientStep, map_eq_some_iff] at stepped
    rcases stepped with ⟨⟨following, result⟩, moved, same⟩
    cases same
    have locking := locking_putStep moved
    cases following with
    | none | some => exact locking

theorem Counted.next (counted : Counted state.shared state.due)
    (moved : next items state label = some after) : Counted after.shared after.due := by
  cases label with
  | add client work =>
    simp only [next, addWork] at moved
    split at moved
    · rename_i outside
      split at moved
      · split at moved
        · cases moved
        · cases moved
          have idle : state.due (.client client) = none := by
            simp only [State.due, State.each, outside, ClientPoint.due]
          simp only [State.due, State.each_setClient]
          apply counted.step
          rw [idle]
          exact Locking.outside rfl rfl rfl
      · cases moved
        exact counted
    · cases moved
  | cancel work =>
    cases moved
    exact ⟨counted.free, counted.taken⟩
  | step thread =>
    cases thread with
    | worker worker =>
      simp only [next, map_eq_some_iff] at moved
      rcases moved with ⟨⟨point, result⟩, stepped, same⟩
      cases same
      simp only [State.due, State.each_setWorker]
      exact counted.step (locking_workerStep stepped)
    | client client =>
      simp only [next, map_eq_some_iff] at moved
      rcases moved with ⟨⟨point, result⟩, stepped, same⟩
      cases same
      simp only [State.due, State.each_setClient]
      exact counted.step (locking_clientStep stepped)
  | ret worker rc =>
    simp only [next] at moved
    split at moved
    · rename_i ticket point
      cases moved
      have idle : state.due (.worker worker) = none := by
        simp only [State.due, State.each, point, WorkerPoint.due]
      simp only [State.due, State.each_setWorker]
      apply counted.step
      rw [idle]
      exact Locking.outside rfl rfl rfl
    · cases moved

theorem counted_start (workers clients : Nat) (items : Items Work) :
    Counted (workqueue workers clients items).start.shared
      (workqueue workers clients items).start.due where
  free := by
    intro _
    refine ⟨rfl, ?_⟩
    intro thread
    cases thread with
    | worker | client => rfl
  taken := nofun

/-! ## The theorem -/

/-- The worker has taken the item off the backlog and has neither stored
`WQ_WORK_COMPLETE` for it nor put it back. -/
def State.Holds (state : State workers clients Work) (worker : Fin workers) (work : Work) : Prop :=
  occupies (state.held (.worker worker)) work = true

/-- The item has been put into the backlog by the latest
`workqueue_add_work` and is not complete yet. -/
def State.Outstanding (state : State workers clients Work) (work : Work) : Prop :=
  (state.shared.books.status work = .queued ∨ state.shared.books.status work = .inProgress) ∧
    ∀ client, occupies (state.held (.client client)) work = false

structure Conserved (items : Items Work) (state : State workers clients Work) : Prop where
  /-- Outstanding items are in one place. -/
  onePlace :
    ∀ work, state.Outstanding work → ((state.shared.backlog.map Ticket.work).count work = 1 ∧
          ∀ worker, ¬ state.Holds worker work) ∨
        ((state.shared.backlog.map Ticket.work).count work = 0 ∧ ∃! worker, state.Holds worker work)
  counted :
    state.shared.backlogLock = none → state.shared.backlogCount = state.shared.backlog.length
  /-- The history of an add is part of a full history, and it is a full
  one as soon as the ticket is neither in the backlog nor with a thread. -/
  course :
    ∀ ticket, 0 < ticket.serial → ticket.serial ≤ state.shared.books.adds ticket.work →
      ∃ again last, (∀ rc ∈ again, 0 < rc) ∧ last ≤ 0 ∧ state.shared.books.history ticket <+:
          fullHistory (items.hasCompleteFn ticket.work) again last ∧
        (ticket ∉ state.shared.backlog → (∀ thread now, state.held thread ≠ some (ticket, now)) →
          state.shared.books.history ticket =
            fullHistory (items.hasCompleteFn ticket.work) again last)

theorem occupies_iff {held : Option (Ticket Work × Phase)} :
    occupies held work = true ↔
      ∃ ticket now, held = some (ticket, now) ∧ ticket.work = work ∧ now ≠ .notifying := by
  cases held with
  | none => simp [occupies]
  | some pair => simp [occupies, Prod.ext_iff]

theorem onePlace_of_regular (tracks : Tracks state phase)
    (regular : Regular items.hasCompleteFn phase state.shared.books)
    (outstanding : state.Outstanding work) :
    ((state.shared.backlog.map Ticket.work).count work = 1 ∧ ∀ worker, ¬ state.Holds worker work) ∨
      ((state.shared.backlog.map Ticket.work).count work = 0 ∧
        ∃! worker, state.Holds worker work) := by
  have custody := tracks.custody
  have sound := tracks.sound
  let ticket : Ticket Work := ⟨work, state.shared.books.adds work⟩
  have placed : ∃ now, phase ticket = some now ∧ now ≠ .notifying := by
    by_contra nowhere
    have atRest := regular.resting work (by
      intro now known
      by_contra unfinished
      exact nowhere ⟨now, known, unfinished⟩)
    rcases outstanding.1 with queued | inProgress
    · rw [queued] at atRest
      simp at atRest
    · rw [inProgress] at atRest
      simp at atRest
  rcases placed with ⟨now, placed, unfinished⟩
  have onlyTicket : ∀ other otherNow, phase other = some otherNow → otherNow ≠ .notifying →
      other.work = work → other = ticket := by
    intro other otherNow otherPlaced otherUnfinished sameWork
    exact sound.eq_of_work_eq placed otherPlaced unfinished otherUnfinished sameWork
  have onlyQueued : ∀ other ∈ state.shared.backlog, other.work = work → other = ticket := by
    intro other member sameWork
    exact onlyTicket other .waiting ((custody.mem_queue_iff other).mp member) nofun sameWork
  have onlyHeld : ∀ worker, state.Holds worker work →
      ∃ held, state.held (.worker worker) = some (ticket, held) := by
    intro worker holds
    rcases occupies_iff.mp holds with
      ⟨other, otherNow, held, sameWork, otherUnfinished⟩
    have known := (custody.stage_of_held held).1
    rw [onlyTicket other otherNow known otherUnfinished sameWork] at held
    exact ⟨otherNow, held⟩
  by_cases isWaiting : now = .waiting
  · subst now
    left
    have member := (custody.mem_queue_iff ticket).mpr placed
    constructor
    · have distinct : (state.shared.backlog.map Ticket.work).Nodup := by
        apply Nodup.map_on _ custody.nodup
        intro first firstMember second secondMember sameWork
        exact sound.eq_of_work_eq ((custody.mem_queue_iff second).mp secondMember)
          ((custody.mem_queue_iff first).mp firstMember) nofun nofun sameWork
      apply count_eq_one_of_mem distinct
      exact mem_map_of_mem member
    · intro worker holds
      rcases onlyHeld worker holds with ⟨held, found⟩
      exact custody.not_mem_queue_of_held found member
  · right
    rcases custody.exists_holder placed isWaiting with ⟨holder, held⟩
    have occupied : occupies (state.held holder) work = true :=
      occupies_iff.mpr ⟨ticket, now, held, rfl, unfinished⟩
    constructor
    · apply count_eq_zero_of_not_mem
      intro member
      rcases mem_map.mp member with ⟨other, inBacklog, sameWork⟩
      rw [onlyQueued other inBacklog sameWork] at inBacklog
      exact custody.not_mem_queue_of_held held inBacklog
    · cases holder with
      | client client =>
        rw [outstanding.2 client] at occupied
        cases occupied
      | worker worker =>
        refine ⟨worker, occupied, ?_⟩
        intro other holds
        rcases onlyHeld other holds with ⟨otherNow, found⟩
        have same := custody.holder_unique found held
        exact Thread.worker.inj same

omit [DecidableEq Work] in
theorem course_of_regular (tracks : Tracks state phase)
    (regular : Regular items.hasCompleteFn phase state.shared.books) (positive : 0 < ticket.serial)
    (bound : ticket.serial ≤ state.shared.books.adds ticket.work) :
    ∃ again last, (∀ rc ∈ again, 0 < rc) ∧ last ≤ 0 ∧ state.shared.books.history ticket <+:
          fullHistory (items.hasCompleteFn ticket.work) again last ∧
        (ticket ∉ state.shared.backlog → (∀ thread now, state.held thread ≠ some (ticket, now)) →
          state.shared.books.history ticket =
            fullHistory (items.hasCompleteFn ticket.work) again last) := by
  have custody := tracks.custody
  cases placed : phase ticket with
  | none =>
    rcases regular.ended placed positive bound with
      ⟨again, last, results, done, whole⟩
    refine ⟨again, last, results, done, ?_, fun _ _ => whole⟩
    rw [whole]
  | some now =>
    rcases (regular.shape placed).isPrefix (items.hasCompleteFn ticket.work) with
      ⟨again, last, results, done, part⟩
    refine ⟨again, last, results, done, part, ?_⟩
    intro notQueued notHeld
    by_cases isWaiting : now = .waiting
    · subst now
      exact absurd ((custody.mem_queue_iff ticket).mpr placed) notQueued
    · rcases custody.exists_holder placed isWaiting with ⟨holder, held⟩
      exact absurd held (notHeld holder now)

/-- Without cancel requests no item is lost or duplicated, the counter is
exact, and every add runs its course once. -/
theorem conserved_of_noCancel (items : Items Work) (state : State workers clients Work) (reached :
      (workqueue workers clients items).ReachableUnder NoCancel state) :
    Conserved items state := by
  have counted : Counted state.shared state.due := by
    apply reached.invariant (counted_start workers clients items)
    intro _ _ _ _ holds _ moved
    exact holds.next moved
  have tracked : ∃ phase, Tracks state phase ∧
      Regular items.hasCompleteFn phase state.shared.books := by
    apply reached.invariant
    · refine ⟨fun _ => none, tracks_start workers clients items, ?_⟩
      constructor
      · intro work
        rfl
      · nofun
      · intro ticket _ positive bound
        exact absurd positive (Nat.not_lt.mpr bound)
      · intro work _
        exact Or.inl rfl
    · intro source label target _ known noCancel moved
      rcases known with ⟨phase, tracks, regular⟩
      rcases change_next tracks moved with ⟨phaseAfter, tracksAfter, change⟩
      exact ⟨phaseAfter, tracksAfter, regular.change tracks.sound noCancel change⟩
  rcases tracked with ⟨phase, tracks, regular⟩
  constructor
  · intro work outstanding
    exact onePlace_of_regular tracks regular outstanding
  · intro free
    exact (counted.free free).1.symm
  · intro ticket positive bound
    exact course_of_regular tracks regular positive bound

instance (state : State workers clients Work) (label : Label workers clients Work) :
    Decidable (NoCancel state label) :=
  match label with
  | .cancel _ => isFalse id
  | .add _ _ | .step _ | .ret _ _ => isTrue trivial

attribute [local instance] neZeroOne

/-- Item 0 is added, asks for a second call, and completes after it. -/
def runTwice : List (Label 1 1 Nat) :=
  [Label.step (.worker 0), Label.add 0 0] ++ replicate 7 (Label.step (.client 0)) ++
    replicate 9 (Label.step (.worker 0)) ++ [Label.ret 0 1] ++
    replicate 14 (Label.step (.worker 0)) ++ [Label.ret 0 0] ++ replicate 3 (Label.step (.worker 0))

theorem conserved_runTwice :
    ∃ state : State 1 1 Nat, state.shared.books.history ⟨0, 1⟩ =
          [.call, .ret 1, .call, .ret 0, .complete, .completeFn] ∧
        Conserved plainItems state := by
  rcases Machine.exists_reachableUnder_of_run (workqueue 1 1 plainItems) NoCancel runTwice
      (fun state =>
        decide (state.shared.books.history ⟨0, 1⟩ =
          [.call, .ret 1, .call, .ret 0, .complete, .completeFn]))
      (by decide) (by decide) with
    ⟨state, reached, tested⟩
  exact ⟨state, of_decide_eq_true tested, conserved_of_noCancel plainItems state reached⟩

end Skyc.Utils.Workqueue
