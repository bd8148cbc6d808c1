import Skyc.Lib.Custody
import Skyc.Lib.Transition
import Skyc.Utils.Workqueue.Ticket

/-!
# The work queue

The threads of `workqueue.c` after `workqueue_create` has returned: the workers run
`workqueue_factory`, the clients call `workqueue_add_work`, and a cancel request can
arrive at any time.  Every access to shared state is one step.

No step reads the numbers of the adds and the histories in `Books`; a work item is
named by its ticket.
-/

namespace Skyc.Utils.Workqueue

open Skyc.Lib Function

/-- `enum worker_state_e` -/
inductive WorkerState where
  | offline
  | idle
  | running
deriving DecidableEq, Repr

inductive Thread (workers clients : Nat) where
  | worker (index : Fin workers)
  | client (index : Fin clients)
deriving DecidableEq, Repr

/-- Program points of `put_backlog` and the `wakeup_first_free_worker` at
its end. -/
inductive PutPoint (workers : Nat) (Work : Type) where
  | lock (ticket : Ticket Work)
  | enqueue (ticket : Ticket Work)
  | increment
  | unlock
  | scan (index : Nat)
  | signal (index : Fin workers)
deriving DecidableEq, Repr

/-- Program points of `workqueue_factory`. -/
inductive WorkerPoint (workers : Nat) (Work : Type) where
  | start
  | readEvent
  | setRunning
  | getLock
  | getDequeue
  | getDecrement (ticket : Ticket Work)
  | getUnlock (found : Option (Ticket Work))
  | testCancel (ticket : Ticket Work)
  | cancelStatus (ticket : Ticket Work)
  | cancelCall (ticket : Ticket Work)
  | setInProgress (ticket : Ticket Work)
  | callWork (ticket : Ticket Work)
  | working (ticket : Ticket Work)
  | testAgain (ticket : Ticket Work) (rc : Int)
  | completeStatus (ticket : Ticket Work)
  | completeCall (ticket : Ticket Work)
  | put (point : PutPoint workers Work)
  | setIdle
deriving DecidableEq, Repr

/-- Program points of a client; `outside` is between two calls. -/
inductive ClientPoint (workers : Nat) (Work : Type) where
  | outside
  | setQueued (ticket : Ticket Work)
  | put (point : PutPoint workers Work)
deriving DecidableEq, Repr

/-- What the threads share.  `event` counts the bytes in the pipe of a
worker's event. -/
structure Shared (workers clients : Nat) (Work : Type) where
  backlog : List (Ticket Work)
  backlogCount : Int
  backlogLock : Option (Thread workers clients)
  workerState : Fin workers → WorkerState
  event : Fin workers → Nat
  books : Books Work

structure State (workers clients : Nat) (Work : Type) where
  shared : Shared workers clients Work
  workerPoint : Fin workers → WorkerPoint workers Work
  clientPoint : Fin clients → ClientPoint workers Work

/-- Which of the user's function pointers of an item are set. -/
structure Items (Work : Type) where
  hasWorkFn : Work → Bool
  hasCompleteFn : Work → Bool

inductive Label (workers clients : Nat) (Work : Type) where
  | add (client : Fin clients) (work : Work)
  | cancel (work : Work)
  | step (thread : Thread workers clients)
  | ret (worker : Fin workers) (rc : Int)
deriving DecidableEq, Repr

/-- `sizeof(value)` in `event_set` -/
def eventSize : Nat := 8

/-- `sizeof(buf)` in `flush_fd` -/
def flushSize : Nat := 64

variable {workers clients : Nat} {Work : Type} [DecidableEq Work]

/-- One step of `put_backlog`; it has returned when no point is left. -/
def putStep (thread : Thread workers clients) (shared : Shared workers clients Work) :
    PutPoint workers Work → Option (Option (PutPoint workers Work) × Shared workers clients Work)
  | .lock ticket =>
    if shared.backlogLock = none then
      some (some (.enqueue ticket), { shared with backlogLock := some thread })
    else
      none
  | .enqueue ticket => some (some .increment, { shared with backlog := shared.backlog ++ [ticket] })
  | .increment => some (some .unlock, { shared with backlogCount := shared.backlogCount + 1 })
  | .unlock => some (some (.scan 0), { shared with backlogLock := none })
  | .scan index =>
    if bound : index < workers then
      if shared.workerState ⟨index, bound⟩ = .idle then
        some (some (.signal ⟨index, bound⟩), shared)
      else
        some (some (.scan (index + 1)), shared)
    else
      some (none, shared)
  | .signal index =>
    some (none,
      { shared with
        event := update shared.event index (shared.event index + eventSize) })

/-- Where a worker goes on after a step of `put_backlog`. -/
def WorkerPoint.afterPut : Option (PutPoint workers Work) → WorkerPoint workers Work
  | some point => .put point
  | none => .getLock

def ClientPoint.afterPut : Option (PutPoint workers Work) → ClientPoint workers Work
  | some point => .put point
  | none => .outside

/-- One step of `workqueue_factory`.  A blocked step has no result, and the
return of `work_fn` is a step of its own. -/
def workerStep (items : Items Work) (worker : Fin workers) (shared : Shared workers clients Work) :
    WorkerPoint workers Work → Option (WorkerPoint workers Work × Shared workers clients Work)
  | .start =>
    some (.readEvent,
      { shared with
        workerState := update shared.workerState worker .idle })
  | .readEvent =>
    -- `flush_fd` reads again after a full buffer
    if shared.event worker = 0 then
      none
    else
      let len := min (shared.event worker) flushSize
      some (if len = flushSize then .readEvent else .setRunning,
        { shared with
          event := update shared.event worker (shared.event worker - len) })
  | .setRunning =>
    some (.getLock,
      { shared with
        workerState := update shared.workerState worker .running })
  | .getLock =>
    if shared.backlogLock = none then
      some (.getDequeue, { shared with backlogLock := some (.worker worker) })
    else
      none
  | .getDequeue =>
    match shared.backlog with
    | [] => some (.getUnlock none, shared)
    | ticket :: rest => some (.getDecrement ticket, { shared with backlog := rest })
  | .getDecrement ticket =>
    some (.getUnlock (some ticket), { shared with backlogCount := shared.backlogCount - 1 })
  | .getUnlock none => some (.setIdle, { shared with backlogLock := none })
  | .getUnlock (some ticket) => some (.testCancel ticket, { shared with backlogLock := none })
  | .testCancel ticket =>
    if shared.books.cancelRequested ticket.work = true then
      some (.cancelStatus ticket, shared)
    else
      some (.setInProgress ticket, shared)
  | .cancelStatus ticket =>
    some (.cancelCall ticket, { shared with books := shared.books.complete ticket })
  | .cancelCall ticket =>
    some (.setInProgress ticket,
      { shared with
        books := shared.books.callCompleteFn (items.hasCompleteFn ticket.work) ticket })
  | .setInProgress ticket =>
    some (.callWork ticket,
      { shared with
        books := shared.books.setStatus ticket.work .inProgress })
  | .callWork ticket =>
    some (.working ticket, { shared with books := shared.books.record ticket .call })
  | .working _ => none
  | .testAgain ticket rc =>
    if rc ≤ 0 ∨ shared.books.cancelRequested ticket.work = true then
      some (.completeStatus ticket, shared)
    else
      some (.put (.lock ticket), shared)
  | .completeStatus ticket =>
    some (.completeCall ticket, { shared with books := shared.books.complete ticket })
  | .completeCall ticket =>
    some (.getLock,
      { shared with
        books := shared.books.callCompleteFn (items.hasCompleteFn ticket.work) ticket })
  | .put point =>
    (putStep (.worker worker) shared point).map fun result =>
      (.afterPut result.1, result.2)
  | .setIdle =>
    some (.readEvent,
      { shared with
        workerState := update shared.workerState worker .idle })

/-- One step of `workqueue_add_work` after its first store. -/
def clientStep (client : Fin clients) (shared : Shared workers clients Work) :
    ClientPoint workers Work → Option (ClientPoint workers Work × Shared workers clients Work)
  | .outside => none
  | .setQueued ticket =>
    some (.put (.lock ticket),
      { shared with
        books := shared.books.setStatus ticket.work .queued })
  | .put point =>
    (putStep (.client client) shared point).map fun result =>
      (.afterPut result.1, result.2)

/-! ## Who holds what -/

/-- The ticket that a thread in `put_backlog` has not enqueued yet. -/
def PutPoint.held : PutPoint workers Work → Option (Ticket Work × Phase)
  | .lock ticket | .enqueue ticket => some (ticket, .putting)
  | .increment | .unlock | .scan _ | .signal _ => none

def WorkerPoint.held : WorkerPoint workers Work → Option (Ticket Work × Phase)
  | .start | .readEvent | .setRunning | .getLock | .getDequeue
  | .getUnlock none | .setIdle => none
  | .getDecrement ticket | .getUnlock (some ticket)
  | .testCancel ticket => some (ticket, .taken)
  | .cancelStatus ticket => some (ticket, .cancelling)
  | .cancelCall ticket => some (ticket, .cancelNotifying)
  | .setInProgress ticket => some (ticket, .proceeding)
  | .callWork ticket => some (ticket, .ready)
  | .working ticket => some (ticket, .running)
  | .testAgain ticket rc => some (ticket, .returned rc)
  | .completeStatus ticket => some (ticket, .finishing)
  | .completeCall ticket => some (ticket, .notifying)
  | .put point => point.held

def ClientPoint.held : ClientPoint workers Work → Option (Ticket Work × Phase)
  | .outside => none
  | .setQueued ticket => some (ticket, .queueing)
  | .put point => point.held

/-- Read something off the program point of every thread. -/
def State.each {View : Type} (state : State workers clients Work)
    (ofWorker : WorkerPoint workers Work → View) (ofClient : ClientPoint workers Work → View) :
    Thread workers clients → View
  | .worker worker => ofWorker (state.workerPoint worker)
  | .client client => ofClient (state.clientPoint client)

def State.held (state : State workers clients Work) :
    Thread workers clients → Option (Ticket Work × Phase) :=
  state.each WorkerPoint.held ClientPoint.held

/-- The held ticket keeps the item queued or running. -/
def occupies (held : Option (Ticket Work × Phase)) (work : Work) : Bool :=
  held.any fun pair =>
    decide (pair.1.work = work) && decide (pair.2 ≠ .notifying)

def State.InUse (state : State workers clients Work) (work : Work) : Prop :=
  (∃ ticket ∈ state.shared.backlog, ticket.work = work) ∨
    (∃ worker, occupies (state.held (.worker worker)) work = true) ∨
      ∃ client, occupies (state.held (.client client)) work = true

instance (state : State workers clients Work) (work : Work) : Decidable (state.InUse work) :=
  inferInstanceAs (Decidable (_ ∨ _ ∨ _))

/-! ## The transition system -/

def State.setWorker (state : State workers clients Work)
    (worker : Fin workers) (point : WorkerPoint workers Work)
    (shared : Shared workers clients Work) : State workers clients Work :=
  { state with
    shared := shared
    workerPoint := update state.workerPoint worker point }

def State.setClient (state : State workers clients Work)
    (client : Fin clients) (point : ClientPoint workers Work)
    (shared : Shared workers clients Work) : State workers clients Work :=
  { state with
    shared := shared
    clientPoint := update state.clientPoint client point }

section Each

variable {View : Type} {state : State workers clients Work}
  {ofWorker : WorkerPoint workers Work → View} {ofClient : ClientPoint workers Work → View}
  {shared : Shared workers clients Work}

omit [DecidableEq Work] in
theorem State.each_setWorker {worker : Fin workers} {point : WorkerPoint workers Work} :
    (state.setWorker worker point shared).each ofWorker ofClient =
      update (state.each ofWorker ofClient) (.worker worker) (ofWorker point) := by
  funext thread
  by_cases same : thread = .worker worker
  · subst thread
    simp only [State.each, State.setWorker, update_self]
  · rw [update_of_ne same]
    cases thread with
    | worker index =>
      have apart : index ≠ worker := fun equal => same (equal ▸ rfl)
      simp only [State.each, State.setWorker, update_of_ne apart]
    | client index => rfl

omit [DecidableEq Work] in
theorem State.each_setClient {client : Fin clients} {point : ClientPoint workers Work} :
    (state.setClient client point shared).each ofWorker ofClient =
      update (state.each ofWorker ofClient) (.client client) (ofClient point) := by
  funext thread
  by_cases same : thread = .client client
  · subst thread
    simp only [State.each, State.setClient, update_self]
  · rw [update_of_ne same]
    cases thread with
    | worker index => rfl
    | client index =>
      have apart : index ≠ client := fun equal => same (equal ▸ rfl)
      simp only [State.each, State.setClient, update_of_ne apart]

end Each

/-- `workqueue_add_work` up to its first store; it is called only on items
that are not queued or running, and returns at once when there is no
`work_fn`. -/
def addWork (items : Items Work) (state : State workers clients Work)
    (client : Fin clients) (work : Work) : Option (State workers clients Work) :=
  if state.clientPoint client = .outside then
    if items.hasWorkFn work = true then
      if state.InUse work then
        none
      else
        some (state.setClient client (.setQueued (state.shared.books.nextTicket work))
          { state.shared with
            books := state.shared.books.beginAdd work })
    else
      some state
  else
    none

/-- `workqueue_cancel_work` -/
def cancelWork (state : State workers clients Work) (work : Work) : State workers clients Work :=
  { state with
    shared :=
      { state.shared with
        books :=
          state.shared.books.cancel (fun ticket => decide (ticket ∈ state.shared.backlog)) work } }

def next (items : Items Work) (state : State workers clients Work) :
    Label workers clients Work → Option (State workers clients Work)
  | .add client work => addWork items state client work
  | .cancel work => some (cancelWork state work)
  | .step (.worker worker) =>
    (workerStep items worker state.shared (state.workerPoint worker)).map fun result =>
      state.setWorker worker result.1 result.2
  | .step (.client client) =>
    (clientStep client state.shared (state.clientPoint client)).map fun result =>
      state.setClient client result.1 result.2
  | .ret worker rc =>
    match state.workerPoint worker with
    | .working ticket =>
      some (state.setWorker worker (.testAgain ticket rc)
        { state.shared with
          books := state.shared.books.record ticket (.ret rc) })
    | _ => none

/-- The queue as `workqueue_create` leaves it. -/
def workqueue (workers clients : Nat) (items : Items Work) :
    Machine (State workers clients Work) (Label workers clients Work) where
  start :=
    { shared :=
        { backlog := []
          backlogCount := 0
          backlogLock := none
          workerState := fun _ => .offline
          event := fun _ => 0
          books :=
            { status := fun _ => .new
              cancelRequested := fun _ => false
              adds := fun _ => 0
              history := fun _ => [] } }
      workerPoint := fun _ => .start
      clientPoint := fun _ => .outside }
  next := next items

/-- Items with a `work_fn` and a `complete_fn`. -/
def plainItems : Items Nat where
  hasWorkFn := fun _ => true
  hasCompleteFn := fun _ => true

theorem neZeroOne : NeZero 1 := ⟨Nat.one_ne_zero⟩

end Skyc.Utils.Workqueue
