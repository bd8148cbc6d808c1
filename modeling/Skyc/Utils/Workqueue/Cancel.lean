import Skyc.Utils.Workqueue.Refinement

/-!
# Cancel requests

A worker that finds a cancel request on the ticket it has taken completes
the ticket, and then goes on to run it all the same.
-/

namespace Skyc.Utils.Workqueue

open Skyc.Lib Function List Nat Option Books State

/-- The history from the first cancel request on. -/
def afterCancel (history : List Event) : List Event :=
  history.dropWhile fun event => decide (event ≠ .cancelled)

variable {history : List Event}

theorem afterCancel_of_notMem (notMem : Event.cancelled ∉ history) : afterCancel history = [] := by
  unfold afterCancel
  rw [dropWhile_eq_nil_iff]
  intro event member
  apply decide_eq_true
  intro same
  subst event
  exact notMem member

theorem afterCancel_append_of_mem (member : Event.cancelled ∈ history) (later : List Event) :
    afterCancel (history ++ later) = afterCancel history ++ later := by
  unfold afterCancel
  rw [List.dropWhile_append, if_neg]
  intro empty
  rw [List.isEmpty_iff, List.dropWhile_eq_nil_iff] at empty
  exact of_decide_eq_true (empty _ member) rfl

/-- Events other than calls do not count as calls after the request. -/
theorem call_notMem_afterCancel_append {later : List Event}
    (notCalled : Event.call ∉ afterCancel history) (noCall : Event.call ∉ later) :
    Event.call ∉ afterCancel (history ++ later) := by
  by_cases member : Event.cancelled ∈ history
  · rw [afterCancel_append_of_mem member, mem_append]
    intro either
    rcases either with before | after
    · exact notCalled before
    · exact noCall after
  · unfold afterCancel
    rw [dropWhile_append]
    split
    · intro called
      exact noCall (dropWhile_sublist _ |>.mem called)
    · rename_i remaining
      have nothing := afterCancel_of_notMem member
      rw [afterCancel] at nothing
      rw [nothing] at remaining
      exact absurd rfl remaining

variable {event : Event}

theorem call_mem_afterCancel_append
    (called : Event.cancelled ∈ history → Event.call ∈ afterCancel history)
    (notCancelled : event ≠ .cancelled) (member : Event.cancelled ∈ history ++ [event]) :
    Event.call ∈ afterCancel (history ++ [event]) := by
  have before : Event.cancelled ∈ history := by
    rcases mem_append.mp member with earlier | last
    · exact earlier
    · exact absurd (mem_singleton.mp last).symm notCancelled
  rw [afterCancel_append_of_mem before]
  exact mem_append_left _ (called before)

/-! ## What the phases know about cancel requests -/

def Clean (history : List Event) : Prop :=
  Event.complete ∉ history ∧ Event.completeFn ∉ history

/-- The history, the request and the status of a ticket in the given
phase. -/
def Phase.Marked (hasCompleteFn : Bool) (history : List Event)
    (requested : Bool) (status : WorkStatus) : Phase → Prop
  | .queueing => history = []
  | .putting => Clean history ∧ Event.cancelled ∉ history
  | .waiting | .taken =>
    Clean history ∧ Event.call ∉ afterCancel history ∧
      (Event.cancelled ∈ history → requested = true)
  | .cancelling => Clean history ∧ Event.call ∉ afterCancel history ∧ requested = true
  | .cancelNotifying =>
    requested = true ∧ Event.complete ∈ history ∧ Event.completeFn ∉ history ∧
      Event.call ∉ afterCancel history ∧ status = .complete
  | .proceeding =>
    (Clean history ∧ Event.cancelled ∉ history) ∨ (requested = true ∧ Event.complete ∈ history ∧
      history.count .completeFn = (if hasCompleteFn then 1 else 0) ∧
      Event.call ∉ afterCancel history ∧ status = .complete)
  | .ready =>
    (Clean history ∧ Event.cancelled ∉ history) ∨ (requested = true ∧ Event.complete ∈ history ∧
      status = .inProgress)
  | .running | .returned _ =>
    (Clean history ∧ Event.cancelled ∉ history) ∨ (requested = true ∧
      (Event.cancelled ∈ history → Event.call ∈ afterCancel history))
  | .finishing | .notifying => Event.cancelled ∈ history → Event.call ∈ afterCancel history

theorem Clean.append (clean : Clean history)
    (notComplete : event ≠ .complete) (notCompleteFn : event ≠ .completeFn) :
    Clean (history ++ [event]) := by
  constructor
  · simp [clean.1, notComplete.symm]
  · simp [clean.2, notCompleteFn.symm]

variable {now : Phase} {requested : Bool} {status : WorkStatus}

theorem Phase.Marked.request {hasCompleteFn : Bool}
        (marked : now.Marked hasCompleteFn history requested status) :
    now.Marked hasCompleteFn history true status := by
  cases now with
  | queueing | putting | finishing | notifying => exact marked
  | waiting | taken => exact ⟨marked.1, marked.2.1, fun _ => rfl⟩
  | cancelling => exact ⟨marked.1, marked.2.1, rfl⟩
  | cancelNotifying => exact ⟨rfl, marked.2⟩
  | proceeding | ready | running | returned =>
    rcases marked with untouched | ⟨_, known⟩
    · exact .inl untouched
    · exact .inr ⟨rfl, known⟩

theorem Phase.Marked.cancelWaiting {hasCompleteFn : Bool}
        (marked : Phase.waiting.Marked hasCompleteFn history requested status) :
    Phase.waiting.Marked hasCompleteFn (history ++ [.cancelled]) true status := by
  rcases marked with ⟨clean, notCalled, _⟩
  refine ⟨clean.append nofun nofun, ?_, fun _ => rfl⟩
  exact call_notMem_afterCancel_append notCalled (by simp)

variable {workers clients : Nat} {Work : Type} [DecidableEq Work]
  {items : Items Work} {hasCompleteFn : Work → Bool}
  {phase : Ticket Work → Option Phase} {books booksAfter : Books Work}
  {ticket : Ticket Work} {work : Work} {state after : State workers clients Work}

variable {source : Phase} {target : Option Phase}

theorem Phase.Marked.move (marked :
      source.Marked (hasCompleteFn ticket.work) (books.history ticket)
        (books.cancelRequested ticket.work) (books.status ticket.work))
    (moves : Moves hasCompleteFn books ticket source target booksAfter) :
    target.elim (Event.cancelled ∈ booksAfter.history ticket →
        Event.call ∈ afterCancel (booksAfter.history ticket))
      (Phase.Marked (hasCompleteFn ticket.work) (booksAfter.history ticket)
        (booksAfter.cancelRequested ticket.work) (booksAfter.status ticket.work)) := by
  cases moves with
  | setQueued =>
    have empty : books.history ticket = [] := marked
    simp [Phase.Marked, Clean, setStatus, empty]
  | enqueue =>
    rcases marked with ⟨clean, notCancelled⟩
    refine ⟨clean, ?_, fun member => absurd member notCancelled⟩
    rw [afterCancel_of_notMem notCancelled]
    exact not_mem_nil
  | dequeue => exact marked
  | proceed notRequested =>
    rcases marked with ⟨clean, _, requested⟩
    left
    refine ⟨clean, ?_⟩
    intro member
    rw [requested member] at notRequested
    cases notRequested
  | cancel requested => exact ⟨marked.1, marked.2.1, requested⟩
  | cancelComplete =>
    rcases marked with ⟨clean, notCalled, requested⟩
    simp only [complete, record, setStatus, update_self]
    refine ⟨requested, by simp, by simp [clean.2], ?_, rfl⟩
    exact call_notMem_afterCancel_append notCalled (by simp)
  | cancelNotify =>
    rcases marked with ⟨requested, complete, notNotified, notCalled, status⟩
    right
    rw [callCompleteFn_history, callCompleteFn_frame.1, callCompleteFn_frame.2.2]
    refine ⟨requested, mem_append_left _ complete, ?_, ?_, status⟩
    · rw [count_append, count_eq_zero_of_not_mem notNotified]
      split
      · rfl
      · rfl
    · apply call_notMem_afterCancel_append notCalled
      split
      · simp
      · simp
  | setInProgress =>
    rcases marked with untouched | ⟨requested, complete, _⟩
    · exact .inl untouched
    · right
      exact ⟨requested, complete, update_self ..⟩
  | call =>
    simp only [record, update_self]
    rcases marked with ⟨clean, notCancelled⟩ | ⟨requested, _, _⟩
    · left
      exact ⟨clean.append nofun nofun, by simp [notCancelled]⟩
    · right
      refine ⟨requested, ?_⟩
      intro member
      have before : Event.cancelled ∈ books.history ticket := by simpa using member
      rw [afterCancel_append_of_mem before]
      exact mem_append_right _ mem_cons_self
  | ret rc =>
    simp only [record, update_self]
    rcases marked with ⟨clean, notCancelled⟩ | ⟨requested, called⟩
    · left
      exact ⟨clean.append nofun nofun, by simp [notCancelled]⟩
    · right
      exact ⟨requested, call_mem_afterCancel_append called nofun⟩
  | finish _ =>
    rcases marked with ⟨_, notCancelled⟩ | ⟨_, called⟩
    · intro member
      exact absurd member notCancelled
    · exact called
  | again _ notRequested =>
    rcases marked with untouched | ⟨requested, _⟩
    · exact untouched
    · rw [requested] at notRequested
      cases notRequested
  | complete =>
    simp only [complete, record, setStatus, update_self]
    exact call_mem_afterCancel_append marked nofun
  | notify =>
    rw [callCompleteFn_history]
    cases hasCompleteFn ticket.work with
    | true => exact call_mem_afterCancel_append marked nofun
    | false =>
      simp only [Bool.false_eq_true, if_false, append_nil]
      exact marked

/-! ## All tickets -/

structure Flagged (hasCompleteFn : Work → Bool)
    (phase : Ticket Work → Option Phase) (books : Books Work) : Prop where
  marked : ∀ {ticket now}, phase ticket = some now →
    now.Marked (hasCompleteFn ticket.work) (books.history ticket)
      (books.cancelRequested ticket.work) (books.status ticket.work)
  gone : ∀ {ticket}, phase ticket = none → Event.cancelled ∈ books.history ticket →
    Event.call ∈ afterCancel (books.history ticket)

section

variable (flagged : Flagged hasCompleteFn phase books)
include flagged

theorem Flagged.move (sound : Sound phase books) (placed : phase ticket = some source)
    (moves : Moves hasCompleteFn books ticket source target booksAfter) :
    Flagged hasCompleteFn (update phase ticket target) booksAfter := by
  have moved := (flagged.marked placed).move moves
  constructor
  · intro found now known
    rcases update_cases known with ⟨rfl, rfl⟩ | ⟨same, known⟩
    · exact moved
    · have marked := flagged.marked known
      rw [moves.history_of_ne same, moves.cancelRequested_eq]
      by_cases sameWork : found.work = ticket.work
      · by_cases foundDone : now = .notifying
        · subst now
          exact marked
        · have sourceDone : source = .notifying := by
            by_contra unfinished
            exact same (sound.eq_of_work_eq placed known unfinished foundDone sameWork)
          subst source
          rw [moves.status_of_notifying.2]
          exact marked
      · rw [moves.status_of_ne sameWork]
        exact marked
  · intro found known
    rcases update_cases known with ⟨rfl, rfl⟩ | ⟨same, known⟩
    · exact moved
    · rw [moves.history_of_ne same]
      exact flagged.gone known

theorem Flagged.beginAdd (sound : Sound phase books) (free : Free phase work) :
    Flagged hasCompleteFn (update phase (books.nextTicket work) (some .queueing))
      (books.beginAdd work) := by
  have blank : books.history (books.nextTicket work) = [] := sound.blank (lt_succ_self _)
  constructor
  · intro found now known
    rcases update_cases known with ⟨rfl, first⟩ | ⟨_, known⟩
    · cases first
      exact blank
    · have marked := flagged.marked known
      by_cases sameWork : found.work = work
      · rw [free found now known sameWork] at marked ⊢
        exact marked
      · simp only [Books.beginAdd, update_of_ne sameWork]
        exact marked
  · intro found known
    rcases update_cases known with ⟨_, impossible⟩ | ⟨_, known⟩
    · cases impossible
    · exact flagged.gone known

theorem Flagged.cancel {waiting : Ticket Work → Bool} (shown : ShowsWaiting phase waiting) :
    Flagged hasCompleteFn phase (books.cancel waiting work) := by
  constructor
  · intro found now known
    have marked := flagged.marked known
    by_cases sameWork : found.work = work
    · have requested : (books.cancel waiting work).cancelRequested found.work = true := by
        rw [sameWork]
        exact update_self ..
      rw [requested]
      by_cases isWaiting : now = .waiting
      · subst now
        have noted : (books.cancel waiting work).history found =
          books.history found ++ [.cancelled] := if_pos ⟨sameWork, (shown found).mpr known⟩
        rw [noted]
        exact marked.cancelWaiting
      · rw [Books.cancel_history_of_not_waiting shown]
        · exact marked.request
        · intro _ placed
          rw [known, some.injEq] at placed
          exact isWaiting placed
    · rw [Books.cancel_history_of_not_waiting shown (fun same => absurd same sameWork)]
      simp only [Books.cancel, update_of_ne sameWork]
      exact marked
  · intro found known
    rw [Books.cancel_history_of_not_waiting shown]
    · exact flagged.gone known
    · intro _ placed
      rw [known] at placed
      cases placed

end

variable {label : Label workers clients Work} {phaseAfter : Ticket Work → Option Phase}

theorem Flagged.change (flagged : Flagged items.hasCompleteFn phase state.shared.books)
    (sound : Sound phase state.shared.books)
    (change : Change items state label phase phaseAfter booksAfter) :
    Flagged items.hasCompleteFn phaseAfter booksAfter := by
  cases change with
  | quiet => exact flagged
  | moved placed _ moves => exact flagged.move sound placed moves
  | opened _ free => exact flagged.beginAdd sound free
  | cancelled _ shown => exact flagged.cancel shown

/-! ## Honoured requests -/

/-- What a cancel request of a waiting item is to achieve. -/
structure CancelHonoured (items : Items Work)
    (state : State workers clients Work) (ticket : Ticket Work) : Prop where
  /-- `work_fn` is not called any more. -/
  notCalled : Event.call ∉ afterCancel (state.shared.books.history ticket)
  /-- `complete_fn` is called at most once, -/
  notTwice : (state.shared.books.history ticket).count .completeFn ≤ 1
  /-- and has been called when the worker is through with
  `complete_work`. -/
  notified : Event.complete ∈ state.shared.books.history ticket →
    (∀ worker, state.workerPoint worker ≠ .cancelCall ticket ∧
      state.workerPoint worker ≠ .completeCall ticket) →
    items.hasCompleteFn ticket.work = true →
      (state.shared.books.history ticket).count .completeFn = 1
  /-- The status stays `WQ_WORK_COMPLETE` until the next add. -/
  staysComplete : Event.complete ∈ state.shared.books.history ticket →
    ticket.serial = state.shared.books.adds ticket.work →
      state.shared.books.status ticket.work = .complete

def Honoured (items : Items Work) (state : State workers clients Work) : Prop :=
  ∀ ticket, Event.cancelled ∈ state.shared.books.history ticket → CancelHonoured items state ticket

/-- No worker goes on to `status = WQ_WORK_IN_PROGRESS` with a ticket that
was cancelled while it waited. -/
def StopsAfterCancel (state : State workers clients Work) : Label workers clients Work → Prop
  | .step (.worker worker) =>
    match state.workerPoint worker with
    | .setInProgress ticket => Event.cancelled ∉ state.shared.books.history ticket
    | _ => True
  | .step (.client _) | .add _ _ | .cancel _ | .ret _ _ => True

def Phase.spared : Phase → Bool
  | .waiting | .taken | .cancelling | .cancelNotifying | .proceeding => true
  | .queueing | .putting | .ready | .running | .returned _ | .finishing
  | .notifying => false

def NotPassed (phase : Ticket Work → Option Phase) (books : Books Work) : Prop :=
  ∀ ticket, Event.cancelled ∈ books.history ticket →
    ∃ now, phase ticket = some now ∧ now.spared = true

omit [DecidableEq Work] in
theorem stopsAfterCancel_iff :
    StopsAfterCancel state label ↔ ∀ ticket, Proceeds state label ticket →
      Event.cancelled ∉ state.shared.books.history ticket := by
  constructor
  · intro stops ticket proceeds
    rcases proceeds with ⟨worker, rfl, point⟩
    simp only [StopsAfterCancel, point] at stops
    exact stops
  · intro all
    unfold StopsAfterCancel
    split
    · rename_i worker
      split
      · rename_i ticket point
        exact all ticket ⟨worker, rfl, point⟩
      · trivial
    all_goals trivial

omit [DecidableEq Work] in
theorem exists_cancelCall (tracks : Tracks state phase)
    (placed : phase ticket = some .cancelNotifying) :
    ∃ worker, state.workerPoint worker = .cancelCall ticket := by
  rcases tracks.custody.exists_holder placed nofun with ⟨thread, holds⟩
  cases thread with
  | client client =>
    simp only [held, each] at holds
    cases point : state.clientPoint client with
    | outside | setQueued =>
      rw [point] at holds
      cases holds
    | put inner =>
      rw [point] at holds
      cases inner with
      | _ => cases holds
  | worker worker =>
    refine ⟨worker, ?_⟩
    simp only [held, each] at holds
    cases point : state.workerPoint worker with
    | cancelCall found =>
      rw [point] at holds
      cases holds
      rfl
    | getUnlock found =>
      rw [point] at holds
      cases found with
      | _ => cases holds
    | put inner =>
      rw [point] at holds
      cases inner with
      | _ => cases holds
    | _ =>
      rw [point] at holds
      cases holds

omit [DecidableEq Work] in
theorem CancelHonoured.of_spared (tracks : Tracks state phase)
    (flagged : Flagged items.hasCompleteFn phase state.shared.books)
    (member : Event.cancelled ∈ state.shared.books.history ticket)
    (placed : phase ticket = some now) (spared : now.spared = true) :
    CancelHonoured items state ticket := by
  have marked := flagged.marked placed
  cases now with
  | waiting | taken | cancelling =>
    rcases marked with ⟨clean, notCalled, _⟩
    constructor
    · exact notCalled
    · rw [count_eq_zero_of_not_mem clean.2]
      exact zero_le 1
    · intro complete
      exact absurd complete clean.1
    · intro complete
      exact absurd complete clean.1
  | cancelNotifying =>
    rcases marked with ⟨_, _, notNotified, notCalled, status⟩
    constructor
    · exact notCalled
    · rw [count_eq_zero_of_not_mem notNotified]
      exact zero_le 1
    · intro _ through
      rcases exists_cancelCall tracks placed with ⟨worker, point⟩
      exact absurd point (through worker).1
    · intro _ _
      exact status
  | proceeding =>
    rcases marked with ⟨_, notCancelled⟩ | ⟨_, _, notified, notCalled, status⟩
    · exact absurd member notCancelled
    · constructor
      · exact notCalled
      · rw [notified]
        split
        · exact le_refl 1
        · exact zero_le 1
      · intro _ _ called
        rw [notified, if_pos called]
      · intro _ _
        exact status
  | _ => cases spared

omit [DecidableEq Work] in
theorem honoured_iff_notPassed (tracks : Tracks state phase)
    (flagged : Flagged items.hasCompleteFn phase state.shared.books) :
    Honoured items state ↔ NotPassed phase state.shared.books := by
  constructor
  · intro honoured ticket member
    have kept := honoured ticket member
    cases placed : phase ticket with
    | none => exact absurd (flagged.gone placed member) kept.notCalled
    | some now =>
      refine ⟨now, rfl, ?_⟩
      have marked := flagged.marked placed
      cases now with
      | queueing =>
        have empty : state.shared.books.history ticket = [] := marked
        rw [empty] at member
        cases member
      | putting => exact absurd member marked.2
      | ready =>
        rcases marked with ⟨_, notCancelled⟩ | ⟨_, complete, status⟩
        · exact absurd member notCancelled
        · have stays := kept.staysComplete complete (tracks.sound.latest placed nofun)
          rw [status] at stays
          cases stays
      | running | returned =>
        rcases marked with ⟨_, notCancelled⟩ | ⟨_, called⟩
        · exact absurd member notCancelled
        · exact absurd (called member) kept.notCalled
      | finishing | notifying => exact absurd (marked member) kept.notCalled
      | _ => rfl
  · intro notPassed ticket member
    rcases notPassed ticket member with ⟨now, placed, spared⟩
    exact CancelHonoured.of_spared tracks flagged member placed spared

/-! ## The step that passes over a request -/

theorem Moves.cancelled_mem (moves : Moves hasCompleteFn books ticket source target booksAfter)
    (member : Event.cancelled ∈ booksAfter.history ticket) :
    Event.cancelled ∈ books.history ticket := by
  cases moves with
  | cancelNotify | notify =>
    rw [Books.callCompleteFn_history] at member
    cases hasCompleteFn ticket.work with
    | true | false => simpa using member
  | cancelComplete | complete => simpa [Books.complete, Books.record, Books.setStatus] using member
  | call | ret => simpa [Books.record] using member
  | _ => exact member

theorem NotPassed.move (notPassed : NotPassed phase books)
    (placed : phase ticket = some source) (stops :
      source = .proceeding → Event.cancelled ∉ books.history ticket)
    (moves : Moves hasCompleteFn books ticket source target booksAfter) :
    NotPassed (update phase ticket target) booksAfter := by
  intro found member
  by_cases same : found = ticket
  · subst found
    rw [update_self]
    have before := moves.cancelled_mem member
    rcases notPassed ticket before with ⟨now, known, spared⟩
    rw [placed] at known
    cases known
    cases moves with
    | dequeue | proceed | cancel | cancelComplete | cancelNotify => exact ⟨_, rfl, rfl⟩
    | setInProgress => exact absurd before (stops rfl)
    | _ => cases spared
  · rw [moves.history_of_ne same] at member
    rw [update_of_ne same]
    exact notPassed found member

theorem NotPassed.change (notPassed : NotPassed phase state.shared.books)
    (sound : Sound phase state.shared.books) (stops : StopsAfterCancel state label)
    (change : Change items state label phase phaseAfter booksAfter) :
    NotPassed phaseAfter booksAfter := by
  cases change with
  | quiet => exact notPassed
  | moved placed proceeds moves =>
    apply notPassed.move placed _ moves
    intro isProceeding
    exact stopsAfterCancel_iff.mp stops _ (proceeds isProceeding)
  | @opened client work _ _ =>
    intro found member
    have apart : found ≠ state.shared.books.nextTicket work := by
      intro same
      subst found
      have blank : state.shared.books.history (state.shared.books.nextTicket work) = [] :=
        sound.blank (lt_succ_self _)
      simp only [beginAdd, blank] at member
      cases member
    rw [update_of_ne apart]
    exact notPassed found member
  | @cancelled work waiting _ shown =>
    intro found member
    by_cases isWaiting : phase found = some .waiting
    · exact ⟨.waiting, isWaiting, rfl⟩
    · rw [cancel_history_of_not_waiting shown (fun _ => isWaiting)] at member
      exact notPassed found member

theorem stops_of_notPassed (tracksAfter : Tracks after phaseAfter)
    (notPassed : NotPassed phaseAfter after.shared.books)
    (moved : next items state label = some after) : StopsAfterCancel state label := by
  apply stopsAfterCancel_iff.mpr
  intro ticket proceeds member
  rcases proceeds with ⟨worker, rfl, point⟩
  simp only [next, point, workerStep] at moved
  cases moved
  have holds : (state.setWorker worker (.callWork ticket)
      { state.shared with
        books := state.shared.books.setStatus ticket.work .inProgress }).held
        (.worker worker) = some (ticket, .ready) := by
    simp only [held, each_setWorker, update_self, WorkerPoint.held]
  have placed := (tracksAfter.custody.stage_of_held holds).1
  rcases notPassed ticket member with ⟨now, known, spared⟩
  rw [placed] at known
  cases known
  cases spared

/-! ## The theorem -/

/-- A run honours every cancel request of a waiting item exactly if no
worker goes on with a ticket that was cancelled while it waited. -/
theorem honoured_iff_stopsAfterCancel
    (items : Items Work) (labels : List (Label workers clients Work))
    (final : State workers clients Work) (executed :
      (workqueue workers clients items).run
        (workqueue workers clients items).start labels = some final) :
    (workqueue workers clients items).AllStates (Honoured items)
        (workqueue workers clients items).start labels ↔
      (workqueue workers clients items).AllSteps StopsAfterCancel
        (workqueue workers clients items).start labels := by
  have initially : ∃ phase, Tracks (workqueue workers clients items).start phase ∧
      Flagged items.hasCompleteFn phase (workqueue workers clients items).start.shared.books :=
    ⟨fun _ => none, tracks_start workers clients items, ⟨nofun, nofun⟩⟩
  apply Machine.allStates_iff_allSteps (fun state =>
      ∃ phase, Tracks state phase ∧ Flagged items.hasCompleteFn phase state.shared.books)
    _ _ initially _ executed
  · intro source label target known moved
    rcases known with ⟨phase, tracks, flagged⟩
    rcases change_next tracks moved with ⟨phaseAfter, tracksAfter, change⟩
    exact ⟨phaseAfter, tracksAfter, flagged.change tracks.sound change⟩
  · intro source label target known honoured moved
    rcases known with ⟨phase, tracks, flagged⟩
    rcases change_next tracks moved with ⟨phaseAfter, tracksAfter, change⟩
    have flaggedAfter := flagged.change tracks.sound change
    have notPassed := (honoured_iff_notPassed tracks flagged).mp honoured
    rw [honoured_iff_notPassed tracksAfter flaggedAfter]
    constructor
    · intro notPassedAfter
      exact stops_of_notPassed tracksAfter notPassedAfter moved
    · intro stops
      exact notPassed.change tracks.sound stops change
  · exact nofun

instance (state : State workers clients Work) (label : Label workers clients Work) :
    Decidable (StopsAfterCancel state label) :=
  match label with
  | .step (.worker worker) =>
    match point : state.workerPoint worker with
    | .setInProgress ticket =>
      decidable_of_iff (Event.cancelled ∉ state.shared.books.history ticket)
        (by simp only [StopsAfterCancel, point])
    | .start | .readEvent | .setRunning | .getLock | .getDequeue
    | .getDecrement _ | .getUnlock _ | .testCancel _ | .cancelStatus _
    | .cancelCall _ | .callWork _ | .working _ | .testAgain _ _
    | .completeStatus _ | .completeCall _ | .put _ | .setIdle =>
      isTrue (by simp only [StopsAfterCancel, point])
  | .step (.client _) | .add _ _ | .cancel _ | .ret _ _ => isTrue trivial

/-- Item 0 is added and cancelled while it waits, and the worker completes
it. -/
def cancelWaiting : List (Label 1 1 Nat) :=
  [Label.step (.worker 0), Label.add 0 0] ++ replicate 7 (Label.step (.client 0)) ++
    [Label.cancel 0] ++ replicate 9 (Label.step (.worker 0))

theorem honoured_cancelWaiting :
    (workqueue 1 1 plainItems).AllStates (Honoured plainItems)
      (workqueue 1 1 plainItems).start cancelWaiting := by
  have executed : ((workqueue 1 1 plainItems).run
      (workqueue 1 1 plainItems).start cancelWaiting).isSome = true := by
    decide
  rcases isSome_iff_exists.mp executed with ⟨final, ran⟩
  exact (honoured_iff_stopsAfterCancel plainItems cancelWaiting final ran).mpr (by decide)

/-- The worker goes on: it calls `work_fn` and completes the item again. -/
def runCancelled : List (Label 1 1 Nat) :=
  cancelWaiting ++ replicate 2 (.step (.worker 0)) ++ [.ret 0 0] ++ replicate 3 (.step (.worker 0))

theorem not_honoured_runCancelled :
    ¬ ∀ state : State 1 1 Nat, (workqueue 1 1 plainItems).Reachable state →
      Honoured plainItems state := by
  intro always
  rcases Machine.exists_reachable_of_run (workqueue 1 1 plainItems) runCancelled (fun state =>
          decide (state.shared.books.history ⟨0, 1⟩ =
            [.cancelled, .complete, .completeFn, .call, .ret 0, .complete, .completeFn]))
        (by decide) with
    ⟨state, reached, tested⟩
  have history := of_decide_eq_true tested
  have honoured := always state reached ⟨0, 1⟩ (by rw [history]; decide)
  have notCalled := honoured.notCalled
  rw [history] at notCalled
  exact notCalled (by decide)

end Skyc.Utils.Workqueue
