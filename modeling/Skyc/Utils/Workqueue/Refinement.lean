import Skyc.Utils.Workqueue.Model

/-!
# The threads move tickets

Every step of a thread leaves all tickets where they are or moves one of
them along the phases of `Moves`.  The phase of a ticket is read off the
backlog and the program points; `Custody` keeps the two views together.
-/

namespace Skyc.Utils.Workqueue

open Skyc.Lib Function Option Moves WorkerPoint

variable {workers clients : Nat} {Work : Type} [DecidableEq Work]
  {items : Items Work} {phase : Ticket Work → Option Phase}
  {state after : State workers clients Work} {shared sharedAfter : Shared workers clients Work}

/-! ## One step of a thread -/

/-- What a step does to the ticket in the hand of the stepping thread. -/
inductive Handling (hasCompleteFn : Work → Bool)
    (shared sharedAfter : Shared workers clients Work) :
    Option (Ticket Work × Phase) → Option (Ticket Work × Phase) → Prop
  | keep {held : Option (Ticket Work × Phase)} : sharedAfter.backlog = shared.backlog →
    sharedAfter.books = shared.books →
    Handling hasCompleteFn shared sharedAfter held held
  | advance {ticket : Ticket Work} {source target : Phase} : sharedAfter.backlog = shared.backlog →
    Moves hasCompleteFn shared.books ticket source (some target) sharedAfter.books →
    target ≠ .waiting →
    Handling hasCompleteFn shared sharedAfter (some (ticket, source)) (some (ticket, target))
  | release {ticket : Ticket Work} {source : Phase} : sharedAfter.backlog = shared.backlog →
    Moves hasCompleteFn shared.books ticket source none sharedAfter.books →
    Handling hasCompleteFn shared sharedAfter (some (ticket, source)) none
  | give {ticket : Ticket Work} : sharedAfter.backlog = shared.backlog ++ [ticket] →
    sharedAfter.books = shared.books →
    Handling hasCompleteFn shared sharedAfter (some (ticket, .putting)) none
  | take {ticket : Ticket Work} : shared.backlog = ticket :: sharedAfter.backlog →
    sharedAfter.books = shared.books →
    Handling hasCompleteFn shared sharedAfter none (some (ticket, .taken))

variable {thread : Thread workers clients}

theorem handling_putStep (hasCompleteFn : Work → Bool)
    {point : PutPoint workers Work} {next : Option (PutPoint workers Work)}
    (stepped : putStep thread shared point = some (next, sharedAfter)) :
    Handling hasCompleteFn shared sharedAfter point.held (next.elim none PutPoint.held) := by
  cases point with
  | enqueue ticket =>
    cases stepped
    exact Handling.give rfl rfl
  | _ =>
    simp only [putStep] at stepped
    repeat' split at stepped
    all_goals cases stepped
    all_goals exact Handling.keep rfl rfl

omit [DecidableEq Work] in
theorem WorkerPoint.held_afterPut (next : Option (PutPoint workers Work)) :
    (WorkerPoint.afterPut next).held = next.elim none PutPoint.held := by
  cases next with
  | none | some => rfl

omit [DecidableEq Work] in
theorem ClientPoint.held_afterPut (next : Option (PutPoint workers Work)) :
    (ClientPoint.afterPut next).held = next.elim none PutPoint.held := by
  cases next with
  | none | some => rfl

theorem handling_workerStep {worker : Fin workers} {point next : WorkerPoint workers Work}
    (stepped :
      workerStep items worker shared point = some (next, sharedAfter)) :
    Handling items.hasCompleteFn shared sharedAfter point.held next.held := by
  cases point with
  | start | setRunning | setIdle | getDecrement =>
    cases stepped
    exact Handling.keep rfl rfl
  | readEvent =>
    simp only [workerStep] at stepped
    split at stepped
    · cases stepped
    · cases stepped
      split
      · exact Handling.keep rfl rfl
      · exact Handling.keep rfl rfl
  | getLock =>
    simp only [workerStep] at stepped
    split at stepped
    · cases stepped
      exact Handling.keep rfl rfl
    · cases stepped
  | getDequeue =>
    simp only [workerStep] at stepped
    split at stepped
    · cases stepped
      exact Handling.keep rfl rfl
    · rename_i ticket rest content
      cases stepped
      exact Handling.take content rfl
  | getUnlock found =>
    cases found with
    | none | some =>
      cases stepped
      exact Handling.keep rfl rfl
  | testCancel ticket =>
    simp only [workerStep] at stepped
    split at stepped
    · rename_i requested
      cases stepped
      exact Handling.advance rfl (cancel requested) nofun
    · rename_i notRequested
      cases stepped
      exact Handling.advance rfl (proceed (Bool.eq_false_of_not_eq_true notRequested)) nofun
  | cancelStatus ticket =>
    cases stepped
    exact Handling.advance rfl cancelComplete nofun
  | cancelCall ticket =>
    cases stepped
    exact Handling.advance rfl cancelNotify nofun
  | setInProgress ticket =>
    cases stepped
    exact Handling.advance rfl setInProgress nofun
  | callWork ticket =>
    cases stepped
    exact Handling.advance rfl call nofun
  | working ticket => cases stepped
  | testAgain ticket rc =>
    simp only [workerStep] at stepped
    split at stepped
    · rename_i done
      cases stepped
      exact Handling.advance rfl (finish done) nofun
    · rename_i notDone
      rcases not_or.mp notDone with ⟨positive, notRequested⟩
      cases stepped
      exact Handling.advance rfl (again (Int.not_le.mp positive)
        (Bool.eq_false_of_not_eq_true notRequested)) nofun
  | completeStatus ticket =>
    cases stepped
    exact Handling.advance rfl complete nofun
  | completeCall ticket =>
    cases stepped
    exact Handling.release rfl notify
  | put point =>
    simp only [workerStep, map_eq_some_iff] at stepped
    rcases stepped with ⟨⟨following, result⟩, moved, same⟩
    cases same
    rw [held_afterPut]
    exact handling_putStep items.hasCompleteFn moved

theorem handling_clientStep (hasCompleteFn : Work → Bool) {client : Fin clients}
    {point next : ClientPoint workers Work}
    (stepped : clientStep client shared point = some (next, sharedAfter)) :
    Handling hasCompleteFn shared sharedAfter point.held next.held := by
  cases point with
  | outside => cases stepped
  | setQueued ticket =>
    cases stepped
    exact Handling.advance rfl setQueued nofun
  | put point =>
    simp only [clientStep, map_eq_some_iff] at stepped
    rcases stepped with ⟨⟨following, result⟩, moved, same⟩
    cases same
    rw [ClientPoint.held_afterPut]
    exact handling_putStep hasCompleteFn moved

/-! ## One step of the queue -/

/-- The phases of the tickets agree with the backlog and the program
points. -/
structure Tracks (state : State workers clients Work)
    (phase : Ticket Work → Option Phase) : Prop where
  custody : Custody Phase.waiting state.shared.backlog state.held phase
  sound : Sound phase state.shared.books

/-- The worker is about to store `WQ_WORK_IN_PROGRESS` for the ticket. -/
def Proceeds (state : State workers clients Work)
    (label : Label workers clients Work) (ticket : Ticket Work) : Prop :=
  ∃ worker, label = .step (.worker worker) ∧ state.workerPoint worker = .setInProgress ticket

/-- What a step of the queue does to the phases and the books. -/
inductive Change (items : Items Work) (state : State workers clients Work)
    (label : Label workers clients Work) (phase : Ticket Work → Option Phase) :
    (Ticket Work → Option Phase) → Books Work → Prop
  | quiet : Change items state label phase phase state.shared.books
  | moved {ticket : Ticket Work} {source : Phase} {target : Option Phase} {books : Books Work} :
    phase ticket = some source →
    (source = .proceeding → Proceeds state label ticket) →
    Moves items.hasCompleteFn state.shared.books ticket source target books →
    Change items state label phase (update phase ticket target) books
  | opened {client : Fin clients} {work : Work} : label = .add client work → Free phase work →
    Change items state label phase (update phase (state.shared.books.nextTicket work)
      (some .queueing)) (state.shared.books.beginAdd work)
  | cancelled {work : Work} {waiting : Ticket Work → Bool} : label = .cancel work →
    ShowsWaiting phase waiting →
    Change items state label phase phase (state.shared.books.cancel waiting work)

variable {label : Label workers clients Work}

theorem change_of_handling
    {held : Option (Ticket Work × Phase)} (tracks : Tracks state phase) (handling :
      Handling items.hasCompleteFn state.shared after.shared (state.held thread) held)
    (heldAfter : after.held = update state.held thread held) (proceeds :
      ∀ ticket, state.held thread = some (ticket, .proceeding) → Proceeds state label ticket) :
    ∃ phaseAfter, Tracks after phaseAfter ∧
      Change items state label phase phaseAfter after.shared.books := by
  have custody := tracks.custody
  have sound := tracks.sound
  generalize before : state.held thread = held at handling
  cases handling with
  | keep backlog books =>
    refine ⟨phase, ⟨?_, ?_⟩, ?_⟩
    · rw [backlog, heldAfter, ← before, update_eq_self]
      exact custody
    · rw [books]
      exact sound
    · rw [books]
      exact Change.quiet
  | advance backlog moves notWaiting =>
    have placed := (custody.stage_of_held before).1
    refine ⟨_, ⟨?_, sound.move placed moves⟩, ?_⟩
    · rw [backlog, heldAfter]
      exact custody.advance before notWaiting
    · apply Change.moved placed _ moves
      intro isProceeding
      subst isProceeding
      exact proceeds _ before
  | release backlog moves =>
    have placed := (custody.stage_of_held before).1
    refine ⟨_, ⟨?_, sound.move placed moves⟩, ?_⟩
    · rw [backlog, heldAfter]
      exact custody.release before
    · apply Change.moved placed _ moves
      intro isProceeding
      subst isProceeding
      exact proceeds _ before
  | give backlog books =>
    rename_i ticket
    have placed := (custody.stage_of_held before).1
    have moves : Moves items.hasCompleteFn state.shared.books ticket .putting
        (some .waiting) after.shared.books := by
      rw [books]
      exact enqueue
    refine ⟨_, ⟨?_, sound.move placed moves⟩, ?_⟩
    · rw [backlog, heldAfter]
      exact custody.give before
    · exact Change.moved placed nofun moves
  | take backlog books =>
    rename_i ticket
    rw [backlog] at custody
    have placed := (custody.mem_queue_iff ticket).mp List.mem_cons_self
    have moves : Moves items.hasCompleteFn state.shared.books ticket .waiting
        (some .taken) after.shared.books := by
      rw [books]
      exact dequeue
    refine ⟨_, ⟨?_, sound.move placed moves⟩, ?_⟩
    · rw [heldAfter]
      exact custody.take before nofun
    · exact Change.moved placed nofun moves

omit [DecidableEq Work] in
theorem PutPoint.held_ne_proceeding (point : PutPoint workers Work) (ticket : Ticket Work) :
    point.held ≠ some (ticket, .proceeding) := by
  cases point with
  | _ => nofun

omit [DecidableEq Work] in
theorem WorkerPoint.eq_setInProgress_of_held
    {point : WorkerPoint workers Work} {ticket : Ticket Work}
    (holds : point.held = some (ticket, .proceeding)) : point = .setInProgress ticket := by
  cases point with
  | setInProgress found =>
    cases holds
    rfl
  | getUnlock found =>
    cases found with
    | _ => cases holds
  | put point => exact absurd holds (point.held_ne_proceeding ticket)
  | _ => cases holds

omit [DecidableEq Work] in
theorem ClientPoint.held_ne_proceeding (point : ClientPoint workers Work) (ticket : Ticket Work) :
    point.held ≠ some (ticket, .proceeding) := by
  cases point with
  | outside | setQueued => nofun
  | put point => exact point.held_ne_proceeding ticket

theorem free_of_not_inUse {work : Work} (tracks : Tracks state phase)
    (notInUse : ¬ state.InUse work) : Free phase work := by
  intro ticket now placed sameWork
  by_contra unfinished
  apply notInUse
  by_cases isWaiting : now = .waiting
  · subst now
    left
    exact ⟨ticket, (tracks.custody.mem_queue_iff ticket).mpr placed, sameWork⟩
  · right
    rcases tracks.custody.exists_holder placed isWaiting with
      ⟨thread, holds⟩
    have occupied : occupies (state.held thread) work = true := by
      rw [holds]
      simp [occupies, sameWork, unfinished]
    cases thread with
    | worker index => exact Or.inl ⟨index, occupied⟩
    | client index => exact Or.inr ⟨index, occupied⟩

/-- The step simulation: a step of the queue is a change of the tickets. -/
theorem change_next (tracks : Tracks state phase) (moved : next items state label = some after) :
    ∃ phaseAfter, Tracks after phaseAfter ∧
      Change items state label phase phaseAfter after.shared.books := by
  have custody := tracks.custody
  have sound := tracks.sound
  cases label with
  | add client work =>
    simp only [next, addWork] at moved
    split at moved
    · rename_i outside
      split at moved
      · split at moved
        · cases moved
        · rename_i notInUse
          cases moved
          have free := free_of_not_inUse tracks notInUse
          have empty : state.held (.client client) = none := by
            simp only [State.held, State.each, outside, ClientPoint.held]
          refine ⟨_, ⟨?_, sound.beginAdd free⟩, Change.opened rfl free⟩
          simp only [State.held, State.each_setClient]
          exact custody.create empty sound.nextTicket_unplaced (by intro same; cases same)
      · cases moved
        exact ⟨phase, tracks, Change.quiet⟩
    · cases moved
  | cancel work =>
    cases moved
    have shown : ShowsWaiting phase (fun ticket => decide (ticket ∈ state.shared.backlog)) := by
      intro ticket
      rw [decide_eq_true_iff]
      exact custody.mem_queue_iff ticket
    exact ⟨phase, ⟨custody, sound.cancel shown⟩, Change.cancelled rfl shown⟩
  | step thread =>
    cases thread with
    | worker worker =>
      simp only [next, map_eq_some_iff] at moved
      rcases moved with ⟨⟨point, result⟩, stepped, same⟩
      cases same
      apply change_of_handling tracks (handling_workerStep stepped) State.each_setWorker
      intro ticket holds
      exact ⟨worker, rfl, eq_setInProgress_of_held holds⟩
    | client client =>
      simp only [next, map_eq_some_iff] at moved
      rcases moved with ⟨⟨point, result⟩, stepped, same⟩
      cases same
      apply change_of_handling tracks (handling_clientStep items.hasCompleteFn stepped)
        State.each_setClient
      intro ticket holds
      exact absurd holds ((state.clientPoint client).held_ne_proceeding ticket)
  | ret worker rc =>
    simp only [next] at moved
    split at moved
    · rename_i ticket point
      cases moved
      have holds : state.held (.worker worker) = some (ticket, .running) := by
        simp only [State.held, State.each, point, held]
      apply change_of_handling tracks _ State.each_setWorker
      · intro found holdsFound
        rw [holds] at holdsFound
        cases holdsFound
      · rw [holds]
        exact Handling.advance rfl (ret rc) (by intro same; cases same)
    · cases moved

theorem tracks_start (workers clients : Nat) (items : Items Work) :
    Tracks (workqueue workers clients items).start (fun _ => none) where
  custody := by
    have empty : (workqueue workers clients items).start.held = fun _ => none := by
      funext thread
      cases thread with
      | worker | client => rfl
    rw [empty]
    exact Custody.start
  sound := Sound.start

end Skyc.Utils.Workqueue
