import Skyc.Utils.Workqueue.Model

/-!
# Wake-ups of the work queue

`put_backlog` wakes a worker only if it finds one whose `state` is
`WQ_WORKER_STATE_IDLE`, and the workers store that state outside the lock.
An item can therefore be left in the backlog with all workers asleep.
-/

namespace Skyc.Utils.Workqueue

open Skyc.Lib Function Option

variable {workers clients : Nat} {Work : Type}

/-- Past the enqueue and not yet back from `wakeup_first_free_worker`. -/
def PutPoint.waking : PutPoint workers Work → Bool
  | .lock _ | .enqueue _ => false
  | .increment | .unlock | .scan _ | .signal _ => true

/-- The worker calls `get_backlog` again before it blocks. -/
def WorkerPoint.draining : WorkerPoint workers Work → Bool
  | .start | .readEvent | .getUnlock none | .setIdle => false
  | .setRunning | .getLock | .getDequeue | .getDecrement _
  | .getUnlock (some _) | .testCancel _ | .cancelStatus _ | .cancelCall _
  | .setInProgress _ | .callWork _ | .working _ | .testAgain _ _
  | .completeStatus _ | .completeCall _ | .put _ => true

def ClientPoint.waking : ClientPoint workers Work → Bool
  | .outside | .setQueued _ => false
  | .put point => point.waking

/-- The scan of `wakeup_first_free_worker` ends without an idle worker. -/
def ClientPoint.givesUp : ClientPoint workers Work → Bool
  | .put (.scan index) => decide (workers ≤ index)
  | _ => false

/-- The worker looks at the backlog without being woken again. -/
def State.Alert (state : State workers clients Work) (worker : Fin workers) : Prop :=
  (state.workerPoint worker).draining = true ∨ 0 < state.shared.event worker

/-- A non-empty backlog with all workers blocked in `flush_fd`, nothing to
read for any of them and no `workqueue_add_work` in progress. -/
structure Stranded (state : State workers clients Work) : Prop where
  nonempty : state.shared.backlog ≠ []
  blocked :
    ∀ worker, state.workerPoint worker = .readEvent ∧ state.shared.event worker = 0
  outside : ∀ client, state.clientPoint client = .outside

/-- The steps that do not lose the last wake-up.  A client whose scan found no idle
worker returns only while a worker is still going to look at the backlog or another
client is about to wake one; a worker that reads exactly one full buffer, and so blocks
in the second read of `flush_fd`, is not the last one to look. -/
def KeepsWakeup (state : State workers clients Work) : Label workers clients Work → Prop
  | .step (.client client) =>
    (state.clientPoint client).givesUp = true →
    state.shared.backlog ≠ [] → (∃ worker, state.Alert worker) ∨ ∃ other, other ≠ client ∧
      (state.clientPoint other).waking = true
  | .step (.worker worker) =>
    state.workerPoint worker = .readEvent →
    state.shared.event worker = flushSize →
    state.shared.backlog ≠ [] → (∃ other, other ≠ worker ∧ state.Alert other) ∨
      ∃ client, (state.clientPoint client).waking = true
  | .add _ _ | .cancel _ | .ret _ _ => True

/-! ## The invariant -/

/-- Somebody looks after a non-empty backlog. -/
def Attended (state : State workers clients Work) : Prop :=
  state.shared.backlog ≠ [] → (∃ worker, state.Alert worker) ∨
    ∃ client, (state.clientPoint client).waking = true

theorem Attended.not_stranded {state : State workers clients Work} (attended : Attended state) :
    ¬ Stranded state := by
  intro stranded
  rcases attended stranded.nonempty with
    ⟨worker, draining | pending⟩ | ⟨client, waking⟩
  · rw [(stranded.blocked worker).1] at draining
    cases draining
  · rw [(stranded.blocked worker).2] at pending
    cases pending
  · rw [stranded.outside client] at waking
    cases waking

variable [DecidableEq Work] {items : Items Work} {shared sharedAfter : Shared workers clients Work}
  {state after : State workers clients Work}

omit [DecidableEq Work] in
theorem putStep_event_le {thread : Thread workers clients} {point : PutPoint workers Work}
    {next : Option (PutPoint workers Work)}
    (stepped : putStep thread shared point = some (next, sharedAfter)) (worker : Fin workers) :
    shared.event worker ≤ sharedAfter.event worker := by
  cases point with
  | signal index =>
    cases stepped
    by_cases same : worker = index
    · subst worker
      simp only [update_self]
      exact Nat.le_add_right _ _
    · simp only [update_of_ne same]
      exact le_refl _
  | _ =>
    simp only [putStep] at stepped
    repeat' split at stepped
    all_goals cases stepped
    all_goals exact le_refl _

variable {worker : Fin workers}

theorem workerStep_event_le {other : Fin workers} {point next : WorkerPoint workers Work} (stepped :
      workerStep items worker shared point = some (next, sharedAfter))
    (apart : other ≠ worker) : shared.event other ≤ sharedAfter.event other := by
  cases point with
  | readEvent =>
    simp only [workerStep] at stepped
    split at stepped
    · cases stepped
    · cases stepped
      simp only [update_of_ne apart]
      exact le_refl _
  | getUnlock found =>
    cases found with
    | none | some =>
      cases stepped
      exact le_refl _
  | working => cases stepped
  | put point =>
    simp only [workerStep, map_eq_some_iff] at stepped
    rcases stepped with ⟨⟨following, result⟩, moved, same⟩
    cases same
    exact putStep_event_le moved other
  | _ =>
    simp only [workerStep] at stepped
    repeat' split at stepped
    all_goals cases stepped
    all_goals exact le_refl _

/-- A worker stops looking after the backlog only when it has found it
empty or has read exactly one full buffer. -/
theorem workerStep_alert {point next : WorkerPoint workers Work} (stepped :
      workerStep items worker shared point = some (next, sharedAfter)) :
    (next.draining = true ∨ 0 < sharedAfter.event worker) ∨
      sharedAfter.backlog = [] ∨ (sharedAfter.backlog = shared.backlog ∧
        ((point.draining = false ∧ shared.event worker = 0) ∨
          (point = .readEvent ∧ shared.event worker = flushSize))) := by
  cases point with
  | start | setIdle =>
    cases stepped
    rcases Nat.eq_zero_or_pos (shared.event worker) with none | some
    · exact .inr (.inr ⟨rfl, .inl ⟨rfl, none⟩⟩)
    · exact .inl (.inr some)
  | readEvent =>
    simp only [workerStep] at stepped
    split at stepped
    · cases stepped
    · rename_i pending
      cases stepped
      by_cases full : min (shared.event worker) flushSize = flushSize
      · by_cases oneBuffer : shared.event worker = flushSize
        · exact .inr (.inr ⟨rfl, .inr ⟨rfl, oneBuffer⟩⟩)
        · left
          right
          simp only [update_self]
          omega
      · left
        left
        rw [if_neg full]
        rfl
  | getDequeue =>
    simp only [workerStep] at stepped
    split at stepped
    · rename_i empty
      cases stepped
      exact .inr (.inl empty)
    · cases stepped
      exact .inl (.inl rfl)
  | getUnlock found =>
    cases found with
    | none =>
      cases stepped
      rcases Nat.eq_zero_or_pos (shared.event worker) with none | some
      · exact .inr (.inr ⟨rfl, .inl ⟨rfl, none⟩⟩)
      · exact .inl (.inr some)
    | some ticket =>
      cases stepped
      exact .inl (.inl rfl)
  | working => cases stepped
  | put point =>
    simp only [workerStep, map_eq_some_iff] at stepped
    rcases stepped with ⟨⟨following, result⟩, moved, same⟩
    cases same
    cases following with
    | none | some => exact .inl (.inl rfl)
  | _ =>
    simp only [workerStep] at stepped
    repeat' split at stepped
    all_goals cases stepped
    all_goals exact .inl (.inl rfl)

variable {client : Fin clients}

/-- A client stops waking workers only when it has signalled one or has
found none. -/
theorem clientStep_waking {point next : ClientPoint workers Work}
    (stepped : clientStep client shared point = some (next, sharedAfter)) :
    next.waking = true ∨ (∃ worker, 0 < sharedAfter.event worker) ∨
      (sharedAfter.backlog = shared.backlog ∧ (point.waking = false ∨ point.givesUp = true)) := by
  cases point with
  | outside => cases stepped
  | setQueued ticket =>
    cases stepped
    exact .inr (.inr ⟨rfl, .inl rfl⟩)
  | put point =>
    simp only [clientStep, map_eq_some_iff] at stepped
    rcases stepped with ⟨⟨following, result⟩, moved, same⟩
    cases same
    cases point with
    | lock ticket =>
      simp only [putStep] at moved
      split at moved
      · cases moved
        exact .inr (.inr ⟨rfl, .inl rfl⟩)
      · cases moved
    | enqueue | increment | unlock =>
      cases moved
      exact .inl rfl
    | scan index =>
      simp only [putStep] at moved
      split at moved
      · split at moved
        · cases moved
          exact .inl rfl
        · cases moved
          exact .inl rfl
      · rename_i last
        cases moved
        have givesUp : (ClientPoint.put (.scan index) :
          ClientPoint workers Work).givesUp = true := decide_eq_true (not_lt.mp last)
        exact .inr (.inr ⟨rfl, .inr givesUp⟩)
    | signal index =>
      cases moved
      right
      left
      refine ⟨index, ?_⟩
      simp only [update_self]
      exact lt_of_lt_of_le (by decide) (Nat.le_add_left _ _)

theorem clientStep_event_le {point next : ClientPoint workers Work}
    (stepped : clientStep client shared point = some (next, sharedAfter)) (worker : Fin workers) :
    shared.event worker ≤ sharedAfter.event worker := by
  cases point with
  | outside => cases stepped
  | setQueued ticket =>
    cases stepped
    exact le_refl _
  | put point =>
    simp only [clientStep, map_eq_some_iff] at stepped
    rcases stepped with ⟨⟨following, result⟩, moved, same⟩
    cases same
    exact putStep_event_le moved worker

theorem Attended.setWorker {next : WorkerPoint workers Work}
    (attended : Attended state) (keeps : KeepsWakeup state (.step (.worker worker))) (stepped :
      workerStep items worker state.shared (state.workerPoint worker) = some (next, sharedAfter)) :
    Attended (state.setWorker worker next sharedAfter) := by
  intro nonempty
  have othersStay : ∀ other, other ≠ worker → state.Alert other →
      (state.setWorker worker next sharedAfter).Alert other := by
    intro other apart alert
    rcases alert with draining | pending
    · left
      simp only [State.setWorker, update_of_ne apart]
      exact draining
    · right
      exact pending.trans_le (workerStep_event_le stepped apart)
  rcases workerStep_alert stepped with alert | empty | ⟨same, lost⟩
  · left
    refine ⟨worker, ?_⟩
    simpa only [State.Alert, State.setWorker, update_self] using alert
  · exact absurd empty nonempty
  · have before : state.shared.backlog ≠ [] := same ▸ nonempty
    have helped : (∃ other, other ≠ worker ∧ state.Alert other) ∨
        ∃ client, (state.clientPoint client).waking = true := by
      rcases lost with ⟨notDraining, nothing⟩ | ⟨reading, oneBuffer⟩
      · rcases attended before with ⟨other, alert⟩ | helper
        · left
          refine ⟨other, ?_, alert⟩
          intro sameWorker
          subst other
          rcases alert with draining | pending
          · rw [notDraining] at draining
            cases draining
          · exact pending.ne' nothing
        · exact .inr helper
      · exact keeps reading oneBuffer before
    rcases helped with ⟨other, apart, alert⟩ | helper
    · exact .inl ⟨other, othersStay other apart alert⟩
    · exact .inr helper

theorem Attended.setClient {next : ClientPoint workers Work}
    (attended : Attended state) (keeps : KeepsWakeup state (.step (.client client))) (stepped :
      clientStep client state.shared (state.clientPoint client) = some (next, sharedAfter)) :
    Attended (state.setClient client next sharedAfter) := by
  intro nonempty
  have alertStays : ∀ worker, state.Alert worker →
      (state.setClient client next sharedAfter).Alert worker := by
    intro worker alert
    rcases alert with draining | pending
    · exact .inl draining
    · exact .inr (pending.trans_le (clientStep_event_le stepped worker))
  rcases clientStep_waking stepped with
    waking | ⟨worker, pending⟩ | ⟨same, lost⟩
  · right
    refine ⟨client, ?_⟩
    simpa only [State.setClient, update_self] using waking
  · exact .inl ⟨worker, .inr pending⟩
  · have before : state.shared.backlog ≠ [] := same ▸ nonempty
    have helped : (∃ worker, state.Alert worker) ∨ ∃ other, other ≠ client ∧
        (state.clientPoint other).waking = true := by
      rcases lost with notWaking | givesUp
      · rcases attended before with alert | ⟨other, waking⟩
        · exact .inl alert
        · right
          refine ⟨other, ?_, waking⟩
          intro sameClient
          subst other
          rw [notWaking] at waking
          cases waking
      · exact keeps givesUp before
    rcases helped with ⟨worker, alert⟩ | ⟨other, apart, waking⟩
    · exact .inl ⟨worker, alertStays worker alert⟩
    · right
      refine ⟨other, ?_⟩
      simp only [State.setClient, update_of_ne apart]
      exact waking

theorem attended_next {label : Label workers clients Work}
    (attended : Attended state) (keeps : KeepsWakeup state label)
    (moved : next items state label = some after) : Attended after := by
  cases label with
  | add client work =>
    simp only [next, addWork] at moved
    split at moved
    · rename_i outside
      split at moved
      · split at moved
        · cases moved
        · cases moved
          intro nonempty
          rcases attended nonempty with alert | ⟨other, waking⟩
          · exact .inl alert
          · right
            refine ⟨other, ?_⟩
            have apart : other ≠ client := by
              intro same
              subst other
              rw [outside] at waking
              cases waking
            simp only [State.setClient, update_of_ne apart]
            exact waking
      · cases moved
        exact attended
    · cases moved
  | cancel work =>
    cases moved
    exact attended
  | step thread =>
    cases thread with
    | worker worker =>
      simp only [next, map_eq_some_iff] at moved
      rcases moved with ⟨⟨point, result⟩, stepped, same⟩
      cases same
      exact attended.setWorker keeps stepped
    | client client =>
      simp only [next, map_eq_some_iff] at moved
      rcases moved with ⟨⟨point, result⟩, stepped, same⟩
      cases same
      exact attended.setClient keeps stepped
  | ret worker rc =>
    simp only [next] at moved
    split at moved
    · cases moved
      intro _
      left
      refine ⟨worker, .inl ?_⟩
      simp only [State.setWorker, update_self]
      rfl
    · cases moved

/-! ## The theorem -/

/-- Runs that keep the last wake-up never leave an item behind. -/
theorem not_stranded_of_keepsWakeup (items : Items Work) (state : State workers clients Work)
    (reached :
      (workqueue workers clients items).ReachableUnder KeepsWakeup state) :
    ¬ Stranded state := by
  have attended : Attended state := by
    apply reached.invariant
    · intro nonempty
      exact absurd rfl nonempty
    · intro _ _ _ _ holds keeps moved
      exact attended_next holds keeps moved
  exact attended.not_stranded

instance (state : State workers clients Work) (worker : Fin workers) :
    Decidable (state.Alert worker) :=
  inferInstanceAs (Decidable (_ ∨ _))

instance (state : State workers clients Work) (label : Label workers clients Work) :
    Decidable (KeepsWakeup state label) :=
  match label with
  | .step (.client _) | .step (.worker _) => inferInstanceAs (Decidable (_ → _))
  | .add _ _ | .cancel _ | .ret _ _ => isTrue trivial

attribute [local instance] neZeroOne

/-- The only worker has blocked, item 0 is added, and the worker runs it
once and finds the backlog empty. -/
def drainOnce : List (Label 1 1 Nat) :=
  [Label.step (.worker 0), Label.add 0 0] ++ List.replicate 7 (Label.step (.client 0)) ++
    List.replicate 9 (Label.step (.worker 0)) ++ [Label.ret 0 0] ++
    List.replicate 6 (Label.step (.worker 0))

theorem not_stranded_drainOnce :
    ∃ state : State 1 1 Nat, state.shared.books.history ⟨0, 1⟩ =
          [.call, .ret 0, .complete, .completeFn] ∧
        ¬ Stranded state := by
  rcases Machine.exists_reachableUnder_of_run (workqueue 1 1 plainItems) KeepsWakeup drainOnce
      (fun state =>
        decide (state.shared.books.history ⟨0, 1⟩ = [.call, .ret 0, .complete, .completeFn]))
      (by decide) (by decide) with
    ⟨state, reached, tested⟩
  exact ⟨state, of_decide_eq_true tested, not_stranded_of_keepsWakeup plainItems state reached⟩

/-- Item 1 is added between the worker's last look at the backlog and its
store of `WQ_WORKER_STATE_IDLE`. -/
def addBeforeIdle : List (Label 1 1 Nat) :=
  drainOnce ++ [.add 0 1] ++ List.replicate 7 (.step (.client 0)) ++ [.step (.worker 0)]

theorem stranded_addBeforeIdle :
    ¬ ∀ state : State 1 1 Nat, (workqueue 1 1 plainItems).Reachable state → ¬ Stranded state := by
  intro never
  rcases Machine.exists_reachable_of_run (workqueue 1 1 plainItems) addBeforeIdle (fun state =>
          decide (state.shared.backlog ≠ [] ∧ (∀ worker, state.workerPoint worker = .readEvent ∧
              state.shared.event worker = 0) ∧
            ∀ client, state.clientPoint client = .outside))
        (by decide) with
    ⟨state, reached, tested⟩
  rcases of_decide_eq_true tested with ⟨nonempty, blocked, outside⟩
  exact never state reached ⟨nonempty, blocked, outside⟩

end Skyc.Utils.Workqueue
