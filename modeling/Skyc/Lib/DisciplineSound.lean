import Skyc.Lib.Books

/-!
# What the locking discipline guarantees

A service all of whose programs are safe keeps its books at every step,
whatever the order in which its processes move, until a process fails.
-/

namespace Skyc.Lib

open Function Option List

variable {Process File Failure Tile Key Value Lock Call Handle Answer : Type}
  [DecidableEq Process] [DecidableEq File] [DecidableEq Lock] [DecidableEq Key]
  (rules : Discipline File Failure Tile Key Value Lock Call Handle Answer) (initial : Key → Value)

/-- What a process holds fits to what it is doing. -/
structure Keeps (thread : Thread File Failure Call Handle Answer)
    (hold : Hold File Tile Key Value Lock) : Prop where
  offsets : hold.offsets = thread.offsets
  good : rules.good thread.handle
  phase : match thread.phase with
    | .idle => hold.Empty
    | .running call rest => Safe rules call rest hold
    | .failed _ _ => hold.Rests rules.waste

namespace Service

/-- The books are balanced and every process keeps the discipline. -/
def Sound (service : Service Process File Failure Call Handle Answer) : Prop :=
  ∃ owner actual hold, Balanced rules initial service.files service.locks
        service.history owner actual hold ∧
      ∀ process, Keeps rules (service.thread process) (hold process)

/-- A process has been terminated in the middle of a change. -/
def Failed (service : Service Process File Failure Call Handle Answer) : Prop :=
  ∃ process call failure, (service.thread process).phase = .failed call failure ∧
    ¬ rules.harmless call failure

/-- A balanced service in which one process has `rest` to do next. -/
structure Continues (service : Service Process File Failure Call Handle Answer)
    (process : Process) (hold : Process → Hold File Tile Key Value Lock) : Prop where
  balanced : ∃ owner actual, Balanced rules initial service.files service.locks
    service.history owner actual hold
  good : rules.good (service.thread process).handle
  others : ∀ other, other ≠ process → Keeps rules (service.thread other) (hold other)

variable {rules initial} {program : Call → Handle → Program File Failure (Handle × Answer)}
  {service : Service Process File Failure Call Handle Answer}
  {owner : Loc File Key → Owner Process Lock} {actual : Store File Tile Key Value}
  {hold : Process → Hold File Tile Key Value Lock} {process : Process} {call : Call}
  {rest : Program File Failure (Handle × Answer)}

def Pending : Program File Failure (Handle × Answer) → Prop
  | .done _ => False
  | .abort _ => False
  | _ => True

variable {offsets : File → ℕ}

omit [DecidableEq File] in
theorem settle_of_pending (pending : Pending rest) :
    service.settle process call offsets rest = { service with
      thread :=
        update service.thread process
          ⟨offsets, (service.thread process).handle, .running call rest⟩ } := by
  cases rest with
  | done | abort => cases pending
  | system | lock | unlock | loop => rfl

/-! ## One step -/

variable {files : File → List UInt8} {locks : List (Grant Process File)}
  {new before : Hold File Tile Key Value Lock} {handle : Handle} {answer : Answer}
  {after : Program File Failure (Handle × Answer)}

variable {failure : Failure}

section

variable (continues : Continues rules initial service process hold)
include continues

theorem Continues.update (balanced :
      Balanced rules initial files locks service.history owner actual (update hold process new)) :
    Continues rules initial { service with files, locks } process (update hold process new) := by
  refine ⟨⟨owner, actual, balanced⟩, continues.good, ?_⟩
  intro other apart
  rw [update_of_ne apart]
  exact continues.others other apart

theorem sound_of_returned (balanced :
      Balanced rules initial files locks
        (service.history ++ [⟨process, call, answer⟩]) owner actual
        (update hold process new)) (empty : new.Empty) (good : rules.good handle) :
    Sound rules initial ({ service with files, locks }.settle process call new.offsets
      (.done (handle, answer))) := by
  refine ⟨owner, actual, _, balanced, ?_⟩
  intro other
  simp only [settle]
  rcases eq_or_ne other process with rfl | apart
  · rw [update_self, update_self]
    exact ⟨rfl, good, empty⟩
  · rw [update_of_ne apart, update_of_ne apart]
    exact continues.others other apart

theorem sound_of_stopped (droppable : Droppable rules (hold process)) :
    Sound rules initial (service.settle process call (hold process).offsets (.abort failure)) := by
  obtain ⟨owner, actual, balanced⟩ := continues.balanced
  obtain ⟨newOwner, bare, newBalanced, rests, sameOffsets⟩ := balanced.dropped droppable
  refine ⟨newOwner, actual, _, newBalanced, ?_⟩
  intro other
  simp only [settle]
  rcases eq_or_ne other process with rfl | apart
  · rw [update_self, update_self]
    exact ⟨sameOffsets, continues.good, rests⟩
  · rw [update_of_ne apart, update_of_ne apart]
    exact continues.others other apart

theorem settle_kept (safe : Safe rules call rest (hold process)) :
    Sound rules initial (service.settle process call (hold process).offsets rest) ∨
      Failed rules (service.settle process call (hold process).offsets rest) := by
  obtain ⟨owner, actual, balanced⟩ := continues.balanced
  by_cases pending : Pending rest
  · left
    rw [settle_of_pending pending]
    refine ⟨owner, actual, hold, balanced, ?_⟩
    intro other
    rcases eq_or_ne other process with rfl | apart
    · simp only [update_self]
      exact ⟨rfl, continues.good, safe⟩
    · simp only [update_of_ne apart]
      exact continues.others other apart
  · cases rest with
    | done value =>
      cases safe with
      | returns empty good answered =>
        left
        have returned := balanced.returned process answered
        rw [← update_eq_self process hold] at returned
        exact sound_of_returned continues returned empty good
    | abort failure =>
      cases safe with
      | fails _ harmful =>
        right
        refine ⟨process, call, failure, ?_, harmful⟩
        simp only [settle, update_self]
      | stops _ droppable =>
        left
        exact sound_of_stopped continues droppable
    | system | lock | unlock | loop => exact absurd trivial pending

theorem step_kept (safe : Safe rules call rest (hold process)) (moved :
      rest.step process service.files service.locks (hold process).offsets =
        some (after, offsets, files, locks)) :
    Sound rules initial ({ service with files, locks }.settle process call offsets after) ∨
      Failed rules ({ service with files, locks }.settle process call offsets after) := by
  obtain ⟨owner, actual, balanced⟩ := continues.balanced
  have stays : ∀ {new : Hold File Tile Key Value Lock} {newOwner newActual},
      Balanced rules initial files locks service.history newOwner
          newActual (update hold process new) →
        new.offsets = offsets →
        Safe rules call after new →
          Sound rules initial ({ service with files, locks }.settle process call offsets
              after) ∨
            Failed rules ({ service with files, locks }.settle process call offsets
              after) := by
    intro new newOwner newActual newBalanced sameOffsets newSafe
    have newContinues := continues.update newBalanced
    have atProcess : update hold process new process = new := update_self ..
    have newSafeThere : Safe rules call after (update hold process new process) := by
      rw [atProcess]
      exact newSafe
    have kept := settle_kept newContinues newSafeThere
    rw [atProcess, sameOffsets] at kept
    exact kept
  cases safe with
  | returns | fails | stops => cases moved
  | system localTo sameContents executes continuesSafe =>
    obtain ⟨newFiles, executed, holds⟩ := executes service.files actual balanced.holds
      (balanced.owned.sees process)
    simp only [Program.step, executed, some.injEq, Prod.mk.injEq] at moved
    obtain ⟨rfl, rfl, rfl, rfl⟩ := moved
    exact stays (balanced.system process _ localTo sameContents holds) rfl continuesSafe
  | loop continuesSafe =>
    cases moved
    rw [← update_eq_self process hold] at balanced
    exact stays balanced rfl continuesSafe
  | lockExclusive unheld continuesSafe =>
    obtain ⟨grantable, same⟩ := ite_none_right_eq_some.mp moved
    cases same
    refine stays (balanced.lockExclusive unheld grantable) rfl ?_
    exact continuesSafe _ _ (balanced.disjoint_own process _) (balanced.owned.sees process)
      (balanced.invariant_of_grantable unheld grantable)
  | lockShared unheld continuesSafe =>
    obtain ⟨grantable, same⟩ := ite_none_right_eq_some.mp moved
    cases same
    refine stays (balanced.lockShared unheld grantable) rfl ?_
    exact continuesSafe _ _ (balanced.owned.sees process)
      (balanced.invariant_of_grantable unheld grantable)
  | unlock exclusive own invariant continuesSafe =>
    cases moved
    exact stays (balanced.unlock exclusive own invariant) rfl continuesSafe
  | finishExclusive lent exclusive only good member answered invariant =>
    cases moved
    obtain ⟨newOwner, newActual, newHold, newBalanced, empty, sameOffsets⟩ :=
      balanced.finishExclusive lent exclusive only member answered invariant
    rw [← sameOffsets]
    exact .inl (sound_of_returned continues newBalanced empty good)
  | finishShared own shared only good member answered =>
    cases moved
    obtain ⟨newHold, newBalanced, empty, sameOffsets⟩ :=
      balanced.finishShared own shared only member answered
    rw [← sameOffsets]
    exact .inl (sound_of_returned continues newBalanced empty good)

end

variable (rules program) in
def SafePrograms : Prop :=
  ∀ {call handle} {hold : Hold File Tile Key Value Lock}, rules.admits call → rules.good handle →
    hold.Empty → Safe rules call (program call handle) hold

variable (rules) in
def Admitted : Label Process Call → Prop
  | .start _ call => rules.admits call
  | .step _ => True

variable {label : Label Process Call} {target : Service Process File Failure Call Handle Answer}

variable (programs : SafePrograms rules program)

variable (sound : Sound rules initial service)

include sound in
include programs in
theorem next_kept (admitted : Admitted rules label)
    (moved : service.next program label = some target) :
    Sound rules initial target ∨ Failed rules target := by
  obtain ⟨owner, actual, hold, balanced, keeps⟩ := sound
  have continues : ∀ process, Continues rules initial service process hold := fun process =>
    ⟨⟨owner, actual, balanced⟩, (keeps process).good, fun other _ => keeps other⟩
  cases label with
  | start process call =>
    have phase := (keeps process).phase
    rw [next] at moved
    split at moved
    case h_1 idle =>
      rw [idle] at phase
      have safe := programs admitted (keeps process).good phase
      have kept := settle_kept (continues process) safe
      rw [(keeps process).offsets] at kept
      cases moved
      exact kept
    case h_2 => cases moved
  | step process =>
    have phase := (keeps process).phase
    rw [next] at moved
    split at moved
    case h_1 call rest running =>
      rw [running] at phase
      obtain ⟨⟨after, offsets, files, locks⟩, stepped, rfl⟩ := map_eq_some_iff.mp moved
      rw [← (keeps process).offsets] at stepped
      exact step_kept (continues process) phase stepped
    case h_2 => cases moved

omit [DecidableEq Lock] [DecidableEq Key] in
theorem next_failed (failed : Failed rules service)
    (moved : service.next program label = some target) : Failed rules target := by
  obtain ⟨process, call, failure, phase, harmful⟩ := failed
  refine ⟨process, call, failure, ?_, harmful⟩
  have untouched : ∀ (source : Service Process File Failure Call Handle
      Answer) other otherCall offsets rest, source.thread = service.thread →
      other ≠ process → ((source.settle other otherCall offsets rest).thread
        process).phase = .failed call failure := by
    intro source other otherCall offsets rest sameThreads apart
    cases rest <;> simp [settle, sameThreads, update_of_ne apart.symm, phase]
  cases label with
  | start other otherCall =>
    rw [next] at moved
    split at moved
    case h_1 idle =>
      cases moved
      apply untouched service other otherCall _ _ rfl
      rintro rfl
      rw [phase] at idle
      cases idle
    case h_2 => cases moved
  | step other =>
    rw [next] at moved
    split at moved
    case h_1 otherCall rest running =>
      obtain ⟨⟨after, offsets, files, locks⟩, stepped, rfl⟩ := map_eq_some_iff.mp moved
      apply untouched { service with files, locks } other otherCall
        _ _ rfl
      rintro rfl
      rw [phase] at running
      cases running
    case h_2 => cases moved

include programs in
/-- In every run the books stay balanced until a process fails. -/
theorem sound_or_failed_of_reachable {start : Service Process File Failure Call Handle Answer}
    (initially : Sound rules initial start) (reached :
      (Machine.mk start (next program)).ReachableUnder
        (fun _ label => Admitted rules label) service) :
    Sound rules initial service ∨ Failed rules service := by
  induction reached with
  | start => exact .inl initially
  | step _ admitted moved ih =>
    rcases ih with sound | failed
    · exact next_kept programs sound admitted moved
    · exact .inr (next_failed failed moved)

/-! ## Moments without calls -/

def Quiet (service : Service Process File Failure Call Handle Answer) : Prop :=
  ∀ process, service.busy process = false

omit [DecidableEq Process] in
theorem rests_of_keeps (keeps : Keeps rules (service.thread process) before)
    (free : service.busy process = false) : before.Rests rules.waste := by
  have phase := keeps.phase
  cases doing : (service.thread process).phase with
  | idle =>
    rw [doing] at phase
    exact phase.rests
  | failed =>
    rw [doing] at phase
    exact phase
  | running call rest => simp [busy, doing] at free

include sound in
omit [DecidableEq Process] in
/-- While no process is in a call, every location that is not waste belongs to
a lock and every lock protects what its invariant asks for. -/
theorem Sound.quiet (quiet : service.Quiet) :
    ∃ (owner : Loc File Key → Owner Process Lock) (actual : Store File Tile Key Value),
      Store.Holds rules.encode service.files actual ∧
        actual.contents = rules.after initial (service.history.map Completed.call) ∧
        service.history.map Completed.answer = rules.answers initial
          (service.history.map Completed.call) ∧
        (∀ loc ∉ rules.waste, ∃ lock, owner loc = .lock lock) ∧
        ∀ lock, rules.invariant lock {loc | owner loc = .lock lock} actual := by
  obtain ⟨owner, actual, hold, balanced, keeps⟩ := sound
  have rests := fun process => rests_of_keeps (keeps process) (quiet process)
  refine ⟨owner, actual, balanced.holds, balanced.contents, balanced.answers, ?_, fun lock => ?_⟩
  · intro loc needed
    cases owned : owner loc with
    | process process =>
      exact absurd ((rests process).own ((balanced.owned.own process loc).mpr owned)) needed
    | lock lock => exact ⟨lock, rfl⟩
  · apply balanced.owned.guarded lock
    intro process
    simp [(rests process).held lock]

/-! ## A process that runs alone -/

variable (rules initial process call) in
/-- How a call of one process ends while no other process is in a call: it
returns, or it terminates the process. -/
def Ended (history : List (Completed Process Call Answer))
    (final : Service Process File Failure Call Handle Answer) : Prop :=
  (Sound rules initial final ∧ final.Quiet ∧ (final.thread process).phase = .idle ∧
      ∃ answer, final.history = history ++ [⟨process, call, answer⟩]) ∨
    ∃ failure, (final.thread process).phase = .failed call failure ∧
      rules.tolerates call failure final.files ∧ final.history = history

omit [DecidableEq Lock] [DecidableEq Key] in
theorem finish_settle_of_pending {newOffsets : File → ℕ} (pending : Pending rest) (moved :
      rest.step process service.files service.locks offsets =
        some (after, newOffsets, files, locks)) (fuel : ℕ) :
    (service.settle process call offsets rest).finish program process (fuel + 1) =
      ({ service.settle process call offsets rest with
          files, locks }.settle process call newOffsets after).finish
        program process fuel := by
  rw [settle_of_pending pending, finish]
  simp [busy, next, moved]

omit [DecidableEq File] in
theorem history_settle_of_pending (service : Service Process File Failure Call Handle Answer)
    (process : Process) (call : Call) (offsets : File → ℕ) (pending : Pending rest) :
    (service.settle process call offsets rest).history = service.history := by
  rw [settle_of_pending pending]

theorem finish_of_abort (tolerated : rules.tolerates call failure service.files) :
    ∃ fuel final, (service.settle process call offsets (.abort failure)).finish
          program process fuel = some final ∧
        Ended rules initial process call service.history final := by
  have phase : ((service.settle process call offsets (.abort failure)).thread process).phase =
      .failed call failure := by
    simp [settle]
  refine ⟨0, _, ?_, .inr ⟨failure, phase, tolerated, rfl⟩⟩
  simp [finish, busy, phase]

variable (rules initial service) in
/-- A process runs while no other process is in a call. -/
structure Alone (process : Process) (hold : Process → Hold File Tile Key Value Lock) : Prop where
  continues : Continues rules initial service process hold
  rests : ∀ other, other ≠ process → service.busy other = false

section

variable (alone : Alone rules initial service process hold)
include alone

omit [DecidableEq Process] in
theorem Alone.grantable (file : File) (mode : LockMode) (region : Region) :
    Grant.Grantable service.locks process file mode region := by
  obtain ⟨owner, actual, balanced⟩ := alone.continues.balanced
  intro grant member apart
  have rests := rests_of_keeps (alone.continues.others _ apart) (alone.rests _ apart)
  exact absurd rfl (balanced.book.ne_of_mem rests.held member)

theorem Alone.settled (call : Call) (offsets : File → ℕ) (pending : Pending rest) :
    Alone rules initial (service.settle process call offsets rest) process hold := by
  rw [settle_of_pending pending]
  refine ⟨⟨alone.continues.balanced, ?_, ?_⟩, ?_⟩
  · simp only [update_self]
    exact alone.continues.good
  · intro other apart
    simp only [update_of_ne apart]
    exact alone.continues.others other apart
  · intro other apart
    simp only [busy, update_of_ne apart]
    exact alone.rests other apart

theorem Alone.finish_of_step (pending : Pending rest) (moved :
      rest.step process service.files service.locks before.offsets =
        some (after, new.offsets, files, locks)) (balanced :
      Balanced rules initial files locks service.history owner actual
        (update hold process new)) (goesOn :
      ∀ {later : Service Process File Failure Call Handle Answer} {laterHold},
        Alone rules initial later process laterHold →
        laterHold process = new →
          ∃ fuel final, (later.settle process call new.offsets after).finish program
                process fuel = some final ∧
              Ended rules initial process call later.history final) :
    ∃ fuel final, (service.settle process call before.offsets rest).finish program
          process fuel = some final ∧
        Ended rules initial process call service.history final := by
  have history := history_settle_of_pending service process call before.offsets pending
  have settled := alone.settled call before.offsets pending
  have stays : Alone rules initial
      { service.settle process call before.offsets rest with
        files, locks }
      process (update hold process new) := by
    rw [← history] at balanced
    exact ⟨settled.continues.update balanced, settled.rests⟩
  obtain ⟨fuel, final, finished, ended⟩ := goesOn stays (update_self ..)
  refine ⟨fuel + 1, final, ?_, ?_⟩
  · rw [finish_settle_of_pending pending moved]
    exact finished
  · rw [← history]
    exact ended

section

variable
  (balanced : Balanced rules initial files locks
    (service.history ++ [⟨process, call, answer⟩]) owner actual (update hold process new))
  (empty : new.Empty) (good : rules.good handle)

include balanced empty good

theorem Alone.ended_of_returned :
    Ended rules initial process call service.history
      ({ service with files, locks }.settle process call new.offsets (.done (handle, answer))) := by
  have idle : (({ service with files, locks }.settle process call new.offsets
      (.done (handle, answer))).thread process).phase = .idle := by
    simp only [settle, update_self]
  refine .inl ⟨sound_of_returned alone.continues balanced empty good, ?_, idle, answer, rfl⟩
  intro other
  rcases eq_or_ne other process with rfl | apart
  · rw [busy, idle]
  · simp only [busy, settle, update_of_ne apart]
    exact alone.rests other apart

theorem Alone.finish_of_last (pending : Pending rest) (moved :
      rest.step process service.files service.locks before.offsets =
        some (.done (handle, answer), new.offsets, files, locks)) :
    ∃ fuel final, (service.settle process call before.offsets rest).finish program
          process fuel = some final ∧
        Ended rules initial process call service.history final := by
  have history := history_settle_of_pending service process call before.offsets pending
  have settled := alone.settled call before.offsets pending
  rw [← history] at balanced ⊢
  refine ⟨1, _, ?_, settled.ended_of_returned balanced empty good⟩
  rw [finish_settle_of_pending pending moved]
  simp [finish, busy, settle]

end

end

theorem exists_finish (safe : Safe rules call rest before)
    (alone : Alone rules initial service process hold) (atProcess : hold process = before) :
    ∃ fuel final, (service.settle process call before.offsets rest).finish program
          process fuel = some final ∧
        Ended rules initial process call service.history final := by
  induction safe generalizing service hold with
    (subst atProcess; obtain ⟨owner, actual, balanced⟩ := alone.continues.balanced)
  | returns empty good answered =>
    have returned := balanced.returned process answered
    rw [← update_eq_self process hold] at returned
    refine ⟨0, _, ?_, alone.ended_of_returned returned empty good⟩
    simp [finish, busy, settle]
  | fails tolerable _ =>
    exact finish_of_abort (tolerable _ _ balanced.holds (balanced.owned.sees process))
  | stops tolerable _ =>
    exact finish_of_abort (tolerable _ _ balanced.holds (balanced.owned.sees process))
  | system localTo sameContents executes _ ih =>
    obtain ⟨newFiles, executed, holds⟩ := executes service.files actual balanced.holds
      (balanced.owned.sees process)
    refine alone.finish_of_step ?_ ?_ (balanced.system process _ localTo sameContents holds) ih
    · trivial
    · simp only [Program.step, executed]
      rfl
  | loop _ ih =>
    rw [← update_eq_self process hold] at balanced
    refine alone.finish_of_step ?_ ?_ balanced ih
    · trivial
    · rfl
  | @lockExclusive last lock after unheld _ ih =>
    have grantable := alone.grantable (rules.file lock) .exclusive (rules.region lock)
    refine alone.finish_of_step ?_ ?_ (balanced.lockExclusive unheld grantable)
      (ih _ _ (balanced.disjoint_own process _) (balanced.owned.sees process)
        (balanced.invariant_of_grantable unheld grantable))
    · trivial
    · simp only [Program.step, if_pos grantable]
      rfl
  | @lockShared last lock after unheld _ ih =>
    have grantable := alone.grantable (rules.file lock) .shared (rules.region lock)
    refine alone.finish_of_step ?_ ?_ (balanced.lockShared unheld grantable)
      (ih _ _ (balanced.owned.sees process) (balanced.invariant_of_grantable unheld grantable))
    · trivial
    · simp only [Program.step, if_pos grantable]
      rfl
  | unlock exclusive own invariant _ ih =>
    refine alone.finish_of_step ?_ ?_ (balanced.unlock exclusive own invariant) ih
    · trivial
    · rfl
  | finishExclusive lent exclusive only good member answered invariant =>
    obtain ⟨newOwner, newActual, newHold, newBalanced, empty, sameOffsets⟩ :=
      balanced.finishExclusive lent exclusive only member answered invariant
    refine alone.finish_of_last newBalanced empty good ?_ ?_
    · trivial
    · rw [sameOffsets]
      rfl
  | finishShared own shared only good member answered =>
    obtain ⟨newHold, newBalanced, empty, sameOffsets⟩ :=
      balanced.finishShared own shared only member answered
    refine alone.finish_of_last newBalanced empty good ?_ ?_
    · trivial
    · rw [sameOffsets]
      rfl

include sound in
include programs in
theorem exists_serve (quiet : service.Quiet) (idle : (service.thread process).phase = .idle)
    (admitted : rules.admits call) :
    ∃ fuel final, (∀ more, service.serve program process (fuel + more) call = some final) ∧
      Ended rules initial process call service.history final := by
  obtain ⟨owner, actual, hold, balanced, keeps⟩ := sound
  have empty := (keeps process).phase
  rw [idle] at empty
  have alone : Alone rules initial service process hold :=
    ⟨⟨⟨owner, actual, balanced⟩, (keeps process).good,
      fun other _ => keeps other⟩, fun other _ => quiet other⟩
  obtain ⟨fuel, final, finished, ended⟩ :=
    exists_finish (programs admitted (keeps process).good empty) alone rfl
  refine ⟨fuel, final, fun more => ?_, ended⟩
  rw [serve, next, idle, ← (keeps process).offsets]
  exact finish_add finished more

variable (rules process) in
/-- How a sequence of calls of one process ends: all calls have returned, or
one of them has terminated the process. -/
def Served (history : List (Completed Process Call Answer)) (calls : List Call)
    (final : Service Process File Failure Call Handle Answer) : Prop :=
  (final.Quiet ∧ final.history.map Completed.call = history.map Completed.call ++ calls) ∨
    ∃ before call after failure, calls = before ++ call :: after ∧
      final.history.map Completed.call = history.map Completed.call ++ before ∧
      (final.thread process).phase = .failed call failure ∧
      rules.tolerates call failure final.files

/-- What has been returned is what the map answers. -/
def Explained (object : KeyedObject Key Value Call Answer) (initial : Key → Value)
    (history : List (Completed Process Call Answer)) : Prop :=
  history.map Completed.answer = object.answers initial (history.map Completed.call)

include sound in
omit [DecidableEq Process] in
theorem Sound.explained :
    Explained rules.toKeyedObject initial service.history := by
  obtain ⟨owner, actual, hold, balanced, -⟩ := sound
  exact balanced.answers

include sound in
include programs in
theorem exists_serveAll (quiet : service.Quiet) (idle : (service.thread process).phase = .idle)
    {calls : List Call} (admitted : ∀ call ∈ calls, rules.admits call) :
    ∃ fuel final, (∀ more, service.serveAll program process (fuel + more) calls = some final) ∧
      Explained rules.toKeyedObject initial final.history ∧
      Served rules process service.history calls final := by
  induction calls generalizing service with
  | nil =>
    refine ⟨0, service, fun more => rfl, sound.explained, .inl ⟨quiet, ?_⟩⟩
    rw [append_nil]
  | cons call rest ih =>
    obtain ⟨first, middle, served, ended⟩ := exists_serve programs sound quiet idle
      (admitted call mem_cons_self)
    rcases ended with
      ⟨middleSound, middleQuiet, middleIdle, answer, history⟩ |
      ⟨failure, phase, tolerated, history⟩
    · obtain ⟨later, final, servedLater, explained, ends⟩ :=
        ih middleSound middleQuiet middleIdle (forall_mem_cons.mp admitted).2
      have calls : middle.history.map Completed.call =
          service.history.map Completed.call ++ [call] := by
        rw [history, map_append]
        rfl
      refine ⟨first + later, final, fun more => ?_, explained, ?_⟩
      · have toFirst : first + later + more = first + (later + more) := Nat.add_assoc ..
        have toLater : first + later + more = later + (first + more) := by omega
        rw [serveAll, toFirst, served, bind_some, middleIdle, ← toFirst, toLater]
        exact servedLater (first + more)
      · rw [Served, calls] at ends
        rcases ends with ⟨quiet, all⟩ |
          ⟨before, last, after, failure, split, done, phase, tolerated⟩
        · refine .inl ⟨quiet, ?_⟩
          rw [all, append_assoc, singleton_append]
        · refine .inr ⟨call :: before, last, after, failure, ?_, ?_, phase, tolerated⟩
          · rw [split, cons_append]
          · rw [done, append_assoc, singleton_append]
    · refine ⟨first, middle, fun more => ?_, ?_, .inr ?_⟩
      · rw [serveAll, served, bind_some, phase]
      · rw [Explained, history]
        exact sound.explained
      · refine ⟨[], call, rest, failure, rfl, ?_, phase, tolerated⟩
        rw [history, append_nil]

end Service

end Skyc.Lib
