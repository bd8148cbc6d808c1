import Skyc.Lib.Transition

/-!
# The shared-memory talk server: the parent's tables

In `13.5.shm_talk_server.cpp` the parent keeps `users[0 .. user_count-1]`, the
connected clients, and `sub_process[pid]`, meant to be the position of that child's
client.  A child uses the segment `share_mem + idx * BUFFER_SIZE` of its fork until
it exits, while the parent moves the last entry of `users` into a freed slot.

A label is one event of the parent's loop, with the answers of `accept`, `fork` and
`waitpid`; it has no result when `fork` returns a pid that `sub_process` has no
entry for.  The rest of an `epoll_wait` batch is handled after `stop_server` has
been set, so the flag does not disable later labels.
-/

namespace Skyc.Socket.ShmTalkServer

open Skyc.Lib Function List Nat

/-- `USER_LIMIT` -/
def userLimit : Nat := 5

/-- `PROCESS_LIMIT`, the number of entries of `sub_process` -/
def processLimit : Nat := 65536

abbrev Pid := Nat

/-- `struct client_data`; the peer address is not read by the parent. -/
structure ClientData where
  connfd : Nat
  pid : Pid
  pipefd : Nat × Nat
deriving DecidableEq, Repr

/-- A child process that was forked and has not been reaped, with the `idx`
that `run_child` was called with. -/
structure Child where
  pid : Pid
  idx : Nat
deriving DecidableEq, Repr

structure Server where
  users : Nat → ClientData
  userCount : Nat
  subProcess : Pid → Int
  stopServer : Bool
  terminate : Bool
  /-- The process table: live children of the parent. -/
  children : List Child
  /-- `(pipefd, child)` pairs the parent has sent to its children. -/
  sent : List (Nat × Int)
  /-- Pids the parent has sent `SIGTERM` to. -/
  killed : List Pid

/-- The answer of `fork` in the parent. -/
inductive Fork where
  | failed
  | child (pid : Pid)
deriving DecidableEq, Repr

/-- One byte read from `sig_pipefd[0]`. A `SIGCHLD` comes with the pids that
the `waitpid` loop of its branch returns. -/
inductive Signal where
  | sigchld (reaped : List Pid)
  | sigterm
  | sigint
  | other
deriving DecidableEq, Repr

inductive Event where
  | acceptFailed
  | connection (connfd : Nat) (pipefd : Nat × Nat) (fork : Fork)
  | signals (received : List Signal)
  | recvFailed
  | data (sockfd : Nat) (child : Int)
deriving DecidableEq, Repr

def Server.childPids (server : Server) : List Pid :=
  server.children.map Child.pid

/-- `idx` of every live child: the segments the children write. -/
def Server.segments (server : Server) : List Nat :=
  server.children.map Child.idx

/-- The branch for `sockfd == listenfd`, after a successful `accept`. -/
def acceptConnection (server : Server) (connfd : Nat) (pipefd : Nat × Nat) (fork : Fork) :
    Option Server :=
  if userLimit ≤ server.userCount then
    some server
  else
    let slot := server.userCount
    let users :=
      update server.users slot
        { server.users slot with connfd := connfd, pipefd := pipefd }
    match fork with
    | .failed => some { server with users := users }
    | .child pid =>
      -- the kernel never hands out the pid of a child still in its table, and
      -- a store behind the end of `sub_process` is undefined
      if pid ∈ server.childPids ∨ processLimit ≤ pid then
        none
      else
        some
          { server with
            users := update users slot { users slot with pid := pid }
            subProcess := update server.subProcess pid slot
            userCount := server.userCount + 1
            children := ⟨pid, slot⟩ :: server.children }

/-- The body of the `waitpid` loop. -/
def reap (server : Server) (pid : Pid) : Server :=
  let delUser := server.subProcess pid
  let cleared :=
    { server with
      subProcess := update server.subProcess pid (-1)
      children := server.children.filter (fun child => child.pid ≠ pid) }
  if delUser < 0 ∨ (userLimit : Int) < delUser then
    cleared
  else
    let last := server.userCount - 1
    let users := update server.users delUser.toNat (server.users last)
    { cleared with
      users := users
      userCount := last
      subProcess := update cleared.subProcess (users delUser.toNat).pid delUser }

/-- The whole `waitpid` loop; it returns only pids of live children. -/
def reapAll : Server → List Pid → Option Server
  | server, [] => some server
  | server, pid :: rest => if pid ∈ server.childPids then reapAll (reap server pid) rest else none

/-- One turn of the `switch (signals[i])`. -/
def handleSignal (server : Server) : Signal → Option Server
  | .sigchld reaped => do
    let after ← reapAll server reaped
    if after.terminate ∧ after.userCount = 0 then
      some { after with stopServer := true }
    else
      some after
  | .sigterm | .sigint =>
    if server.userCount = 0 then
      some { server with stopServer := true }
    else
      some
        { server with
          killed := server.killed ++ (range server.userCount).map (fun i => (server.users i).pid)
          terminate := true }
  | .other => some server

def handleSignals : Server → List Signal → Option Server
  | server, [] => some server
  | server, signal :: rest => do
    handleSignals (← handleSignal server signal) rest

/-- The data branch forwards the child number to every other client. -/
def forward (server : Server) (sockfd : Nat) (child : Int) : Server :=
  let others := (range server.userCount).filter (fun j => (server.users j).pipefd.1 ≠ sockfd)
  { server with
    sent := server.sent ++ others.map (fun j => ((server.users j).pipefd.1, child)) }

def handleEvent (server : Server) : Event → Option Server
  | .acceptFailed => some server
  | .connection connfd pipefd fork => acceptConnection server connfd pipefd fork
  | .signals received => handleSignals server received
  | .recvFailed => some server
  | .data sockfd child => some (forward server sockfd child)

/-- The state before the loop. `users` comes from `new` without an
initialiser, so its contents are arbitrary. -/
def startServer (uninitialised : Nat → ClientData) : Server where
  users := uninitialised
  userCount := 0
  subProcess := fun _ => -1
  stopServer := false
  terminate := false
  children := []
  sent := []
  killed := []

def parentLoop (uninitialised : Nat → ClientData) : Machine Server Event where
  start := startServer uninitialised
  next := handleEvent

/-! ## What holds in every run -/

/-- The first `userCount` slots are exactly the live children, each at the position its
pid is recorded with. -/
structure Tracks (server : Server) : Prop where
  bounded : server.userCount ≤ userLimit
  distinct : server.childPids.Nodup
  inTable : ∀ pid ∈ server.childPids, pid < processLimit
  recorded :
    ∀ i, i < server.userCount → server.subProcess (server.users i).pid = i
  live :
    ∀ i, i < server.userCount → (server.users i).pid ∈ server.childPids
  seated :
    ∀ pid, pid ∈ server.childPids → ∃ i, i < server.userCount ∧ (server.users i).pid = pid

theorem tracks_startServer (uninitialised : Nat → ClientData) :
    Tracks (startServer uninitialised) where
  bounded := zero_le _
  distinct := nodup_nil
  inTable := fun _ impossible => absurd impossible not_mem_nil
  recorded := fun _ impossible => absurd impossible (not_lt_zero _)
  live := fun _ impossible => absurd impossible (not_lt_zero _)
  seated := fun _ impossible => absurd impossible not_mem_nil

variable {server after : Server} {pid : Pid} {signal : Signal} {connfd : Nat} {pipefd : Nat × Nat}
  {fork : Fork} {event : Event}

namespace Tracks

theorem users_injective (tracks : Tracks server) {i j : Nat}
    (iBound : i < server.userCount) (jBound : j < server.userCount)
    (samePid : (server.users i).pid = (server.users j).pid) : i = j := by
  have atI := tracks.recorded i iBound
  rw [samePid, tracks.recorded j jBound] at atI
  exact Int.ofNat.inj atI.symm

theorem slot_of_child (tracks : Tracks server) (child : pid ∈ server.childPids) :
    ∃ slot, slot < server.userCount ∧
      (server.users slot).pid = pid ∧ server.subProcess pid = slot := by
  obtain ⟨slot, bound, seat⟩ := tracks.seated pid child
  exact ⟨slot, bound, seat, seat ▸ tracks.recorded slot bound⟩

end Tracks

theorem childPids_reap (server : Server) (pid : Pid) :
    (reap server pid).childPids = server.childPids.filter (fun other => other ≠ pid) := by
  have mapped : (server.children.filter (fun child => child.pid ≠ pid)).map Child.pid =
      server.childPids.filter (fun other => other ≠ pid) := by
    rw [Server.childPids, filter_map]
    rfl
  simp only [reap]
  split
  · exact mapped
  · exact mapped

/-- The last entry moves into the freed slot, which is recorded for its pid. -/
theorem reap_of_slot {slot : Nat} (tracks : Tracks server) (bound : slot < server.userCount)
    (atSlot : server.subProcess pid = slot) :
    (reap server pid).users = update server.users slot (server.users (server.userCount - 1)) ∧
      (reap server pid).userCount = server.userCount - 1 ∧
      (reap server pid).subProcess = update (update server.subProcess pid (-1))
        (server.users (server.userCount - 1)).pid slot := by
  have inRange : ¬ (server.subProcess pid < 0 ∨ (userLimit : Int) < server.subProcess pid) := by
    have limit := tracks.bounded
    rw [atSlot]
    omega
  have position : (server.subProcess pid).toNat = slot := by
    rw [atSlot]
    exact Int.toNat_natCast slot
  simp only [reap, if_neg inRange, position, update_self]
  exact ⟨trivial, trivial, by rw [atSlot]⟩

theorem tracks_reap (tracks : Tracks server) (child : pid ∈ server.childPids) :
    Tracks (reap server pid) := by
  obtain ⟨slot, bound, seat, atSlot⟩ := tracks.slot_of_child child
  obtain ⟨usersEq, countEq, tableEq⟩ := reap_of_slot tracks bound atSlot
  have lastBound : server.userCount - 1 < server.userCount := by omega
  -- the pid found in slot `i` afterwards, by whether `i` is the freed slot
  have pidAt : ∀ i, i < server.userCount - 1 → ∃ j, j < server.userCount ∧ j ≠ slot ∧
      ((reap server pid).users i).pid = (server.users j).pid ∧
      (i = slot ∧ j = server.userCount - 1 ∨ i ≠ slot ∧ j = i) := by
    intro i iBound
    by_cases freed : i = slot
    · refine ⟨server.userCount - 1, lastBound, by omega, ?_, .inl ⟨freed, rfl⟩⟩
      rw [usersEq, freed, update_self]
    · refine ⟨i, by omega, freed, ?_, .inr ⟨freed, rfl⟩⟩
      rw [usersEq, update_of_ne freed]
  refine ⟨?_, ?_, ?_, ?_, ?_, ?_⟩
  · have limit := tracks.bounded
    omega
  · rw [childPids_reap]
    exact tracks.distinct.filter _
  · intro other member
    rw [childPids_reap] at member
    exact tracks.inTable other (mem_of_mem_filter member)
  · intro i iBound
    rw [countEq] at iBound
    obtain ⟨j, jBound, jOther, pidEq, shape⟩ := pidAt i iBound
    rw [pidEq, tableEq]
    rcases shape with ⟨iFreed, jLast⟩ | ⟨iKept, jSame⟩
    · rw [jLast, update_self, iFreed]
    · have notLast : (server.users j).pid ≠ (server.users (server.userCount - 1)).pid := by
        intro same
        have := tracks.users_injective jBound lastBound same
        omega
      have notReaped : (server.users j).pid ≠ pid := by
        intro same
        exact jOther (tracks.users_injective jBound bound (same.trans seat.symm))
      rw [update_of_ne notLast, update_of_ne notReaped, tracks.recorded j jBound, jSame]
  · intro i iBound
    rw [countEq] at iBound
    obtain ⟨j, jBound, jOther, pidEq, _⟩ := pidAt i iBound
    rw [pidEq, childPids_reap]
    refine mem_filter.mpr ⟨tracks.live j jBound, ?_⟩
    simp only [ne_eq, decide_eq_true_eq]
    intro same
    exact jOther (tracks.users_injective jBound bound (same.trans seat.symm))
  · intro other member
    rw [childPids_reap, mem_filter] at member
    obtain ⟨otherChild, otherNe⟩ := member
    simp only [ne_eq, decide_eq_true_eq] at otherNe
    obtain ⟨i, iBound, otherSeat⟩ := tracks.seated other otherChild
    have iKept : i ≠ slot := by
      rintro rfl
      exact otherNe (otherSeat.symm.trans seat)
    by_cases iLast : i = server.userCount - 1
    · refine ⟨slot, by omega, ?_⟩
      rw [usersEq, update_self, ← iLast, otherSeat]
    · refine ⟨i, by omega, ?_⟩
      rw [usersEq, update_of_ne iKept, otherSeat]

/-- The servers agree on the tables up to the unused slots, on the counter and
on the children. -/
structure Agrees (server after : Server) : Prop where
  count : after.userCount = server.userCount
  table : after.subProcess = server.subProcess
  children : after.children = server.children
  users : ∀ i, i < server.userCount → after.users i = server.users i

theorem Agrees.childPids (agrees : Agrees server after) : after.childPids = server.childPids := by
  rw [Server.childPids, Server.childPids, agrees.children]

theorem Tracks.congr (tracks : Tracks server) (agrees : Agrees server after) : Tracks after := by
  refine ⟨?_, ?_, ?_, ?_, ?_, ?_⟩
  · rw [agrees.count]
    exact tracks.bounded
  · rw [agrees.childPids]
    exact tracks.distinct
  · rw [agrees.childPids]
    exact tracks.inTable
  · intro i bound
    rw [agrees.count] at bound
    rw [agrees.users i bound, agrees.table]
    exact tracks.recorded i bound
  · intro i bound
    rw [agrees.count] at bound
    rw [agrees.users i bound, agrees.childPids]
    exact tracks.live i bound
  · intro pid member
    rw [agrees.childPids] at member
    obtain ⟨i, bound, seat⟩ := tracks.seated pid member
    exact ⟨i, by rw [agrees.count]; exact bound, by rw [agrees.users i bound, seat]⟩

section Keeping

/-! What agreeing servers share and the reaping of a child keeps, every signal
keeps. -/

variable (Keeps : Server → Prop)
  (reaps : ∀ {server : Server} {pid : Pid},
    Keeps server → pid ∈ server.childPids → Keeps (reap server pid))

include reaps

theorem keeps_reapAll : ∀ {reaped : List Pid} {server after : Server}, Keeps server →
    reapAll server reaped = some after → Keeps after
  | [], _, _, keeps, done => by
    cases done
    exact keeps
  | pid :: rest, server, after, keeps, done => by
    simp only [reapAll] at done
    split at done
    · exact keeps_reapAll (reaps keeps ‹_›) done
    · cases done

variable (congr : ∀ {server after : Server}, Keeps server → Agrees server after → Keeps after)
include congr

theorem keeps_handleSignal (keeps : Keeps server)
    (handled : handleSignal server signal = some after) : Keeps after := by
  cases signal with
  | sigchld reaped =>
    simp only [handleSignal, Option.bind_eq_bind, Option.bind_eq_some_iff] at handled
    obtain ⟨middle, reapedAll, settled⟩ := handled
    have middleKeeps := keeps_reapAll Keeps reaps keeps reapedAll
    split at settled <;> cases settled
    · exact congr middleKeeps ⟨rfl, rfl, rfl, fun _ _ => rfl⟩
    · exact middleKeeps
  | sigterm | sigint =>
    simp only [handleSignal] at handled
    split at handled <;> cases handled <;> exact congr keeps ⟨rfl, rfl, rfl, fun _ _ => rfl⟩
  | other =>
    cases handled
    exact keeps

theorem keeps_handleSignals : ∀ {received : List Signal} {server after : Server}, Keeps server →
    handleSignals server received = some after → Keeps after
  | [], _, _, keeps, handled => by
    cases handled
    exact keeps
  | _ :: _, _, _, keeps, handled => by
    simp only [handleSignals, Option.bind_eq_bind, Option.bind_eq_some_iff] at handled
    obtain ⟨_, first, rest⟩ := handled
    exact keeps_handleSignals (keeps_handleSignal Keeps reaps congr keeps first) rest

end Keeping

/-- The tables are unchanged up to the unused slot, or a child has been forked into that slot. -/
theorem acceptConnection_cases
    (accepted : acceptConnection server connfd pipefd fork = some after) :
    Agrees server after ∨ ∃ pid, fork = .child pid ∧ server.userCount < userLimit ∧
      (pid ∉ server.childPids ∧ pid < processLimit) ∧ after.userCount = server.userCount + 1 ∧
      after.subProcess = update server.subProcess pid server.userCount ∧
      after.children = ⟨pid, server.userCount⟩ :: server.children ∧
      (after.users server.userCount).pid = pid ∧
      ∀ i, i < server.userCount → after.users i = server.users i := by
  have otherSlot : ∀ i, i < server.userCount → i ≠ server.userCount := by
    intro i bound
    omega
  simp only [acceptConnection] at accepted
  split at accepted
  · cases accepted
    exact .inl ⟨rfl, rfl, rfl, fun _ _ => rfl⟩
  · cases fork with
    | failed =>
      cases accepted
      refine .inl ⟨rfl, rfl, rfl, fun i bound => ?_⟩
      exact update_of_ne (otherSlot i bound) _ _
    | child pid =>
      simp only at accepted
      split at accepted
      · cases accepted
      · rename_i new
        cases accepted
        refine .inr ⟨pid, rfl, by omega, ?_, rfl, rfl, rfl, ?_, ?_⟩
        · exact ⟨(not_or.mp new).1, not_le.mp (not_or.mp new).2⟩
        · simp only [update_self]
        · intro i bound
          simp only [update_of_ne (otherSlot i bound)]

theorem tracks_acceptConnection (tracks : Tracks server)
    (accepted : acceptConnection server connfd pipefd fork = some after) : Tracks after := by
  rcases acceptConnection_cases accepted with
    agrees | ⟨pid, _, room, ⟨fresh, below⟩, count, table, children, seat, users⟩
  · exact tracks.congr agrees
  · have pids : after.childPids = pid :: server.childPids := by
      rw [Server.childPids, children]
      rfl
    refine ⟨by omega, ?_, ?_, ?_, ?_, ?_⟩
    · rw [pids]
      exact nodup_cons.mpr ⟨fresh, tracks.distinct⟩
    · rw [pids]
      exact forall_mem_cons.mpr ⟨below, tracks.inTable⟩
    · intro i bound
      by_cases newest : i = server.userCount
      · rw [newest, seat, table, update_self]
      · have older : i < server.userCount := by omega
        have otherPid : (server.users i).pid ≠ pid := by
          intro same
          exact fresh (same ▸ tracks.live i older)
        rw [users i older, table, update_of_ne otherPid]
        exact tracks.recorded i older
    · intro i bound
      rw [pids]
      by_cases newest : i = server.userCount
      · rw [newest, seat]
        exact mem_cons_self
      · have older : i < server.userCount := by omega
        rw [users i older]
        exact mem_cons_of_mem pid (tracks.live i older)
    · intro other member
      rw [pids] at member
      rcases mem_cons.mp member with same | older
      · exact ⟨server.userCount, by omega, by rw [same, seat]⟩
      · obtain ⟨i, bound, otherSeat⟩ := tracks.seated other older
        exact ⟨i, by omega, by rw [users i bound, otherSeat]⟩

theorem tracks_handleEvent (tracks : Tracks server)
    (handled : handleEvent server event = some after) : Tracks after := by
  cases event with
  | acceptFailed | recvFailed =>
    cases handled
    exact tracks
  | connection connfd pipefd fork => exact tracks_acceptConnection tracks handled
  | signals received => exact keeps_handleSignals Tracks tracks_reap Tracks.congr tracks handled
  | data sockfd child =>
    cases handled
    exact tracks.congr ⟨rfl, rfl, rfl, fun _ _ => rfl⟩

/-! ## Segments of the live children -/

/-- No two live children write the same shared-memory segment. -/
def SegmentsDistinct (server : Server) : Prop :=
  server.segments.Nodup

/-- A connection that is accepted below the limit and forks a child finds
no live child that was forked with `idx = user_count`. -/
def SegmentFree (server : Server) : Event → Prop
  | .connection _ _ (.child _) =>
    server.userCount < userLimit → server.userCount ∉ server.segments
  | _ => True

theorem segments_reap_sublist (server : Server) (pid : Pid) :
    (reap server pid).segments.Sublist server.segments := by
  have shrinks : ((server.children.filter (fun child => child.pid ≠ pid)).map Child.idx).Sublist
    server.segments := filter_sublist.map Child.idx
  simp only [reap]
  split
  · exact shrinks
  · exact shrinks

theorem segments_handleSignals_sublist {received : List Signal}
    (handled : handleSignals server received = some after) :
    after.segments.Sublist server.segments := by
  refine keeps_handleSignals (fun final => final.segments.Sublist server.segments)
    (fun shrinks _ => (segments_reap_sublist _ _).trans shrinks) ?_ (.refl _) handled
  intro first second shrinks agrees
  rw [Server.segments, agrees.children]
  exact shrinks

theorem segmentsDistinct_step_iff (distinct : SegmentsDistinct server)
    (handled : handleEvent server event = some after) :
    SegmentsDistinct after ↔ SegmentFree server event := by
  cases event with
  | acceptFailed | recvFailed | data =>
    cases handled
    exact ⟨fun _ => trivial, fun _ => distinct⟩
  | connection connfd pipefd fork =>
    rcases acceptConnection_cases handled with
      agrees | ⟨pid, forked, room, _, _, _, children, _, _⟩
    · have same : SegmentsDistinct after := by
        rw [SegmentsDistinct, Server.segments, agrees.children]
        exact distinct
      refine ⟨fun _ => ?_, fun _ => same⟩
      cases fork with
      | failed => trivial
      | child pid =>
        -- below the limit the fork would have added a child
        intro room
        simp only [handleEvent, acceptConnection, if_neg (not_le.mpr room)] at handled
        split at handled
        · cases handled
        · cases handled
          exact absurd agrees.count (succ_ne_self _)
    · subst forked
      rw [SegmentsDistinct, Server.segments, children, map_cons, nodup_cons]
      exact ⟨fun added _ => added.1, fun free => ⟨free room, distinct⟩⟩
  | signals received =>
    exact ⟨fun _ => trivial, fun _ =>
      (segments_handleSignals_sublist handled).nodup distinct⟩

/-- In a run of the parent loop, with pids below `PROCESS_LIMIT`, the segments of
the live children stay pairwise distinct exactly if no connection is accepted
while the child that was forked with `idx = user_count` is still alive. -/
theorem segments_distinct_iff (uninitialised : Nat → ClientData) (events : List Event)
    (final : Server) (executed :
      (parentLoop uninitialised).run (startServer uninitialised) events = some final) :
    (parentLoop uninitialised).AllStates SegmentsDistinct (startServer uninitialised) events ↔
      (parentLoop uninitialised).AllSteps SegmentFree (startServer uninitialised) events :=
  Machine.allStates_iff_allSteps (fun _ => True) (fun _ _ _ _ _ => trivial)
    (fun _ _ _ _ distinct handled => segmentsDistinct_step_iff distinct handled)
    trivial nodup_nil executed

instance (server : Server) (event : Event) : Decidable (SegmentFree server event) :=
  match event with
  | .connection _ _ (.child _) =>
    inferInstanceAs (Decidable (server.userCount < userLimit → server.userCount ∉ server.segments))
  | .connection _ _ .failed => isTrue trivial
  | .acceptFailed => isTrue trivial
  | .signals _ => isTrue trivial
  | .recvFailed => isTrue trivial
  | .data _ _ => isTrue trivial

private def blankUsers : Nat → ClientData :=
  fun _ => ⟨0, 0, 0, 0⟩

/-- Two clients join, the second leaves and a third one takes its slot. -/
private def rejoinAtEnd : List Event :=
  [.connection 7 (8, 9) (.child 101), .connection 7 (10, 11) (.child 102),
    .signals [.sigchld [102]], .connection 7 (12, 13) (.child 103)]

theorem segments_distinct_rejoinAtEnd :
    (parentLoop blankUsers).AllStates SegmentsDistinct (startServer blankUsers) rejoinAtEnd := by
  have executed : ((parentLoop blankUsers).run (startServer blankUsers) rejoinAtEnd).isSome := by
    decide
  obtain ⟨final, run⟩ := Option.isSome_iff_exists.mp executed
  exact (segments_distinct_iff blankUsers rejoinAtEnd final run).mpr (by decide)

/-- Three clients join and the first one leaves. The third child has been
moved down to slot 0 but still writes segment 2, which the next client
gets as well. -/
private def rejoinAfterMove : List Event :=
  [.connection 7 (8, 9) (.child 101), .connection 7 (10, 11) (.child 102),
    .connection 7 (12, 13) (.child 103), .signals [.sigchld [101]],
    .connection 7 (14, 15) (.child 104)]

theorem segments_shared_after_move :
    ¬ ∀ server, (parentLoop blankUsers).Reachable server → SegmentsDistinct server := by
  intro always
  obtain ⟨server, reached, shared⟩ := Machine.exists_reachable_of_run
    (parentLoop blankUsers) rejoinAfterMove (fun server => decide (¬ server.segments.Nodup))
    (by decide)
  exact of_decide_eq_true shared (always server reached)

/-! ## The two tables as inverses of each other -/

/-- `sub_process` and `users` are mutually inverse. -/
def TablesInverse (server : Server) : Prop :=
  (∀ i, i < server.userCount → server.subProcess (server.users i).pid = i) ∧
  ∀ pid < processLimit, (∀ i, i < server.userCount → (server.users i).pid ≠ pid) →
    server.subProcess pid = -1

/-- No pid of the `waitpid` loop is recorded at the last used slot when it
is its turn. -/
def ReapsBelowLast : Server → List Pid → Prop
  | _, [] => True
  | server, pid :: rest =>
    server.subProcess pid ≠ (server.userCount : Int) - 1 ∧ ReapsBelowLast (reap server pid) rest

def SignalBelowLast (server : Server) : Signal → Prop
  | .sigchld reaped => ReapsBelowLast server reaped
  | _ => True

def SignalsBelowLast : Server → List Signal → Prop
  | _, [] => True
  | server, signal :: rest =>
    SignalBelowLast server signal ∧
      match handleSignal server signal with
      | some after => SignalsBelowLast after rest
      | none => True

/-- The event reaps no child whose client sits in the last used slot. -/
def BelowLast (server : Server) : Event → Prop
  | .signals received => SignalsBelowLast server received
  | _ => True

/-- A pid that is no child any more but still has a position recorded. -/
def Stale (server : Server) (pid : Pid) : Prop :=
  pid ∉ server.childPids ∧ pid < processLimit ∧ server.subProcess pid ≠ -1

theorem Stale.not_tablesInverse (stale : Stale server pid) (tracks : Tracks server) :
    ¬ TablesInverse server := by
  rintro ⟨_, cleared⟩
  refine stale.2.2 (cleared pid stale.2.1 ?_)
  intro i bound same
  exact stale.1 (same ▸ tracks.live i bound)

/-- Reaping the child of the last slot writes `sub_process[pid]` back: the
entry moved onto itself still carries the pid just cleared. -/
theorem stale_reap_last (tracks : Tracks server) (child : pid ∈ server.childPids)
    (last : server.subProcess pid = (server.userCount : Int) - 1) :
    Stale (reap server pid) pid := by
  obtain ⟨slot, bound, seat, atSlot⟩ := tracks.slot_of_child child
  obtain ⟨_, _, tableEq⟩ := reap_of_slot tracks bound atSlot
  have slotLast : slot = server.userCount - 1 := by omega
  refine ⟨?_, tracks.inTable pid child, ?_⟩
  · rw [childPids_reap, mem_filter]
    rintro ⟨_, apart⟩
    simp at apart
  · rw [tableEq, ← slotLast, seat, update_self]
    omega

theorem Stale.reap {other : Pid}
    (stale : Stale server pid) (tracks : Tracks server) (child : other ∈ server.childPids) :
    Stale (reap server other) pid := by
  obtain ⟨slot, bound, _, atSlot⟩ := tracks.slot_of_child child
  obtain ⟨_, _, tableEq⟩ := reap_of_slot tracks bound atSlot
  have otherNe : pid ≠ other := fun same => stale.1 (same ▸ child)
  have lastNe : pid ≠ (server.users (server.userCount - 1)).pid := by
    intro same
    exact stale.1 (same ▸ tracks.live _ (by omega))
  refine ⟨?_, stale.2.1, ?_⟩
  · rw [childPids_reap, mem_filter]
    exact fun member => stale.1 member.1
  · rw [tableEq, update_of_ne lastNe, update_of_ne otherNe]
    exact stale.2.2

theorem tablesInverse_reap (tracks : Tracks server) (inverse : TablesInverse server)
    (child : pid ∈ server.childPids)
    (notLast : server.subProcess pid ≠ (server.userCount : Int) - 1) :
    TablesInverse (reap server pid) := by
  refine ⟨(tracks_reap tracks child).recorded, ?_⟩
  obtain ⟨slot, bound, seat, atSlot⟩ := tracks.slot_of_child child
  obtain ⟨usersEq, countEq, tableEq⟩ := reap_of_slot tracks bound atSlot
  have slotBelow : slot < server.userCount - 1 := by omega
  intro other below absent
  have otherNeLast : other ≠ (server.users (server.userCount - 1)).pid := by
    intro same
    refine absent slot (by omega) ?_
    rw [usersEq, update_self, same]
  rw [tableEq, update_of_ne otherNeLast]
  by_cases same : other = pid
  · rw [same, update_self]
  · rw [update_of_ne same]
    refine inverse.2 other below ?_
    intro i iBound seated
    by_cases iLast : i = server.userCount - 1
    · exact otherNeLast (iLast ▸ seated.symm)
    · have iKept : i ≠ slot := by
        rintro rfl
        exact same (seated.symm.trans seat)
      refine absent i (by omega) ?_
      rw [usersEq, update_of_ne iKept, seated]

theorem Stale.congr (stale : Stale server pid) (agrees : Agrees server after) :
    Stale after pid := by
  rw [Stale, agrees.childPids, agrees.table]
  exact stale

/-- A stale pid is kept together with `Tracks`. -/
def StaleAt (pid : Pid) (server : Server) : Prop :=
  Stale server pid ∧ Tracks server

theorem Stale.keeps {other : Pid} (stale : StaleAt pid server) (child : other ∈ server.childPids) :
    StaleAt pid (ShmTalkServer.reap server other) :=
  ⟨stale.1.reap stale.2 child, tracks_reap stale.2 child⟩

theorem reapAll_outcome :
    ∀ {reaped : List Pid} {server after : Server}, Tracks server → TablesInverse server →
      reapAll server reaped = some after → (ReapsBelowLast server reaped ∧ TablesInverse after) ∨
        (¬ ReapsBelowLast server reaped ∧ ∃ pid, Stale after pid)
  | [], _, _, _, inverse, done => by
    cases done
    exact Or.inl ⟨trivial, inverse⟩
  | pid :: rest, server, after, tracks, inverse, done => by
    simp only [reapAll] at done
    split at done
    · rename_i child
      have laterTracks := tracks_reap tracks child
      by_cases last :
        server.subProcess pid = (server.userCount : Int) - 1
      · have stale := stale_reap_last tracks child last
        have final := keeps_reapAll (StaleAt pid) Stale.keeps ⟨stale, laterTracks⟩ done
        exact .inr ⟨fun below => below.1 last, pid, final.1⟩
      · have laterInverse := tablesInverse_reap tracks inverse child last
        rcases reapAll_outcome laterTracks laterInverse done with
          ⟨below, final⟩ | ⟨notBelow, stale⟩
        · exact .inl ⟨⟨last, below⟩, final⟩
        · exact .inr ⟨fun below => notBelow below.2, stale⟩
    · cases done

theorem TablesInverse.congr (inverse : TablesInverse server) (agrees : Agrees server after) :
    TablesInverse after := by
  rw [TablesInverse, agrees.count, agrees.table]
  refine ⟨fun i bound => ?_, fun pid below absent => inverse.2 pid below fun i bound => ?_⟩
  · rw [agrees.users i bound]
    exact inverse.1 i bound
  · rw [← agrees.users i bound]
    exact absent i bound

theorem handleSignal_outcome (tracks : Tracks server) (inverse : TablesInverse server)
    (handled : handleSignal server signal = some after) :
    (SignalBelowLast server signal ∧ TablesInverse after) ∨
      (¬ SignalBelowLast server signal ∧ ∃ pid, Stale after pid) := by
  cases signal with
  | sigchld reaped =>
    simp only [handleSignal, Option.bind_eq_bind, Option.bind_eq_some_iff] at handled
    obtain ⟨middle, reapedAll, settled⟩ := handled
    have outcome := reapAll_outcome tracks inverse reapedAll
    split at settled <;> cases settled
    · rcases outcome with ⟨below, final⟩ | ⟨notBelow, pid, stale⟩
      · exact .inl ⟨below, final.congr ⟨rfl, rfl, rfl, fun _ _ => rfl⟩⟩
      · exact .inr ⟨notBelow, pid, stale.congr ⟨rfl, rfl, rfl, fun _ _ => rfl⟩⟩
    · exact outcome
  | sigterm | sigint =>
    simp only [handleSignal] at handled
    split at handled <;> cases handled <;>
      exact .inl ⟨trivial, inverse.congr ⟨rfl, rfl, rfl, fun _ _ => rfl⟩⟩
  | other =>
    cases handled
    exact .inl ⟨trivial, inverse⟩

theorem handleSignals_outcome :
    ∀ {received : List Signal} {server after : Server}, Tracks server → TablesInverse server →
      handleSignals server received = some after →
        (SignalsBelowLast server received ∧ TablesInverse after) ∨
          (¬ SignalsBelowLast server received ∧ ∃ pid, Stale after pid)
  | [], _, _, _, inverse, handled => by
    cases handled
    exact Or.inl ⟨trivial, inverse⟩
  | signal :: rest, server, after, tracks, inverse, handled => by
    simp only [handleSignals, Option.bind_eq_bind, Option.bind_eq_some_iff] at handled
    obtain ⟨middle, first, later⟩ := handled
    have middleTracks := keeps_handleSignal Tracks tracks_reap Tracks.congr tracks first
    simp only [SignalsBelowLast, first]
    rcases handleSignal_outcome tracks inverse first with
      ⟨below, middleInverse⟩ | ⟨notBelow, pid, stale⟩
    · rcases handleSignals_outcome middleTracks middleInverse later with
        ⟨restBelow, final⟩ | ⟨restNotBelow, stale⟩
      · exact .inl ⟨⟨below, restBelow⟩, final⟩
      · exact .inr ⟨fun all => restNotBelow all.2, stale⟩
    · have final := keeps_handleSignals (StaleAt pid) Stale.keeps
        (fun keeps agrees => ⟨keeps.1.congr agrees, keeps.2.congr agrees⟩)
        ⟨stale, middleTracks⟩ later
      exact .inr ⟨fun all => notBelow all.1, pid, final.1⟩

theorem tablesInverse_acceptConnection
    (tracks : Tracks server) (inverse : TablesInverse server) (accepted :
      acceptConnection server connfd pipefd fork = some after) : TablesInverse after := by
  rcases acceptConnection_cases accepted with
    agrees | ⟨forked, _, _, _, count, table, _, seat, users⟩
  · exact inverse.congr agrees
  · refine ⟨(tracks_acceptConnection tracks accepted).recorded, fun pid below absent => ?_⟩
    have pidNe : pid ≠ forked := by
      rintro rfl
      exact absent server.userCount (by omega) seat
    rw [table, update_of_ne pidNe]
    refine inverse.2 pid below ?_
    intro i bound seated
    exact absent i (by omega) (by rw [users i bound, seated])

theorem tablesInverse_step_iff (tracks : Tracks server) (inverse : TablesInverse server)
    (handled : handleEvent server event = some after) :
    TablesInverse after ↔ BelowLast server event := by
  cases event with
  | acceptFailed | recvFailed =>
    cases handled
    exact ⟨fun _ => trivial, fun _ => inverse⟩
  | connection connfd pipefd fork =>
    exact ⟨fun _ => trivial, fun _ => tablesInverse_acceptConnection tracks inverse handled⟩
  | signals received =>
    rcases handleSignals_outcome tracks inverse handled with
      ⟨below, final⟩ | ⟨notBelow, pid, stale⟩
    · exact ⟨fun _ => below, fun _ => final⟩
    · have finalTracks := keeps_handleSignals Tracks tracks_reap Tracks.congr tracks handled
      exact ⟨fun final => absurd final (stale.not_tablesInverse finalTracks),
        fun below => absurd below notBelow⟩
  | data sockfd child =>
    cases handled
    exact ⟨fun _ => trivial, fun _ => inverse.congr ⟨rfl, rfl, rfl, fun _ _ => rfl⟩⟩

/-- In a run of the parent loop, with pids below `PROCESS_LIMIT`, `users` and
`sub_process` are inverse tables after every event exactly if no reaped child
sits in the last used slot at the moment it is reaped. -/
theorem tables_inverse_iff (uninitialised : Nat → ClientData) (events : List Event) (final : Server)
    (executed :
      (parentLoop uninitialised).run (startServer uninitialised) events = some final) :
    (parentLoop uninitialised).AllStates TablesInverse (startServer uninitialised) events ↔
      (parentLoop uninitialised).AllSteps BelowLast (startServer uninitialised) events :=
  Machine.allStates_iff_allSteps Tracks
    (fun _ _ _ tracks handled => tracks_handleEvent tracks handled)
    (fun _ _ _ tracks inverse handled => tablesInverse_step_iff tracks inverse handled)
    (tracks_startServer uninitialised)
    ⟨fun _ impossible => absurd impossible (not_lt_zero _), fun _ _ _ => rfl⟩
    executed

/-- Three clients join and two of them die before the signal is handled,
each from a slot that is not the last one. -/
private def reapTwo : List Event :=
  [.connection 7 (8, 9) (.child 101), .connection 7 (10, 11) (.child 102),
    .connection 7 (12, 13) (.child 103), .signals [.sigchld [101, 103]]]

theorem tables_inverse_reapTwo :
    (parentLoop blankUsers).AllStates TablesInverse (startServer blankUsers) reapTwo := by
  have executed : ((parentLoop blankUsers).run (startServer blankUsers) reapTwo).isSome := by decide
  obtain ⟨final, run⟩ := Option.isSome_iff_exists.mp executed
  refine (tables_inverse_iff blankUsers reapTwo final run).mpr ?_
  refine ⟨trivial, trivial, trivial, ⟨⟨?_, ?_, trivial⟩, trivial⟩, trivial⟩
  · decide
  · decide

/-- A single client joins and leaves: its pid keeps position 0. -/
theorem tables_stale_after_last :
    ¬ ∀ server, (parentLoop blankUsers).Reachable server → TablesInverse server := by
  intro always
  obtain ⟨server, reached, stale⟩ := Machine.exists_reachable_of_run (parentLoop blankUsers)
    [.connection 7 (8, 9) (.child 101), .signals [.sigchld [101]]] (fun server =>
      decide (server.userCount = 0 ∧ server.subProcess 101 = 0))
    (by decide)
  obtain ⟨empty, recorded⟩ := of_decide_eq_true stale
  have cleared := (always server reached).2 101 (by decide) (by
    intro i bound
    omega)
  rw [recorded] at cleared
  exact absurd cleared (by decide)

end Skyc.Socket.ShmTalkServer
