import Skyc.Lib.Transition

/-!
# The thread pool

The main thread gives resources to `mln_thread_pool_resource_add`; the children
run `child_thread_launcher`, which takes them out of the chain and calls the
handler, or waits on the condition.

What a thread does under the mutex is cut into steps, and a wait can end at any
time, with a time-out or without.  No step reads the histories `added`, `taken`
and `passed`.
-/

namespace Skyc.Melon.ThreadPool

open Skyc.Lib List Nat Bool

universe u

/-- `++` and `--` of a `mln_u32_t` -/
def wrap : ℕ := 2 ^ 32

def incr (number : ℕ) : ℕ := (number + 1) % wrap

def decr (number : ℕ) : ℕ := (number + (wrap - 1)) % wrap

/-- Program points of `mln_thread_pool_resource_add`; `outside` is between two calls. -/
inductive MainPoint (Data : Type u) where
  | outside
  | lock (data : Option Data)
  | append (data : Option Data)
  | decide
  | create
  | signal
  | unlock
  deriving DecidableEq, Repr

/-- Program points of `child_thread_launcher`.  `timeout` is its local variable; a child
that is `woken` is still inside of the wait and needs the mutex to return from it. -/
inductive ChildPoint (Data : Type u) where
  | start
  | again (timeout : Bool)
  | remove (timeout : Bool)
  | waiting
  | woken (timedOut : Bool)
  | unlock (data : Data)
  | call (data : Data)
  | handler (data : Data)
  | relock
  | exit
  deriving DecidableEq, Repr

/-- `mln_thread_pool_member_t` of a child, with the place where its thread is. -/
structure Child (Data : Type u) where
  point : ChildPoint Data
  idle : Bool
  deriving DecidableEq, Repr

/-- `mln_thread_pool_t`.  A resource that is none is a null pointer; `mutex` says if some
thread has the mutex. -/
structure Pool (Data : Type u) where
  resources : List (Option Data)
  counter : ℕ
  idle : ℕ
  mutex : Bool
  main : MainPoint Data
  children : List (Child Data)
  added : List (Option Data)
  taken : List Data
  passed : List Data
  deriving DecidableEq, Repr

/-- What happens next: the main thread calls `mln_thread_pool_resource_add` or goes on in
it, its signal ends the wait of a child, a wait ends by itself, or a child goes on. -/
inductive Label (Data : Type u) where
  | add (data : Option Data)
  | main
  | signal (index : ℕ) (timedOut : Bool)
  | wake (index : ℕ) (timedOut : Bool)
  | child (index : ℕ)
  deriving DecidableEq, Repr

variable {index number : ℕ}

section

variable {Data : Type u}

def Child.waits (child : Child Data) : Bool :=
  match child.point with
  | .waiting => true
  | _ => false

/-- The pool that `mln_thread_pool_new` makes; the main thread is its only member. -/
def create : Pool Data where
  resources := []
  counter := 1
  idle := 1
  mutex := false
  main := .outside
  children := []
  added := []
  taken := []
  passed := []

/-- The main thread goes on in `mln_thread_pool_resource_add`. -/
def mainStep (max : ℕ) (pool : Pool Data) : Option (Pool Data) :=
  match pool.main with
  | .outside => none
  | .lock data =>
    if pool.mutex then none else some { pool with mutex := true, main := .append data }
  | .append data =>
    some { pool with
      resources := pool.resources ++ [data], added := pool.added ++ [data], main := .decide }
  | .decide =>
    if pool.idle ≤ 1 ∧ pool.counter < (max + 1) % wrap then
      -- `mln_thread_pool_member_join`
      some { pool with counter := incr pool.counter, idle := incr pool.idle, main := .create }
    else some { pool with main := .signal }
  | .create => some { pool with children := pool.children ++ [⟨.start, true⟩], main := .signal }
  | .signal => if pool.children.any Child.waits then none else some { pool with main := .unlock }
  | .unlock => some { pool with mutex := false, main := .outside }

/-- A child goes on in `child_thread_launcher`. -/
def childStep (pool : Pool Data) (index : ℕ) (child : Child Data) : Option (Pool Data) :=
  let move (point : ChildPoint Data) : List (Child Data) :=
    pool.children.set index ⟨point, child.idle⟩
  match child.point with
  | .start | .relock =>
    if pool.mutex then none
    else some { pool with mutex := true, children := move (.again false) }
  | .woken timedOut =>
    if pool.mutex then none
    else some { pool with mutex := true, children := move (.again timedOut) }
  | .again timeout =>
    if child.idle then some { pool with children := move (.remove timeout) }
    else
      some { pool with
        idle := incr pool.idle, children := pool.children.set index ⟨.remove timeout, true⟩ }
  | .remove timeout =>
    match pool.resources with
    | [] =>
      if timeout then some { pool with children := move .exit }
      else some { pool with mutex := false, children := move .waiting }
    | none :: rest => some { pool with resources := rest }
    | some data :: rest =>
      some { pool with
        resources := rest, idle := decr pool.idle, taken := pool.taken ++ [data],
        children := pool.children.set index ⟨.unlock data, false⟩ }
  | .waiting => none
  | .unlock data => some { pool with mutex := false, children := move (.call data) }
  | .call data =>
    some { pool with passed := pool.passed ++ [data], children := move (.handler data) }
  | .handler _ => some { pool with children := move .relock }
  | .exit =>
    -- `mln_thread_pool_member_exit`
    some { pool with
      counter := decr pool.counter,
      idle := if child.idle then decr pool.idle else pool.idle,
      mutex := false, children := pool.children.eraseIdx index }

def next (max : ℕ) (pool : Pool Data) : Label Data → Option (Pool Data)
  | .add data =>
    match pool.main with
    | .outside => some { pool with main := .lock data }
    | _ => none
  | .main => mainStep max pool
  | .signal index timedOut =>
    match pool.main, pool.children[index]? with
    | .signal, some ⟨.waiting, idle⟩ =>
      some { pool with
        main := .unlock, children := pool.children.set index ⟨.woken timedOut, idle⟩ }
    | _, _ => none
  | .wake index timedOut =>
    match pool.children[index]? with
    | some ⟨.waiting, idle⟩ =>
      some { pool with children := pool.children.set index ⟨.woken timedOut, idle⟩ }
    | _ => none
  | .child index => (pool.children[index]?).bind (childStep pool index)

/-- The pool and its threads, with at most `max` children. -/
def machine (Data : Type u) (max : ℕ) : Machine (Pool Data) (Label Data) where
  start := create
  next := next max

/-! ## What a step can do -/

/-- The moves of a child that touch nothing but its own place. -/
inductive Moves : ChildPoint Data → ChildPoint Data → Prop
  | wake (timedOut : Bool) : Moves .waiting (.woken timedOut)
  | idle (timeout : Bool) : Moves (.again timeout) (.remove timeout)
  | done (data : Data) : Moves (.handler data) .relock

inductive Asks : ChildPoint Data → Bool → Prop
  | start : Asks .start false
  | relock : Asks .relock false
  | woken (timedOut : Bool) : Asks (.woken timedOut) timedOut

/-- The steps of the pool, with a child between the other ones. -/
inductive Step (max : ℕ) (pool : Pool Data) : Pool Data → Prop
  | call (data : Option Data) (main : pool.main = .outside) :
    Step max pool { pool with main := .lock data }
  | mainLock {data : Option Data} (main : pool.main = .lock data) (free : pool.mutex = false) :
    Step max pool { pool with mutex := true, main := .append data }
  | append {data : Option Data} (main : pool.main = .append data) : Step max pool { pool with
    resources := pool.resources ++ [data], added := pool.added ++ [data], main := .decide }
  | join (main : pool.main = .decide) (nobody : pool.idle ≤ 1)
    (room : pool.counter < (max + 1) % wrap) : Step max pool { pool with
      counter := incr pool.counter, idle := incr pool.idle, main := .create }
  | noJoin (main : pool.main = .decide)
    (enough : ¬(pool.idle ≤ 1 ∧ pool.counter < (max + 1) % wrap)) :
    Step max pool { pool with main := .signal }
  | fork (main : pool.main = .create) : Step max pool { pool with
    children := pool.children ++ [⟨.start, true⟩], main := .signal }
  | noSignal (main : pool.main = .signal)
    (nobody : ∀ child ∈ pool.children, child.point ≠ .waiting) :
    Step max pool { pool with main := .unlock }
  | signal {before after : List (Child Data)} {idle : Bool} (timedOut : Bool)
    (main : pool.main = .signal)
    (children : pool.children = before ++ ⟨.waiting, idle⟩ :: after) : Step max pool { pool with
      main := .unlock, children := before ++ ⟨.woken timedOut, idle⟩ :: after }
  | mainUnlock (main : pool.main = .unlock) :
    Step max pool { pool with mutex := false, main := .outside }
  | move {before after : List (Child Data)} {idle : Bool} {source target : ChildPoint Data}
    (moves : Moves source target) (isIdle : ∀ timeout, source = .again timeout → idle = true)
    (children : pool.children = before ++ ⟨source, idle⟩ :: after) :
    Step max pool { pool with children := before ++ ⟨target, idle⟩ :: after }
  | lock {before after : List (Child Data)} {idle timeout : Bool} {source : ChildPoint Data}
    (asks : Asks source timeout) (free : pool.mutex = false)
    (children : pool.children = before ++ ⟨source, idle⟩ :: after) : Step max pool { pool with
      mutex := true, children := before ++ ⟨.again timeout, idle⟩ :: after }
  | setIdle {before after : List (Child Data)} {timeout : Bool}
    (children : pool.children = before ++ ⟨.again timeout, false⟩ :: after) :
    Step max pool { pool with
      idle := incr pool.idle, children := before ++ ⟨.remove timeout, true⟩ :: after }
  | giveUp {before after : List (Child Data)} {idle : Bool} (empty : pool.resources = [])
    (children : pool.children = before ++ ⟨.remove true, idle⟩ :: after) :
    Step max pool { pool with children := before ++ ⟨.exit, idle⟩ :: after }
  | wait {before after : List (Child Data)} {idle : Bool} (empty : pool.resources = [])
    (children : pool.children = before ++ ⟨.remove false, idle⟩ :: after) :
    Step max pool { pool with mutex := false, children := before ++ ⟨.waiting, idle⟩ :: after }
  | skip {before after : List (Child Data)} {idle timeout : Bool} {rest : List (Option Data)}
    (resources : pool.resources = none :: rest)
    (children : pool.children = before ++ ⟨.remove timeout, idle⟩ :: after) :
    Step max pool { pool with resources := rest }
  | take {before after : List (Child Data)} {idle timeout : Bool} {data : Data}
    {rest : List (Option Data)} (resources : pool.resources = some data :: rest)
    (children : pool.children = before ++ ⟨.remove timeout, idle⟩ :: after) :
    Step max pool { pool with
      resources := rest, idle := decr pool.idle, taken := pool.taken ++ [data],
      children := before ++ ⟨.unlock data, false⟩ :: after }
  | unlock {before after : List (Child Data)} {idle : Bool} {data : Data}
    (children : pool.children = before ++ ⟨.unlock data, idle⟩ :: after) :
    Step max pool { pool with mutex := false, children := before ++ ⟨.call data, idle⟩ :: after }
  | pass {before after : List (Child Data)} {idle : Bool} {data : Data}
    (children : pool.children = before ++ ⟨.call data, idle⟩ :: after) : Step max pool { pool with
      passed := pool.passed ++ [data], children := before ++ ⟨.handler data, idle⟩ :: after }
  | leave {before after : List (Child Data)} {idle : Bool}
    (children : pool.children = before ++ ⟨.exit, idle⟩ :: after) : Step max pool { pool with
      counter := decr pool.counter, idle := if idle then decr pool.idle else pool.idle,
      mutex := false, children := before ++ after }

variable {child other : Child Data} {max : ℕ} {pool target : Pool Data}
  {before after : List (Child Data)}

theorem split_at {children : List (Child Data)} (found : children[index]? = some child) :
    ∃ before after, children = before ++ child :: after ∧
      (∀ other, children.set index other = before ++ other :: after) ∧
      children.eraseIdx index = before ++ after := by
  induction children generalizing index with
  | nil => simp at found
  | cons head tail ih =>
    cases index with
    | zero =>
      simp only [getElem?_cons_zero, Option.some.injEq] at found
      exact ⟨[], tail, by simp [found], by simp, by simp⟩
    | succ index =>
      rw [getElem?_cons_succ] at found
      rcases ih found with ⟨before, after, children, sets, erases⟩
      exact ⟨head :: before, after, by rw [children]; rfl, by simp [sets], by simp [erases]⟩

theorem mainStep_step (moved : mainStep max pool = some target) : Step max pool target := by
  unfold mainStep at moved
  cases main : pool.main with simp only [main] at moved
  | outside => cases moved
  | lock data =>
    split_ifs at moved with taken
    cases moved
    exact .mainLock main (by simpa using taken)
  | append data =>
    cases moved
    exact .append main
  | decide =>
    split_ifs at moved with room
    · cases moved
      exact .join main room.1 room.2
    · cases moved
      exact .noJoin main room
  | create =>
    cases moved
    exact .fork main
  | signal =>
    split_ifs at moved with waits
    cases moved
    apply Step.noSignal main
    intro child member isWaiting
    apply waits
    rw [any_eq_true]
    exact ⟨child, member, by simp [Child.waits, isWaiting]⟩
  | unlock =>
    cases moved
    exact .mainUnlock main

theorem childStep_step (found : pool.children[index]? = some child)
    (moved : childStep pool index child = some target) : Step max pool target := by
  rcases split_at found with ⟨before, after, children, sets, erases⟩
  rcases child with ⟨point, idle⟩
  unfold childStep at moved
  simp only [sets, erases] at moved
  cases point with
  | start | relock | woken =>
    simp only at moved
    split_ifs at moved with taken
    cases moved
    exact .lock (by constructor) (by simpa using taken) children
  | again timeout =>
    simp only at moved
    cases idle with
    | true =>
      cases moved
      exact .move (.idle timeout) (fun _ _ => rfl) children
    | false =>
      cases moved
      exact .setIdle children
  | remove timeout =>
    simp only at moved
    cases resources : pool.resources with
    | nil =>
      simp only [resources] at moved
      cases timeout with
      | true =>
        cases moved
        rw [← resources]
        exact .giveUp resources children
      | false =>
        cases moved
        rw [← resources]
        exact .wait resources children
    | cons first rest =>
      simp only [resources] at moved
      cases first with
      | none =>
        cases moved
        exact .skip resources children
      | some data =>
        cases moved
        exact .take resources children
  | waiting => simp at moved
  | unlock data =>
    cases moved
    exact .unlock children
  | call data =>
    cases moved
    exact .pass children
  | handler data =>
    cases moved
    exact .move (.done data) (by simp) children
  | exit =>
    cases moved
    exact .leave children

theorem next_step {label : Label Data}
    (moved : next max pool label = some target) : Step max pool target := by
  cases label with simp only [next] at moved
  | add data =>
    split at moved
    · cases moved
      exact .call data ‹_›
    · cases moved
  | main => exact mainStep_step moved
  | signal index timedOut =>
    split at moved
    · rename_i idle main found
      rcases split_at found with ⟨before, after, children, sets, _⟩
      cases moved
      rw [sets]
      exact .signal timedOut main children
    · cases moved
  | wake index timedOut =>
    split at moved
    · rename_i idle found
      rcases split_at found with ⟨before, after, children, sets, _⟩
      cases moved
      rw [sets]
      exact .move (.wake timedOut) (by simp) children
    · cases moved
  | child index =>
    rcases Option.bind_eq_some_iff.mp moved with ⟨child, found, moves⟩
    exact childStep_step found moves

/-! ## The counters -/

def MainPoint.holds : MainPoint Data → Bool
  | .outside | .lock _ => false
  | _ => true

/-- A member that has joined, but whose thread is not there yet. -/
def MainPoint.joined : MainPoint Data → ℕ
  | .create => 1
  | _ => 0

def ChildPoint.holds : ChildPoint Data → Bool
  | .again _ | .remove _ | .unlock _ | .exit => true
  | _ => false

/-- From where a child has taken a resource up to where it asks for the mutex again. -/
def ChildPoint.busy : ChildPoint Data → Bool
  | .unlock _ | .call _ | .handler _ | .relock => true
  | _ => false

/-- A child is counted as idle unless it is busy; with the mutex taken, it may still have
to be counted. -/
def Child.Flagged (child : Child Data) : Prop :=
  (∃ timeout, child.point = .again timeout) ∨ child.idle = !child.point.busy

/-- The mutex has one owner, and the counters count. -/
structure Books (max : ℕ) (pool : Pool Data) : Prop where
  holders :
    pool.main.holds.toNat + pool.children.countP (fun child => child.point.holds) = pool.mutex.toNat
  counter : pool.counter = 1 + pool.children.length + pool.main.joined
  idle : pool.idle = 1 + pool.children.countP Child.idle + pool.main.joined
  bound : pool.counter ≤ max + 1
  flags : ∀ child ∈ pool.children, child.Flagged

theorem incr_eq (small : number + 1 < wrap) : incr number = number + 1 := mod_eq_of_lt small

theorem decr_eq (positive : 0 < number) (small : number < wrap) : decr number + 1 = number := by
  unfold decr
  have whole : number + (wrap - 1) = (number - 1) + wrap := by omega
  rw [whole, add_mod_right, mod_eq_of_lt (by omega)]
  omega

theorem countP_middle (counted : Child Data → Bool) (before after : List (Child Data))
    (child : Child Data) :
    (before ++ child :: after).countP counted =
      (before ++ after).countP counted + (counted child).toNat := by
  simp only [countP_append, countP_cons]
  cases counted child with
  | true =>
    simp only [if_true, toNat_true]
    omega
  | false => simp

theorem Books.idle_le (books : Books max pool) : pool.idle ≤ pool.counter := by
  have few := @countP_le_length _ Child.idle pool.children
  have counter := books.counter
  have idle := books.idle
  omega

theorem Child.Flagged.keep {source target : ChildPoint Data} {idle : Bool}
    (flag : Child.Flagged ⟨source, idle⟩) (notAgain : ∀ timeout, source ≠ .again timeout)
    (busy : target.busy = source.busy) : Child.Flagged ⟨target, idle⟩ := by
  rcases flag with ⟨timeout, again⟩ | flag
  · exact absurd again (notAgain timeout)
  · right
    simpa [busy] using flag

section

variable (books : Books max pool) (children : pool.children = before ++ child :: after)
include books children

/-- One child goes to another place, and the pool takes note of it. -/
theorem Books.replace (targetChildren : target.children = before ++ other :: after)
    (mainHolds : target.main.holds = pool.main.holds)
    (mainJoined : target.main.joined = pool.main.joined) (counter : target.counter = pool.counter)
    (mutex : target.mutex.toNat + child.point.holds.toNat =
      pool.mutex.toNat + other.point.holds.toNat)
    (idle : target.idle + child.idle.toNat = pool.idle + other.idle.toNat)
    (flagged : other.Flagged) : Books max target := by
  have holders := books.holders
  have counted := books.counter
  have idles := books.idle
  have flags := books.flags
  rw [children, countP_middle] at holders idles
  rw [children] at counted flags
  constructor
  · rw [targetChildren, countP_middle, mainHolds]
    omega
  · rw [targetChildren, mainJoined, counter, counted]
    simp
  · rw [targetChildren, countP_middle, mainJoined]
    omega
  · rw [counter]
    exact books.bound
  · rw [targetChildren]
    obtain ⟨left, right⟩ := forall_mem_append.mp flags
    exact forall_mem_append.mpr ⟨left, forall_mem_cons.mpr ⟨flagged, (forall_mem_cons.mp right).2⟩⟩

theorem Books.flag : child.Flagged := books.flags child (by simp [children])

theorem Books.locked (holds : child.point.holds = true) :
    pool.mutex = true := by
  have holders := books.holders
  rw [children, countP_middle, holds] at holders
  cases isMutex : pool.mutex with
  | true => rfl
  | false => simp [isMutex] at holders

end

theorem books_create (max : ℕ) : Books max (create : Pool Data) := by
  constructor <;> simp [create, MainPoint.holds, MainPoint.joined]

theorem books_step (small : max + 1 < wrap)
    (books : Books max pool) (step : Step max pool target) : Books max target := by
  have idleLe := books.idle_le
  have bound := books.bound
  cases step with
  | call | append | noJoin | noSignal | mainLock =>
    rcases books with ⟨holders, counter, idle, bound, flags⟩
    constructor <;> simp_all [MainPoint.holds, MainPoint.joined]
  | mainUnlock main =>
    rcases books with ⟨holders, counter, idle, bound, flags⟩
    have held : pool.mutex.toNat ≤ 1 := by cases pool.mutex <;> decide
    constructor
    · simp only [main, MainPoint.holds, toNat_true] at holders
      simp only [MainPoint.holds, toNat_false]
      omega
    · simpa [main, MainPoint.joined] using counter
    · simpa [main, MainPoint.joined] using idle
    · exact bound
    · exact flags
  | join main nobody room =>
    rw [mod_eq_of_lt small] at room
    rcases books with ⟨holders, counter, idle, bound, flags⟩
    constructor
    · simpa [main, MainPoint.holds] using holders
    · simp only [incr_eq (show pool.counter + 1 < wrap by omega), MainPoint.joined]
      simp only [main, MainPoint.joined] at counter
      omega
    · simp only [incr_eq (show pool.idle + 1 < wrap by omega), MainPoint.joined]
      simp only [main, MainPoint.joined] at idle
      omega
    · simp only [incr_eq (show pool.counter + 1 < wrap by omega)]
      omega
    · exact flags
  | fork main =>
    rcases books with ⟨holders, counter, idle, bound, flags⟩
    constructor
    · simpa [main, MainPoint.holds, ChildPoint.holds] using holders
    · simp only [main, MainPoint.joined] at counter
      simp only [MainPoint.joined, length_append, length_singleton]
      omega
    · simp only [main, MainPoint.joined] at idle
      simp only [MainPoint.joined, countP_append, countP_singleton, if_true]
      omega
    · exact bound
    · exact forall_mem_append.mpr ⟨flags, forall_mem_singleton.mpr (.inr rfl)⟩
  | signal timedOut main children =>
    have flag : Child.Flagged ⟨.woken timedOut, _⟩ := (books.flag children).keep (by simp) rfl
    refine books.replace children rfl ?_ ?_ rfl rfl rfl flag
    · rw [main]
      rfl
    · rw [main]
      rfl
  | move moves isIdle children =>
    have flag := books.flag children
    refine books.replace children rfl rfl rfl rfl ?_ rfl ?_
    · cases moves <;> rfl
    · cases moves with
      | wake | done => exact flag.keep (by simp) rfl
      | idle timeout => exact .inr (isIdle timeout rfl)
  | lock asks free children =>
    refine books.replace children rfl rfl rfl rfl ?_ rfl (.inl ⟨_, rfl⟩)
    rw [free]
    cases asks <;> rfl
  | @setIdle before after timeout children =>
    have idle := books.idle
    have counter := books.counter
    have few := @countP_le_length _ Child.idle (before ++ after)
    rw [children, countP_middle] at idle
    simp only [toNat_false] at idle
    simp only [children, length_append, length_cons] at counter few
    refine books.replace children rfl rfl rfl rfl rfl ?_ (.inr rfl)
    exact incr_eq (by omega)
  | giveUp empty children | pass children =>
    exact books.replace children rfl rfl rfl rfl rfl rfl ((books.flag children).keep (by simp) rfl)
  | wait empty children | unlock children =>
    refine books.replace children rfl rfl rfl rfl ?_ rfl ((books.flag children).keep (by simp) rfl)
    rw [books.locked children rfl]
    rfl
  | skip resources children =>
    exact { books with }
  | take resources children =>
    have counted := books.idle
    have isIdle := books.flag children
    refine books.replace children rfl rfl rfl rfl rfl ?_ (.inr rfl)
    rcases isIdle with ⟨_, again⟩ | isIdle
    · cases again
    · simp only at isIdle
      rw [isIdle]
      exact decr_eq (by omega) (by omega)
  | @leave before after idle children =>
    have isIdle : idle = true := by
      rcases books.flag children with ⟨_, again⟩ | flag
      · cases again
      · exact flag
    have isLocked := books.locked children rfl
    rcases books with ⟨holders, counter, idles, bound, flags⟩
    rw [children, countP_middle] at holders idles
    rw [children] at counter flags
    change pool.main.holds.toNat + (_ + 1) = pool.mutex.toNat at holders
    rw [isLocked, toNat_true] at holders
    simp only [isIdle, toNat_true] at idles
    simp only [length_append, length_cons] at counter
    have counterDecr := decr_eq (show 0 < pool.counter by omega) (by omega)
    have idleDecr := decr_eq (show 0 < pool.idle by omega) (by omega)
    constructor
    · simp only [toNat_false]
      omega
    · simp only [length_append]
      omega
    · simp only [isIdle, if_true]
      omega
    · simp only
      omega
    · intro child member
      apply flags child
      rcases mem_append.mp member with left | right
      · exact mem_append_left _ left
      · exact mem_append_right _ (mem_cons_of_mem _ right)

theorem books_reachable (small : max + 1 < wrap)
    (reached : (machine Data max).Reachable pool) : Books max pool :=
  reached.invariant (books_create max) fun _ _ _ books moved =>
    books_step small books (next_step moved)

/-! ## No resource is left alone -/

/-- A child that will look at the resources before it waits or leaves. -/
def ChildPoint.active : ChildPoint Data → Bool
  | .waiting | .exit => false
  | _ => true

/-- A child leaves only when there are no resources; as long as there are some, a child
will look at them. -/
structure Served (pool : Pool Data) : Prop where
  quiet : ∀ child ∈ pool.children, child.point = .exit → pool.resources = []
  served : pool.resources = [] ∨ (∃ child ∈ pool.children, child.point.active = true) ∨
    pool.main = .decide ∨ pool.main = .create ∨
    (pool.main = .signal ∧ ∃ child ∈ pool.children, child.point = .waiting)

theorem Books.alone (books : Books max pool)
    (holds : pool.main.holds = true) (member : child ∈ pool.children) :
    child.point.holds = false := by
  have holders := books.holders
  have one : pool.mutex.toNat ≤ 1 := by cases pool.mutex <;> decide
  rw [holds, toNat_true] at holders
  have nobody : pool.children.countP (fun child => child.point.holds) = 0 := by omega
  rw [countP_eq_zero] at nobody
  simpa using nobody child member

variable {point : ChildPoint Data}

theorem active_or_waiting (stays : point ≠ .exit) : point.active = true ∨ point = .waiting := by
  cases point <;> simp_all [ChildPoint.active]

/-- The resources and the main thread are as they were, and a child has gone to another
place. -/
theorem Served.replace (served : Served pool) (children : pool.children = before ++ child :: after)
    (targetChildren : target.children = before ++ other :: after)
    (resources : target.resources = [] ∨ pool.resources ≠ [] ∧ other.point.active = true) :
    Served target := by
  constructor
  · intro found member isExit
    rcases resources with empty | ⟨some_resource, active⟩
    · exact empty
    · rw [targetChildren] at member
      have earlier : found = other ∨ found ∈ pool.children := by
        rw [children]
        simp only [mem_append, mem_cons] at member ⊢
        tauto
      rcases earlier with rfl | earlier
      · rw [isExit] at active
        cases active
      · exact absurd (served.quiet found earlier isExit) some_resource
  · rcases resources with empty | ⟨_, active⟩
    · exact .inl empty
    · exact .inr (.inl ⟨other, by simp [targetChildren], active⟩)

theorem served_create : Served (create : Pool Data) := by
  constructor
  · simp [create]
  · exact .inl rfl

theorem served_step (positive : 1 ≤ max)
    (small : max + 1 < wrap) (books : Books max pool) (served : Served pool)
    (step : Step max pool target) : Served target := by
  -- a child that is active stays so, or there is nothing to do
  have becomes {before after : List (Child Data)} {child other : Child Data} {changed : Pool Data}
      (children : pool.children = before ++ child :: after)
      (targetChildren : changed.children = before ++ other :: after)
      (resources : changed.resources = pool.resources) (active : other.point.active = true) :
      Served changed := by
    apply served.replace children targetChildren
    by_cases empty : pool.resources = []
    · exact .inl (resources.trans empty)
    · exact .inr ⟨empty, active⟩
  cases step with
  | call data main | mainLock main free | mainUnlock main =>
    rcases served with ⟨quiet, served⟩
    refine ⟨quiet, ?_⟩
    simp_all
  | noSignal main nobody =>
    refine ⟨served.quiet, ?_⟩
    rcases served.served with empty | active | isMain | isMain | ⟨_, child, member, waiting⟩
    · exact .inl empty
    · exact .inr (.inl active)
    · rw [main] at isMain
      cases isMain
    · rw [main] at isMain
      cases isMain
    · exact absurd waiting (nobody child member)
  | append main =>
    refine ⟨?_, .inr (.inr (.inl rfl))⟩
    intro child member isExit
    have free := books.alone (by rw [main]; rfl) member
    rw [isExit] at free
    cases free
  | join main nobody room => exact ⟨served.quiet, .inr (.inr (.inr (.inl rfl)))⟩
  | noJoin main enough =>
    refine ⟨served.quiet, ?_⟩
    have counter := books.counter
    have idle := books.idle
    rw [mod_eq_of_lt small] at enough
    simp only [main, MainPoint.joined] at counter idle
    have some_child : pool.children ≠ [] := by
      intro nobody
      rw [nobody] at counter idle
      simp only [length_nil, countP_nil] at counter idle
      omega
    rcases exists_mem_of_ne_nil _ some_child with ⟨child, member⟩
    have stays : child.point ≠ .exit := by
      intro isExit
      have free := books.alone (by rw [main]; rfl) member
      rw [isExit] at free
      cases free
    rcases active_or_waiting stays with active | waiting
    · exact .inr (.inl ⟨child, member, active⟩)
    · exact .inr (.inr (.inr (.inr ⟨rfl, child, member, waiting⟩)))
  | fork main =>
    constructor
    · intro child member isExit
      rcases mem_append.mp member with earlier | new
      · exact served.quiet child earlier isExit
      · rw [mem_singleton.mp new] at isExit
        cases isExit
    · exact .inr (.inl ⟨⟨.start, true⟩, by simp, rfl⟩)
  | move moves isIdle children =>
    refine becomes children rfl rfl ?_
    cases moves <;> rfl
  | giveUp empty children | wait empty children => exact served.replace children rfl (.inl empty)
  | skip resources children =>
    exact served.replace children children (.inr ⟨by simp [resources], rfl⟩)
  | take resources children => exact served.replace children rfl (.inr ⟨by simp [resources], rfl⟩)
  | signal _ _ children | lock _ _ children | setIdle children | unlock children | pass children =>
    exact becomes children rfl rfl rfl
  | @leave before after idle children =>
    have empty := served.quiet ⟨.exit, idle⟩ (by rw [children]; simp) rfl
    exact ⟨fun _ _ _ => empty, .inl empty⟩

theorem served_reachable (positive : 1 ≤ max)
    (small : max + 1 < wrap) (reached : (machine Data max).Reachable pool) : Served pool :=
  Machine.ReachableUnder.invariant reached served_create fun _ _ _ earlier served _ moved =>
    served_step positive small (books_reachable small earlier.reachable) served (next_step moved)

/-! ## The order of the resources -/

/-- The resource that a child has taken and not yet passed to the handler. -/
def Child.carried (child : Child Data) : Option Data :=
  match child.point with
  | .unlock data | .call data => some data
  | _ => none

/-- The resources that are not null are taken in the order in which they were added, and
each one that is taken is passed to the handler or still carried by one child. -/
structure Ordered (pool : Pool Data) : Prop where
  order : pool.added.filterMap id = pool.taken ++ pool.resources.filterMap id
  once : List.Perm (pool.passed ++ pool.children.filterMap Child.carried) pool.taken

theorem Ordered.replace (ordered : Ordered pool)
    (children : pool.children = before ++ child :: after)
    (targetChildren : target.children = before ++ other :: after)
    (carried : other.carried = child.carried) (resources : target.resources = pool.resources)
    (added : target.added = pool.added) (taken : target.taken = pool.taken)
    (passed : target.passed = pool.passed) : Ordered target := by
  constructor
  · rw [added, taken, resources]
    exact ordered.order
  · have once := ordered.once
    rw [children] at once
    rw [targetChildren, passed, taken]
    simpa [filterMap_cons, carried] using once

theorem ordered_create : Ordered (create : Pool Data) := by
  constructor <;> simp [create]

theorem ordered_step (ordered : Ordered pool) (step : Step max pool target) : Ordered target := by
  cases step with
  | call | mainLock | join | noJoin | noSignal | mainUnlock => exact ⟨ordered.order, ordered.once⟩
  | append main =>
    refine ⟨?_, ordered.once⟩
    simp only [filterMap_append, ordered.order, append_assoc]
  | fork main =>
    refine ⟨ordered.order, ?_⟩
    simpa [filterMap_cons, Child.carried] using ordered.once
  | signal timedOut main children => exact ordered.replace children rfl rfl rfl rfl rfl rfl
  | move moves isIdle children =>
    refine ordered.replace children rfl ?_ rfl rfl rfl rfl
    cases moves <;> rfl
  | lock asks free children =>
    refine ordered.replace children rfl ?_ rfl rfl rfl rfl
    cases asks <;> rfl
  | setIdle children | giveUp empty children | wait empty children | unlock children =>
    exact ordered.replace children rfl rfl rfl rfl rfl rfl
  | skip resources children =>
    refine ⟨?_, ordered.once⟩
    simpa [resources] using ordered.order
  | @take before after idle timeout data rest resources children =>
    constructor
    · have order := ordered.order
      rw [resources] at order
      simpa using order
    · have once := ordered.once
      rw [children] at once
      simp only [filterMap_append, filterMap_cons, Child.carried] at once ⊢
      rw [← append_assoc] at once ⊢
      exact perm_middle.trans ((once.cons data).trans (perm_append_singleton data _).symm)
  | @pass before after idle data children =>
    refine ⟨ordered.order, ?_⟩
    have once := ordered.once
    rw [children] at once
    simp only [filterMap_append, filterMap_cons, Child.carried] at once ⊢
    refine Perm.trans ?_ once
    rw [append_assoc, singleton_append]
    exact Perm.append_left pool.passed perm_middle.symm
  | leave children =>
    refine ⟨ordered.order, ?_⟩
    have once := ordered.once
    rw [children] at once
    simpa [filterMap_cons, Child.carried] using once

/-! ## The pool as a whole -/

/-- A child runs the handler, or has given the mutex back to do so. -/
def ChildPoint.runs : ChildPoint Data → Bool
  | .call _ | .handler _ => true
  | _ => false

def ChildPoint.locks : ChildPoint Data → Bool
  | .start | .relock => true
  | _ => false

def ChildPoint.isWoken : ChildPoint Data → Bool
  | .woken _ => true
  | _ => false

theorem Books.free (books : Books max pool) (free : pool.mutex = false) :
    pool.main.holds = false ∧ ∀ child ∈ pool.children, child.point.holds = false := by
  have holders := books.holders
  rw [free, toNat_false] at holders
  have nobody : pool.children.countP (fun child => child.point.holds) = 0 := by omega
  rw [countP_eq_zero] at nobody
  constructor
  · cases holds : pool.main.holds with
    | true =>
      rw [holds, toNat_true] at holders
      omega
    | false => rfl
  · intro child member
    simpa using nobody child member

theorem Books.counts (books : Books max pool) (free : pool.mutex = false) :
    pool.counter = 1 + pool.children.length ∧
      pool.idle = 1 + pool.children.countP (fun child => !child.point.busy) := by
  have ⟨mainFree, childrenFree⟩ := books.free free
  have joined : pool.main.joined = 0 := by
    cases main : pool.main with
    | create =>
      rw [main] at mainFree
      cases mainFree
    | _ => rfl
  have flags :
      pool.children.countP Child.idle = pool.children.countP (fun child => !child.point.busy) := by
    apply countP_congr
    intro child member
    rcases books.flags child member with ⟨timeout, again⟩ | flag
    · have held := childrenFree child member
      rw [again] at held
      cases held
    · rw [flag]
  have counter := books.counter
  have idle := books.idle
  rw [joined] at counter idle
  exact ⟨counter, flags ▸ idle⟩

theorem active_free (active : point.active = true) (free : point.holds = false) :
    point.runs = true ∨ point.locks = true ∨ point.isWoken = true := by
  cases point <;> simp_all [ChildPoint.active, ChildPoint.holds, ChildPoint.runs,
    ChildPoint.locks, ChildPoint.isWoken]

/-- Whenever the mutex is free, the counters count the members of the pool and those that
do not serve a resource, and if there are resources, some child runs a handler, is about
to take the mutex or has been woken.  Resources are taken in the order in which they were
added, and passed to the handler at most once. -/
theorem pool_invariant (max : ℕ) (positive : 1 ≤ max) (small : max + 1 < wrap)
    (pool : Pool Data) (reached : (machine Data max).Reachable pool) :
    (pool.mutex = false → pool.counter = 1 + pool.children.length ∧
      pool.idle = 1 + pool.children.countP (fun child => !child.point.busy) ∧
      (pool.resources ≠ [] → ∃ child ∈ pool.children,
        child.point.runs = true ∨ child.point.locks = true ∨ child.point.isWoken = true)) ∧
    pool.taken <+: pool.added.filterMap id ∧ pool.passed.Subperm pool.taken := by
  have books := books_reachable small reached
  have served := served_reachable positive small reached
  have ordered : Ordered pool := reached.invariant ordered_create fun _ _ _ ordered moved =>
    ordered_step ordered (next_step moved)
  refine ⟨?_, ⟨_, ordered.order.symm⟩, ?_⟩
  · intro free
    have ⟨mainFree, childrenFree⟩ := books.free free
    refine ⟨(books.counts free).1, (books.counts free).2, ?_⟩
    intro some_resource
    rcases served.served with empty | ⟨child, member, active⟩ | isMain | isMain | ⟨isMain, _⟩
    · exact absurd empty some_resource
    · exact ⟨child, member, active_free active (childrenFree child member)⟩
    · rw [isMain] at mainFree
      cases mainFree
    · rw [isMain] at mainFree
      cases mainFree
    · rw [isMain] at mainFree
      cases mainFree
  · exact (sublist_append_left _ _).subperm.trans ordered.once.subperm

def firstAdd : List (Label ℕ) :=
  [.add (some 7), .main, .main, .main, .main, .main, .main]

theorem pool_invariant_firstAdd :
    ∃ pool, (machine ℕ 1).Reachable pool ∧
      (pool.mutex = false ∧ pool.resources = [some 7] ∧ pool.counter = 2) ∧
      ∃ child ∈ pool.children,
        child.point.runs = true ∨ child.point.locks = true ∨ child.point.isWoken = true := by
  have ⟨pool, reached, test⟩ := (machine ℕ 1).exists_reachable_of_run firstAdd
    (fun pool => decide (pool.mutex = false ∧ pool.resources = [some 7] ∧ pool.counter = 2))
    (by decide)
  have facts := of_decide_eq_true test
  refine ⟨pool, reached, facts, ?_⟩
  apply ((pool_invariant 1 (by decide) (by decide) pool reached).1 facts.1).2.2
  rw [facts.2.1]
  simp

/-- A child that has come back from the handler is not counted as idle before it has the
mutex; and a `max` of which `max + 1` is no `mln_u32_t` any more leaves the resources
without a child. -/
theorem pool_returned_and_wrapped :
    (∃ pool, (machine ℕ 1).Reachable pool ∧ pool.mutex = false ∧
      pool.idle ≠ 1 + pool.children.countP (fun child => !child.point.runs)) ∧
    ∃ pool, (machine ℕ (2 ^ 32 - 1)).Reachable pool ∧ pool.mutex = false ∧
      pool.resources ≠ [] ∧ pool.children = [] := by
  constructor
  · have ⟨pool, reached, test⟩ := (machine ℕ 1).exists_reachable_of_run
      (firstAdd ++ replicate 6 (.child 0)) (fun pool => decide (pool.mutex = false ∧
        pool.idle ≠ 1 + pool.children.countP (fun child => !child.point.runs))) (by decide)
    exact ⟨pool, reached, of_decide_eq_true test⟩
  · have ⟨pool, reached, test⟩ := (machine ℕ (2 ^ 32 - 1)).exists_reachable_of_run
      [.add (some 7), .main, .main, .main, .main, .main]
      (fun pool => decide (pool.mutex = false ∧ pool.resources ≠ [] ∧ pool.children = []))
      (by decide)
    exact ⟨pool, reached, of_decide_eq_true test⟩

/-! ## Calls that fail -/

/-- `mln_thread_pool_resource_add` from its call to its return, all under the mutex, with the
outcomes of `malloc`, of `mln_thread_pool_member_new` and of `pthread_create`; `12` is `ENOMEM`.
The last member of the chain has no thread if `rc` is not 0. -/
def resourceAdd (max : ℕ) (pool : Pool Data) (data : Option Data) (malloc member : Bool)
    (rc : ℤ) : ℤ × Pool Data :=
  if malloc = false then
    (12, pool)
  else
    let pool :=
      { pool with resources := pool.resources ++ [data], added := pool.added ++ [data] }
    if pool.idle ≤ 1 ∧ pool.counter < (max + 1) % wrap then
      if member = false then
        (12, pool)
      else
        (rc, { pool with
          counter := incr pool.counter
          idle := incr pool.idle
          children := pool.children ++ [⟨.start, true⟩] })
    else
      (0, pool)

/-- The steps of the machine are those of a call in which nothing fails. -/
theorem run_resourceAdd {data : Option Data} (main : pool.main = .outside)
    (free : pool.mutex = false) (nobody : ∀ child ∈ pool.children, ¬ child.waits = true)
    (joins : pool.idle ≤ 1 ∧ pool.counter < (max + 1) % wrap) :
    (machine Data max).run pool (.add data :: replicate 6 .main) =
      some (resourceAdd max pool data true true 0).2 := by
  obtain ⟨resources, counter, idle, mutex, main, children, added, taken, passed⟩ := pool
  subst main free
  have quiet : ¬ ∃ child ∈ children, child.waits = true := by simpa using nobody
  have started : (⟨.start, true⟩ : Child Data).waits = false := rfl
  simp [replicate, Machine.run, machine, next, mainStep, resourceAdd, joins.1, joins.2, quiet,
    started]

structure Untouched (pool target : Pool Data) : Prop where
  counter : target.counter = pool.counter
  idle : target.idle = pool.idle
  children : target.children = pool.children
  resources : target.resources = pool.resources

/-- A call that fails leaves the pool as it was exactly if `malloc` is what failed. -/
theorem resource_add_untouched_iff (max : ℕ) (pool : Pool Data) (data : Option Data)
    (malloc member : Bool) (rc : ℤ) :
    ((resourceAdd max pool data malloc member rc).1 ≠ 0 →
        Untouched pool (resourceAdd max pool data malloc member rc).2) ↔
      malloc = false ∨ ¬(pool.idle ≤ 1 ∧ pool.counter < (max + 1) % wrap) ∨
        (member = true ∧ rc = 0) := by
  have queued : pool.resources ++ [data] ≠ pool.resources := by simp
  simp only [resourceAdd]
  split_ifs with noMemory joins noMember
  · exact iff_of_true (fun _ => ⟨rfl, rfl, rfl, rfl⟩) (.inl noMemory)
  · refine iff_of_false (fun kept => queued (kept (by simp)).resources) ?_
    simp [noMemory, joins, noMember]
  · rw [or_iff_right noMemory, or_iff_right (not_not.mpr joins),
      and_iff_right (eq_true_of_not_eq_false noMember)]
    refine ⟨fun kept => ?_, fun created failed => absurd created failed⟩
    by_contra failed
    exact queued (kept failed).resources
  · exact iff_of_true (fun failed => absurd rfl failed) (.inr (.inl joins))

/-- `pthread_create` fails for the first resource: it stays in the queue, and a member without
a thread is counted, so that `mln_thread_pool_run` waits for ever for the counter to be 1. -/
theorem resource_add_without_thread :
    (resourceAdd 1 (create : Pool ℕ) (some 7) true true 11).1 = 11 ∧
      (resourceAdd 1 (create : Pool ℕ) (some 7) true true 11).2.resources = [some 7] ∧
      (resourceAdd 1 (create : Pool ℕ) (some 7) true true 11).2.counter = 2 ∧
      ¬ Untouched create (resourceAdd 1 (create : Pool ℕ) (some 7) true true 11).2 :=
  ⟨by decide, by decide, by decide, fun kept => absurd kept.counter (by decide)⟩

end

end Skyc.Melon.ThreadPool
