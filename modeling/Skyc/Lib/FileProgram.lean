import Skyc.Lib.Transition
import Skyc.Lib.RecordLock

/-!
# Programs over shared files

A `Program` is what one call of a C function does to its files: system calls,
requests for record locks, loops, and a result or a failure that terminates the
process.  `Service.machine` interleaves processes that serve one call after the
other; a process whose lock request conflicts cannot move.
-/

namespace Skyc.Lib

open Function

/-! ## Files -/

/-- `read`: up to `count` bytes from `position` on. -/
def readAt (bytes : List UInt8) (position count : ℕ) : List UInt8 :=
  (bytes.drop position).take count

/-- `write` of at least one byte; a gap after the end is filled with
zeros. -/
def writeAt (bytes : List UInt8) (position : ℕ) (new : List UInt8) : List UInt8 :=
  bytes.take position ++ List.replicate (position - bytes.length) 0 ++
    (new ++ bytes.drop (position + new.length))

inductive Whence
  | seekSet
  | seekCur
  | seekEnd
deriving DecidableEq, Repr

def Whence.base (current size : ℕ) : Whence → ℕ
  | .seekSet => 0
  | .seekCur => current
  | .seekEnd => size

/-- System calls on a file, with the type of their results.  `lseek` returns
`-1` for an offset before the start, `fstat` the size of the file; vectored
reads and writes are single ones. -/
inductive FileOp (File : Type) : Type → Type
  | lseek (file : File) (offset : ℤ) (whence : Whence) : FileOp File ℤ
  | read (file : File) (count : ℕ) : FileOp File (List UInt8)
  | write (file : File) (bytes : List UInt8) : FileOp File ℕ
  | fstat (file : File) : FileOp File ℕ

/-- The result of a system call, the offsets of the calling process and the
files after it. -/
def FileOp.exec {File : Type} [DecidableEq File] (files : File → List UInt8) (offsets : File → ℕ) :
    {Result : Type} → FileOp File Result → Result × (File → ℕ) × (File → List UInt8)
  | _, .lseek file offset whence =>
    let target : ℤ := whence.base (offsets file) (files file).length + offset
    if target < 0 then
      (-1, offsets, files)
    else
      (target, update offsets file target.toNat, files)
  | _, .read file count =>
    let bytes := readAt (files file) (offsets file) count
    (bytes, update offsets file (offsets file + bytes.length), files)
  | _, .write file bytes =>
    (bytes.length, update offsets file (offsets file + bytes.length),
      update files file (writeAt (files file) (offsets file) bytes))
  | _, .fstat file => ((files file).length, offsets, files)

/-! ## Programs -/

/-- A program that ends in a value or a failure.  A loop runs its body until the body leaves it. -/
inductive Program (File Failure : Type) : Type → Type 1
  | done {Value : Type} (value : Value) : Program File Failure Value
  | abort {Value : Type} (failure : Failure) : Program File Failure Value
  | system {Value Result : Type} (operation : FileOp File Result)
    (rest : Result → Program File Failure Value) : Program File Failure Value
  | lock {Value : Type} (file : File) (mode : LockMode) (region : Region)
    (rest : Program File Failure Value) : Program File Failure Value
  | unlock {Value : Type} (file : File) (region : Region)
    (rest : Program File Failure Value) : Program File Failure Value
  | loop {Value State Left : Type}
    (body : State → Program File Failure (State ⊕ Left)) (state : State)
    (rest : Left → Program File Failure Value) : Program File Failure Value

namespace Program

variable {File Failure : Type}

protected def bind {Value Next : Type} : Program File Failure Value →
      (Value → Program File Failure Next) → Program File Failure Next
  | .done value, next => next value
  | .abort failure, _ => .abort failure
  | .system operation rest, next => .system operation fun result => (rest result).bind next
  | .lock file mode region rest, next => .lock file mode region (rest.bind next)
  | .unlock file region rest, next => .unlock file region (rest.bind next)
  | .loop body state rest, next => .loop body state fun left => (rest left).bind next

instance : Monad (Program File Failure) where
  pure := .done
  bind := Program.bind

def unroll {Value State Left : Type}
    (body : State → Program File Failure (State ⊕ Left)) (state : State)
    (rest : Left → Program File Failure Value) : Program File Failure Value :=
  body state >>= Sum.elim (fun again => .loop body again rest) rest

def perform {Result : Type} (operation : FileOp File Result) : Program File Failure Result :=
  .system operation .done

/-- `F_SETLKW`: wait for the lock. -/
def lockRegion (file : File) (mode : LockMode) (region : Region) : Program File Failure Unit :=
  .lock file mode region (.done ())

def unlockRegion (file : File) (region : Region) : Program File Failure Unit :=
  .unlock file region (.done ())

/-- Give up with `failure` if `bad` holds. -/
def failIf (bad : Prop) [Decidable bad] (failure : Failure) : Program File Failure Unit :=
  if bad then .abort failure else .done ()

def onlyIf (condition : Prop) [Decidable condition]
    (part : Program File Failure Unit) : Program File Failure Unit :=
  if condition then part else .done ()

/-- Run `body` from `state` until it leaves the loop. -/
def repeatFrom {State Left : Type} (state : State)
    (body : State → Program File Failure (State ⊕ Left)) : Program File Failure Left :=
  .loop body state .done

variable {bad condition : Prop} {failure : Failure}

section Equations

variable {Value Next Result State Left : Type} (next : Value → Program File Failure Next)
  (file : File) (mode : LockMode) (region : Region) (operation : FileOp File Result)
  (body : State → Program File Failure (State ⊕ Left)) (state : State)

@[simp]
theorem pure_eq_done (value : Value) :
    (pure value : Program File Failure Value) = .done value := rfl

@[simp]
theorem done_bind (value : Value) : (Program.done value >>= next) = next value := rfl

@[simp]
theorem abort_bind (failure : Failure) :
    ((Program.abort failure : Program File Failure Value) >>= next) = .abort failure := rfl

@[simp]
theorem system_bind (rest : Result → Program File Failure Value) :
    (Program.system operation rest >>= next) =
      .system operation fun result => rest result >>= next := rfl

@[simp]
theorem lock_bind (rest : Program File Failure Value) :
    (Program.lock file mode region rest >>= next) = .lock file mode region (rest >>= next) := rfl

@[simp]
theorem unlock_bind (rest : Program File Failure Value) :
    (Program.unlock file region rest >>= next) = .unlock file region (rest >>= next) := rfl

@[simp]
theorem loop_bind (rest : Left → Program File Failure Value) :
    (Program.loop body state rest >>= next) = .loop body state fun left => rest left >>= next := rfl

@[simp]
theorem perform_bind (rest : Result → Program File Failure Next) :
    (perform operation >>= rest) = .system operation rest := rfl

@[simp]
theorem repeatFrom_bind (rest : Left → Program File Failure Next) :
    (repeatFrom state body >>= rest) = .loop body state rest := rfl

section

variable (rest : Unit → Program File Failure Next)

@[simp]
theorem lockRegion_bind :
    (lockRegion file mode region >>= rest) = .lock file mode region (rest ()) := rfl

@[simp]
theorem unlockRegion_bind :
    (unlockRegion file region >>= rest) = .unlock file region (rest ()) := rfl

theorem failIf_bind_of_not [Decidable bad] (good : ¬ bad) :
    (failIf bad failure >>= rest) = rest () := by
  rw [failIf, if_neg good, done_bind]

theorem failIf_bind_of [Decidable bad] (holds : bad) :
    (failIf bad failure >>= rest) = .abort failure := by
  rw [failIf, if_pos holds, abort_bind]

theorem onlyIf_bind_of_not [Decidable condition] (part : Program File Failure Unit)
    (fails : ¬ condition) :
    (onlyIf condition part >>= rest) = rest () := by
  rw [onlyIf, if_neg fails, done_bind]

theorem onlyIf_bind_of [Decidable condition] (part : Program File Failure Unit)
    (holds : condition) :
    (onlyIf condition part >>= rest) = part >>= rest := by
  rw [onlyIf, if_pos holds]

end

@[simp]
theorem bind_bind {Last : Type} (program : Program File Failure Value)
    (last : Next → Program File Failure Last) :
    ((program >>= next) >>= last) = program >>= fun value => next value >>= last := by
  induction program with
  | done | abort => rfl
  | system operation rest ih => simp only [system_bind, ih]
  | lock file mode region rest ih => simp only [lock_bind, ih]
  | unlock file region rest ih => simp only [unlock_bind, ih]
  | loop body state rest _ ih => simp only [loop_bind, ih]

end Equations

/-! ## Steps of one process -/

variable {Process Value : Type} [DecidableEq Process] [DecidableEq File]

/-- One system call, lock request or round of a loop.  A request that
conflicts with another process has no step. -/
def step (process : Process) (files : File → List UInt8)
    (locks : List (Grant Process File)) (offsets : File → ℕ) : Program File Failure Value →
      Option (Program File Failure Value × (File → ℕ) ×
        (File → List UInt8) × List (Grant Process File))
  | .done _ => none
  | .abort _ => none
  | .system operation rest =>
    let (result, offsets, files) := operation.exec files offsets
    some (rest result, offsets, files, locks)
  | .lock file mode region rest =>
    if Grant.Grantable locks process file mode region then
      some (rest, offsets, files, Grant.acquire locks process file mode region)
    else
      none
  | .unlock file region rest => some (rest, offsets, files, Grant.release locks process file region)
  | .loop body state rest => some (unroll body state rest, offsets, files, locks)

/-- Run a program without interruption for at most `fuel` steps. -/
def solo (process : Process) : ℕ → (File → List UInt8) → List (Grant Process File) → (File → ℕ) →
      Program File Failure Value → Option (Program File Failure Value × (File → ℕ) ×
        (File → List UInt8) × List (Grant Process File))
  | _, files, locks, offsets, .done value => some (.done value, offsets, files, locks)
  | _, files, locks, offsets, .abort failure => some (.abort failure, offsets, files, locks)
  | 0, _, _, _, _ => none
  | fuel + 1, files, locks, offsets, program =>
    (program.step process files locks offsets).bind fun (program, offsets, files, locks) =>
      solo process fuel files locks offsets program

end Program

/-! ## Interleaved processes -/

/-- What a process is doing.  A failure has terminated it. -/
inductive Phase (File Failure Call Handle Answer : Type) : Type 1
  | idle
  | running (call : Call) (rest : Program File Failure (Handle × Answer))
  | failed (call : Call) (failure : Failure)

/-- A process: its file offsets, its handle and what it is doing. -/
structure Thread (File Failure Call Handle Answer : Type) where
  offsets : File → ℕ
  handle : Handle
  phase : Phase File Failure Call Handle Answer

structure Completed (Process Call Answer : Type) where
  process : Process
  call : Call
  answer : Answer
deriving DecidableEq, Repr

/-- The files, the lock table, the processes and the calls that have
returned so far. -/
structure Service (Process File Failure Call Handle Answer : Type) where
  files : File → List UInt8
  locks : List (Grant Process File)
  thread : Process → Thread File Failure Call Handle Answer
  history : List (Completed Process Call Answer)

namespace Service

variable {Process File Failure Call Handle Answer : Type} [DecidableEq Process] [DecidableEq File]

inductive Label (Process Call : Type)
  | start (process : Process) (call : Call)
  | step (process : Process)
deriving DecidableEq, Repr

/-- Where a process is once it has `rest` to do.  A failure terminates it and drops its locks. -/
def settle (service : Service Process File Failure Call Handle Answer)
    (process : Process) (call : Call) (offsets : File → ℕ) :
    Program File Failure (Handle × Answer) → Service Process File Failure Call Handle Answer
  | .done (handle, answer) =>
    { service with
      thread := update service.thread process ⟨offsets, handle, .idle⟩
      history := service.history ++ [⟨process, call, answer⟩] }
  | .abort failure =>
    { service with
      locks := service.locks.filter fun grant => grant.process ≠ process
      thread :=
        update service.thread process
          ⟨offsets, (service.thread process).handle, .failed call failure⟩ }
  | rest =>
    { service with
      thread :=
        update service.thread process
          ⟨offsets, (service.thread process).handle, .running call rest⟩ }

def next (program : Call → Handle → Program File Failure (Handle × Answer))
    (service : Service Process File Failure Call Handle Answer) : Label Process Call →
      Option (Service Process File Failure Call Handle Answer)
  | .start process call =>
    match (service.thread process).phase with
    | .idle =>
      some (service.settle process call (service.thread process).offsets
        (program call (service.thread process).handle))
    | _ => none
  | .step process =>
    match (service.thread process).phase with
    | .running call rest =>
      (rest.step process service.files service.locks (service.thread process).offsets).map
        fun (rest, offsets, files, locks) =>
          { service with files, locks }.settle process call offsets rest
    | _ => none

def busy (service : Service Process File Failure Call Handle Answer) (process : Process) : Bool :=
  match (service.thread process).phase with
  | .running _ _ => true
  | _ => false

/-- Let one process run until it has left its call, for at most `fuel`
steps. -/
def finish (program : Call → Handle → Program File Failure (Handle × Answer)) (process : Process) :
    ℕ → Service Process File Failure Call Handle Answer →
      Option (Service Process File Failure Call Handle Answer)
  | 0, service => if service.busy process then none else some service
  | fuel + 1, service =>
    if service.busy process then
      (service.next program (.step process)).bind (finish program process fuel)
    else
      some service

theorem finish_add {program : Call → Handle → Program File Failure (Handle × Answer)}
    {process : Process} {fuel : ℕ} {service final : Service Process File Failure Call Handle Answer}
    (finished : service.finish program process fuel = some final) (more : ℕ) :
    service.finish program process (fuel + more) = some final := by
  induction fuel generalizing service with
  | zero =>
    rw [finish] at finished
    split at finished
    case isTrue => cases finished
    case isFalse rests =>
      cases more with
      | zero => rw [finish, if_neg rests, finished]
      | succ more => rw [Nat.zero_add, finish, if_neg rests, finished]
  | succ fuel ih =>
    rw [finish] at finished
    rw [Nat.add_right_comm, finish]
    split at finished
    case isTrue works =>
      rw [if_pos works]
      obtain ⟨middle, moved, remaining⟩ := Option.bind_eq_some_iff.mp finished
      rw [moved]
      exact ih remaining
    case isFalse rests => rw [if_neg rests, finished]

/-- One process serves a call, for at most `fuel` steps. -/
def serve (program : Call → Handle → Program File Failure (Handle × Answer))
    (process : Process) (fuel : ℕ) (service : Service Process File Failure Call Handle Answer)
    (call : Call) : Option (Service Process File Failure Call Handle Answer) :=
  (service.next program (.start process call)).bind (finish program process fuel)

/-- One process serves one call after the other, with `fuel` steps for each
of them, until it is terminated. -/
def serveAll (program : Call → Handle → Program File Failure (Handle × Answer))
    (process : Process) (fuel : ℕ) : Service Process File Failure Call Handle Answer → List Call →
      Option (Service Process File Failure Call Handle Answer)
  | service, [] => some service
  | service, call :: rest =>
    (service.serve program process fuel call).bind fun after =>
      match (after.thread process).phase with
      | .failed _ _ => some after
      | _ => serveAll program process fuel after rest

theorem serveAll_add {program : Call → Handle → Program File Failure (Handle × Answer)}
    {process : Process} {fuel : ℕ} {service final : Service Process File Failure Call Handle Answer}
    {calls : List Call} (served : service.serveAll program process fuel calls = some final)
    (more : ℕ) : service.serveAll program process (fuel + more) calls = some final := by
  induction calls generalizing service with
  | nil => exact served
  | cons call rest ih =>
    obtain ⟨after, first, remaining⟩ := Option.bind_eq_some_iff.mp served
    obtain ⟨started, starts, finished⟩ := Option.bind_eq_some_iff.mp first
    rw [serveAll, serve, starts, Option.bind_some, finish_add finished more, Option.bind_some]
    split at remaining
    · exact remaining
    · exact ih remaining

end Service

end Skyc.Lib
