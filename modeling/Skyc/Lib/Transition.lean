import Mathlib

/-!
# Step functions, runs and guarded reachability

A component is a partial step function: a label says which party moves and what
its environment answers.  `Machine.ReachableUnder` are the states reached by runs
whose steps all meet a condition on the state before the step.
-/

namespace Skyc.Lib

open Option

universe u v

structure Machine (State : Type u) (Label : Type v) where
  start : State
  next : State → Label → Option State

namespace Machine

variable {State : Type u} {Label : Type v} (machine : Machine State Label)

def run : State → List Label → Option State
  | state, [] => some state
  | state, label :: rest => (machine.next state label).bind (run · rest)

/-- States reached by runs whose steps all meet `condition`. -/
inductive ReachableUnder (condition : State → Label → Prop) : State → Prop
  | start : ReachableUnder condition machine.start
  | step {source target : State} {label : Label} : ReachableUnder condition source →
    condition source label →
    machine.next source label = some target →
    ReachableUnder condition target

def Reachable (state : State) : Prop :=
  machine.ReachableUnder (fun _ _ => True) state

variable {machine}

variable {condition : State → Label → Prop} {state source target : State} {labels : List Label}

variable {kept : State → Prop}

/-- A predicate that holds initially and is kept by every step meeting the condition
holds in every reached state. -/
theorem ReachableUnder.invariant
    (reached : machine.ReachableUnder condition state) (initially : kept machine.start) (step :
      ∀ source label target, machine.ReachableUnder condition source → kept source →
        condition source label →
        machine.next source label = some target → kept target) : kept state := by
  induction reached with
  | start => exact initially
  | step earlier meets moved ih => exact step _ _ _ earlier ih meets moved

theorem ReachableUnder.mono {strong weak : State → Label → Prop}
    (implies : ∀ source label, strong source label → weak source label)
    (reached : machine.ReachableUnder strong state) : machine.ReachableUnder weak state := by
  induction reached with
  | start => exact ReachableUnder.start
  | step _ meets moved ih => exact ReachableUnder.step ih (implies _ _ meets) moved

theorem ReachableUnder.reachable (reached : machine.ReachableUnder condition state) :
    machine.Reachable state := reached.mono fun _ _ _ => trivial

theorem Reachable.invariant
    (reached : machine.Reachable state) (initially : kept machine.start) (step :
      ∀ source label target, kept source → machine.next source label = some target →
        kept target) : kept state := ReachableUnder.invariant reached initially
    fun source label target _ holds _ moved =>
      step source label target holds moved

theorem Reachable.step {label : Label} (reached : machine.Reachable source)
    (moved : machine.next source label = some target) :
    machine.Reachable target := ReachableUnder.step reached trivial moved

theorem Reachable.of_run
    (reached : machine.Reachable source) (executed : machine.run source labels = some target) :
    machine.Reachable target := by
  induction labels generalizing source with
  | nil =>
    cases executed
    exact reached
  | cons label rest ih =>
    simp only [run, bind_eq_some_iff] at executed
    obtain ⟨middle, moved, remaining⟩ := executed
    exact ih (reached.step moved) remaining

/-- A computed run that ends in a state passing `test` yields a reachable
state with that property. -/
theorem exists_reachable_of_run (machine : Machine State Label)
    (labels : List Label) (test : State → Bool) (executed :
      (machine.run machine.start labels).map test = some true) :
    ∃ state, machine.Reachable state ∧ test state = true := by
  obtain ⟨state, ran, passes⟩ := map_eq_some_iff.mp executed
  exact ⟨state, Reachable.of_run ReachableUnder.start ran, passes⟩

/-! ## Properties of whole runs -/

/-- Every state visited by the run, the first one included, satisfies
`visited`. -/
def AllStates (machine : Machine State Label) (visited : State → Prop) : State → List Label → Prop
  | state, [] => visited state
  | state, label :: rest =>
    visited state ∧
      match machine.next state label with
      | some target => AllStates machine visited target rest
      | none => True

/-- Every step of the run meets `condition` in the state before it. -/
def AllSteps (machine : Machine State Label) (condition : State → Label → Prop) :
    State → List Label → Prop
  | _, [] => True
  | state, label :: rest =>
    condition state label ∧
      match machine.next state label with
      | some target => AllSteps machine condition target rest
      | none => True

instance decidableAllSteps (condition : State → Label → Prop)
    [∀ state label, Decidable (condition state label)] : ∀ (state : State) (labels : List Label),
      Decidable (machine.AllSteps condition state labels)
  | _, [] => isTrue trivial
  | state, label :: rest =>
    match moved : machine.next state label with
    | some target =>
      have := decidableAllSteps condition target rest
      decidable_of_iff (condition state label ∧
        machine.AllSteps condition target rest) (by simp only [AllSteps, moved])
    | none => decidable_of_iff (condition state label) (by simp only [AllSteps, moved, and_true])

theorem ReachableUnder.of_allSteps (reached : machine.ReachableUnder condition source)
    (meets : machine.AllSteps condition source labels)
    (executed : machine.run source labels = some target) :
    machine.ReachableUnder condition target := by
  induction labels generalizing source with
  | nil =>
    cases executed
    exact reached
  | cons label rest ih =>
    simp only [run, bind_eq_some_iff] at executed
    obtain ⟨middle, moved, remaining⟩ := executed
    simp only [AllSteps, moved] at meets
    exact ih (reached.step meets.1 moved) meets.2 remaining

theorem exists_reachableUnder_of_run (machine : Machine State Label)
    (condition : State → Label → Prop) (labels : List Label) (test : State → Bool)
    (meets : machine.AllSteps condition machine.start labels) (executed :
      (machine.run machine.start labels).map test = some true) :
    ∃ state, machine.ReachableUnder condition state ∧ test state = true := by
  obtain ⟨state, ran, passes⟩ := map_eq_some_iff.mp executed
  exact ⟨state, ReachableUnder.start.of_allSteps meets ran, passes⟩

/-- From a state that an invariant holds in, where no step is undefined, every
list of labels can be executed. -/
theorem exists_run_of_total (keeps : ∀ source label, kept source →
        ∃ target, machine.next source label = some target ∧ kept target)
    (labels : List Label) (holds : kept source) :
    ∃ final, machine.run source labels = some final ∧ kept final := by
  induction labels generalizing source with
  | nil => exact ⟨source, rfl, holds⟩
  | cons label rest ih =>
    obtain ⟨middle, moved, middleHolds⟩ := keeps source label holds
    obtain ⟨final, executed, finalHolds⟩ := ih middleHolds
    refine ⟨final, ?_, finalHolds⟩
    rw [run, moved, bind_some]
    exact executed

variable {visited : State → Prop}

theorem AllStates.first (all : machine.AllStates visited state labels) : visited state := by
  cases labels with
  | nil => exact all
  | cons _ _ => exact all.1

/-- When a step from a good state ends in a good state exactly if it meets
the condition, a run stays good exactly if all of its steps meet it.
`kept` is an invariant of all runs that the step argument may use. -/
theorem allStates_iff_allSteps (kept : State → Prop) (keeps :
      ∀ source label target, kept source → machine.next source label = some target →
        kept target) (exactStep :
      ∀ source label target, kept source → visited source →
        machine.next source label = some target → (visited target ↔ condition source label)) :
    ∀ {labels : List Label} {source final : State}, kept source → visited source →
      machine.run source labels = some final → (machine.AllStates visited source labels ↔
        machine.AllSteps condition source labels) := by
  intro labels
  induction labels with
  | nil =>
    intro source final _ good _
    exact ⟨fun _ => trivial, fun _ => good⟩
  | cons label rest ih =>
    intro source final holds good executed
    simp only [run, bind_eq_some_iff] at executed
    obtain ⟨middle, moved, remaining⟩ := executed
    have middleHolds := keeps source label middle holds moved
    have middleExact := exactStep source label middle holds good moved
    simp only [AllStates, AllSteps, moved]
    constructor
    · rintro ⟨_, later⟩
      have middleGood := later.first
      exact ⟨middleExact.mp middleGood, (ih middleHolds middleGood remaining).mp later⟩
    · rintro ⟨meets, later⟩
      have middleGood := middleExact.mpr meets
      exact ⟨good, (ih middleHolds middleGood remaining).mpr later⟩

end Machine

end Skyc.Lib
