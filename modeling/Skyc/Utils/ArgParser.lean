import Skyc.Lib.CString
import Skyc.Lib.Decimal

/-!
# Options and commands

`ap_parse` stores the options that `getopt_long` returns and marks them as
seen.  One pass over the table then checks the required options and calls the
handler of the command.
-/

namespace Skyc.Utils.ArgParser

open Skyc.Lib List

/-- `enum ap_type_e` -/
inductive ApType where
  | cmd | bool | int | str | boolHandler | sentinel
deriving DecidableEq, Repr

/-- `struct ap_option`.  `required` and `seen` are the bits of `flags`. -/
structure ApOption (Data : Type) where
  shortName : ℤ
  longName : CString
  type : ApType
  offset : ℕ
  required : Bool
  seen : Bool
  validator : Option (Data → ℤ × Data)

inductive Value where
  | int (value : ℤ)
  | str (value : CString)

/-- The layout of the data, what `getopt_long` leaves of `argv`, and the result
of `fork`. -/
structure Environment (Data : Type) where
  store : ℕ → Value → Data → Data
  optind : ℕ
  rest : List CString
  fork : ℤ

/-- Why `ap_parse` calls `exit`. -/
inductive Exit where
  | help | usage | boolHandler | invalidType | validator | parent
  | mandatory (shortName : ℤ)
  | unknownCommand (name : Option CString)

/-- The table, the data and `do_fork` in the option loop. -/
structure Parsed (Data : Type) where
  options : List (ApOption Data)
  data : Data
  doFork : Bool

inductive Outcome (Data : Type) where
  | exited (reason : Exit)
  | returned (value : ℤ)
  | called (parsed : Parsed Data) (command : ApOption Data) (args : List CString)

variable {Data : Type} (env : Environment Data)

/-- The source has `atoi`; its truncation to an `int` is a part of `store`. -/
def storeOption (option : ApOption Data) (optarg : CString) (data : Data) : Except Exit Data :=
  match option.type with
  | .bool => .ok (env.store option.offset (.int 1) data)
  | .str => .ok (env.store option.offset (.str optarg) data)
  | .int => .ok (env.store option.offset (.int (atol optarg.bytes)) data)
  | .boolHandler => .error .boolHandler
  | .cmd | .sentinel => .error .invalidType

def validate (option : ApOption Data) (data : Data) : Except Exit Data :=
  match option.validator with
  | none => .ok data
  | some validator =>
    if (validator data).1 = 0 then .ok (validator data).2 else .error .validator

/-- The loop over what `getopt_long` returns. -/
def optionLoop : List (ℕ × CString) → Parsed Data → Except Exit (Parsed Data)
  | [], parsed => .ok parsed
  | (c, optarg) :: results, parsed =>
    if c = 'h'.toNat then .error .help
    else if c = 'q'.toNat then optionLoop results parsed
    else if c = 'f'.toNat then optionLoop results { parsed with doFork := true }
    else if c = '?'.toNat then .error .usage
    else
      let i := parsed.options.findIdx (·.shortName = (c : ℤ))
      match parsed.options[i]? with
      -- the entry behind the table has the type `AP_TYPE_SENTINEL`
      | none => .error .invalidType
      | some option => do
        let stored ← storeOption env option optarg parsed.data
        let data ← validate option stored
        optionLoop results
          { parsed with data, options := parsed.options.set i { option with seen := true } }

def callHandler (parsed : Parsed Data) (command : ApOption Data) : Outcome Data :=
  if parsed.doFork = true ∧ env.fork < 0 then .returned (-1)
  else if parsed.doFork = true ∧ env.fork ≠ 0 then .exited .parent
  else .called parsed command env.rest.tail

/-- The pass over the table, from one of its entries on. -/
def dispatch (parsed : Parsed Data) : List (ApOption Data) → Outcome Data
  | [] =>
    if parsed.options.any (·.shortName = -1) then .exited (.unknownCommand env.rest.head?)
    else .returned env.optind
  | option :: options =>
    if option.shortName ≠ -1 then
      if option.required = true ∧ option.seen = false then .exited (.mandatory option.shortName)
      else dispatch parsed options
    else if env.rest.head? = some option.longName then callHandler env parsed option
    else dispatch parsed options

def apParse (results : List (ℕ × CString)) (options : List (ApOption Data)) (data : Data) :
    Outcome Data :=
  match optionLoop env results ⟨options, data, false⟩ with
  | .error reason => .exited reason
  | .ok parsed => dispatch env parsed parsed.options

/-! ## Required options -/

/-- The entry is the command that `argv[optind]` names. -/
def named (option : ApOption Data) : Bool :=
  option.shortName = -1 ∧ env.rest.head? = some option.longName

/-- The entries in front of that command. -/
def front (options : List (ApOption Data)) : List (ApOption Data) :=
  options.takeWhile fun option => !named env option

/-- That command and the entries behind it. -/
def behind (options : List (ApOption Data)) : List (ApOption Data) :=
  options.dropWhile fun option => !named env option

def RequiredSeen (options : List (ApOption Data)) : Prop :=
  ∀ option ∈ options, option.shortName ≠ -1 → option.required = true → option.seen = true

/-- The process does not end at `fork`. -/
def Child (parsed : Parsed Data) : Prop :=
  parsed.doFork = true → env.fork = 0

variable {env} {parsed last : Parsed Data}

theorem callHandler_called_iff (command : ApOption Data) :
    (∃ called args, callHandler env parsed command = .called last called args) ↔
      last = parsed ∧ Child env parsed := by
  rw [callHandler, Child]
  split_ifs with failed parent
  · refine iff_of_false (by rintro ⟨_, _, impossible⟩; cases impossible) fun both => ?_
    exact Int.ne_of_lt failed.2 (both.2 failed.1)
  · refine iff_of_false (by rintro ⟨_, _, impossible⟩; cases impossible) fun both => ?_
    exact parent.2 (both.2 parent.1)
  · constructor
    · rintro ⟨_, _, same⟩
      cases same
      exact ⟨rfl, fun forks => not_not.mp fun notChild => parent ⟨forks, notChild⟩⟩
    · rintro ⟨rfl, _⟩
      exact ⟨_, _, rfl⟩

theorem dispatch_called_iff (options : List (ApOption Data)) :
    (∃ command args, dispatch env parsed options = .called last command args) ↔
      last = parsed ∧ Child env parsed ∧ (∃ option ∈ options, named env option = true) ∧
        RequiredSeen (front env options) := by
  induction options with
  | nil =>
    refine iff_of_false ?_ (by simp)
    rintro ⟨_, _, called⟩
    rw [dispatch] at called
    split at called <;> cases called
  | cons option options ih =>
    rw [dispatch, front, takeWhile_cons, exists_mem_cons_iff]
    by_cases isNamed : named env option = true
    · obtain ⟨isCommand, same⟩ := of_decide_eq_true isNamed
      rw [if_neg (not_not_intro isCommand), if_pos same, callHandler_called_iff]
      simp [isNamed, RequiredSeen]
    · have rest : (if (!named env option) = true then option :: front env options else []) =
        option :: front env options := if_pos (by simpa using isNamed)
      rw [← front, rest, RequiredSeen, forall_mem_cons, ← RequiredSeen, or_iff_right isNamed]
      split_ifs with isOption missing same
      · simp [missing, isOption]
      · have seen : option.required = true → option.seen = true := fun required =>
          Bool.eq_true_of_not_eq_false fun unseen => missing ⟨required, unseen⟩
        rw [ih, and_iff_right fun _ => seen]
      · exact absurd (decide_eq_true ⟨not_not.mp isOption, same⟩) isNamed
      · rw [ih, and_iff_right fun isOther => absurd isOther isOption]

/-- A handler is called only after every required option has been seen exactly
if those behind the command have been whenever those in front of it have. -/
theorem apParse_called_iff (env : Environment Data) (results : List (ℕ × CString))
    (options : List (ApOption Data)) (data : Data) :
    (∀ parsed command args, apParse env results options data = .called parsed command args →
        RequiredSeen parsed.options) ↔
      ∀ parsed, optionLoop env results ⟨options, data, false⟩ = .ok parsed → Child env parsed →
        (∃ option ∈ parsed.options, named env option = true) →
          RequiredSeen (front env parsed.options) → RequiredSeen (behind env parsed.options) := by
  constructor
  · intro seen parsed looped child isNamed seenBefore option member
    obtain ⟨command, args, called⟩ :=
      (dispatch_called_iff parsed.options).mpr ⟨rfl, child, isNamed, seenBefore⟩
    refine seen parsed command args ?_ option ((dropWhile_suffix _).subset member)
    rw [apParse, looped]
    exact called
  · intro seenBehind last command args called
    rw [apParse] at called
    split at called
    · cases called
    · rename_i parsed looped
      obtain ⟨rfl, child, isNamed, seenBefore⟩ :=
        (dispatch_called_iff parsed.options).mp ⟨command, args, called⟩
      rw [← @takeWhile_append_dropWhile _ (fun option => !named env option) last.options]
      exact forall_mem_append.mpr ⟨seenBefore, seenBehind last looped child isNamed seenBefore⟩

/-- A command in front of an option that is required and missing. -/
def lateOption : List (ApOption Unit) :=
  [⟨-1, ⟨[114], by decide⟩, .cmd, 0, false, false, none⟩,
    ⟨97, ⟨[97], by decide⟩, .bool, 0, true, false, none⟩]

theorem apParse_lateOption :
    ∃ command, apParse ⟨fun _ _ data => data, 1, [⟨[114], by decide⟩], 0⟩ [] lateOption () =
        .called ⟨lateOption, (), false⟩ command [] ∧
      ¬ RequiredSeen lateOption := by
  refine ⟨_, rfl, fun seen => ?_⟩
  cases seen _ (.tail _ (.head _)) (by decide) rfl

end Skyc.Utils.ArgParser
