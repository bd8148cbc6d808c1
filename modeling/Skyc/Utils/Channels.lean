import Skyc.Lib.Transition
import Skyc.Utils.Hashmap.Iterator

/-!
# The channel manager

`channel.c` keeps the open channels in a hash map from device names.  A new channel
is given the incremented `open_channels` as its id, and closing a channel decrements
the counter.  The setup of a transport may succeed or fail.
-/

namespace Skyc.Utils.Channels

open Skyc.Lib Function Option List Finset
open Skyc.Utils.Hashmap

/-! ## The functions of `channel.c` -/

/-- `enum channel_errors` -/
inductive ChannelError
  | none
  | alreadyOpen
  | openFailed
  | unknownType
  | notOpen
  | oom
deriving DecidableEq, Repr

/-- `enum channel_type` -/
inductive ChannelType
  | err
  | uart
  | msgq
  | fifo
  | unixBus
  | sentinel
deriving DecidableEq, Repr

def ChannelType.code : ChannelType → ℕ
  | .err => 0
  | .uart => 1
  | .msgq => 2
  | .fifo => 3
  | .unixBus => 4
  | .sentinel => 5

structure Channel (Data : Type) where
  id : Int
  speed : Int
  device : CString
  isServer : Int
  type : ChannelType
  data : Data

structure ChannelManager (Data : Type) where
  openChannels : Int
  channels : HashMap (Channel Data)

variable {Data : Type}

/-- The arguments of `channel_open`, and what `calloc` and the setup of the
transport do during the call. -/
structure OpenCall (Data : Type) where
  type : ChannelType
  device : Option CString
  speed : Int
  isServer : Int
  allocated : Bool
  setup : Option Data

def channelOpen (config : Config) (ctx : ChannelManager Data)
    (call : OpenCall Data) : Option (ChannelError × ChannelManager Data) :=
  if call.type.code ≤ ChannelType.err.code ∨ ChannelType.sentinel.code ≤ call.type.code then
    some (.unknownType, ctx)
  else
    match call.device with
    | none => some (.openFailed, ctx)
    | some device => do
      match ← hashMapGet config ctx.channels (some device) 0 with
      | some _ => some (.alreadyOpen, ctx)
      | none =>
        if call.allocated then
          match call.setup with
          | none => some (.openFailed, ctx)
          | some data => do
            let openChannels := ctx.openChannels + 1
            let channel : Channel Data :=
              { id := openChannels
                speed := call.speed
                device := device
                isServer := call.isServer
                type := call.type
                data := data }
            let (channels, _) ← hashMapInsert config ctx.channels device (some channel)
            some (.none, { openChannels := openChannels, channels := channels })
        else
          some (.oom, ctx)

/-- What `channel_get` stores: the id, the data of the transport, and the
type, which stands for its row of `g_channel_ops`. -/
structure Reported (Data : Type) where
  id : Int
  data : Data
  type : ChannelType

def channelGet (config : Config) (ctx : ChannelManager Data) (device : CString) :
    Option (ChannelError × Option (Reported Data)) := do
  match ← hashMapGet config ctx.channels (some device) 0 with
  | none => some (.notOpen, none)
  | some channel =>
    some (.none, some
      { id := channel.id
        data := channel.data
        type := channel.type })

def channelClose (config : Config) (ctx : ChannelManager Data)
    (device : CString) : Option (ChannelError × ChannelManager Data) := do
  match ← hashMapGet config ctx.channels (some device) 0 with
  | none => some (.notOpen, ctx)
  | some _ =>
    let (channels, _) ← hashMapDelete config ctx.channels (some device) 0
    some (.none, { openChannels := ctx.openChannels - 1, channels := channels })

/-! ## Sequences of calls -/

inductive Call (Data : Type)
  | channelOpen (call : OpenCall Data)
  | channelClose (device : CString)

/-- A manager after `channel_manager_init`, with `open_channels` 0. -/
def manager (Data : Type) (config : Config) : Machine (ChannelManager Data) (Call Data) where
  start := { openChannels := 0, channels := hashMapInit }
  next := fun ctx call =>
    match call with
    | .channelOpen call => (channelOpen config ctx call).map Prod.snd
    | .channelClose device => (channelClose config ctx device).map Prod.snd

/-- `channel_get` reports `id` for `device`. -/
def HasId (config : Config) (ctx : ChannelManager Data) (device : CString) (id : Int) : Prop :=
  ∃ reported, channelGet config ctx device = some (.none, some reported) ∧ reported.id = id

def IdsDistinct (config : Config) (ctx : ChannelManager Data) : Prop :=
  ∀ one other id, HasId config ctx one id → HasId config ctx other id → one = other

/-- A call that opens a channel finds no open channel with the id
`open_channels + 1`. -/
def IdFree (config : Config) (ctx : ChannelManager Data) : Call Data → Prop
  | .channelOpen call =>
    (∃ after, channelOpen config ctx call = some (.none, after)) →
      ∀ device, ¬ HasId config ctx device (ctx.openChannels + 1)
  | .channelClose _ => True

/-! ## The open channels -/

/-- The hash map holds exactly the channels `opened`. -/
def Represents (config : Config) (ctx : ChannelManager Data)
    (opened : CString → Option (Channel Data)) : Prop :=
  ∃ chains, Valid config ctx.channels chains (Option.map some ∘ opened)

variable {device : CString}

section Calls

variable {config : Config} {ctx : ChannelManager Data} {opened : CString → Option (Channel Data)}

section

variable (holds : Represents config ctx opened)
include holds

theorem Represents.get (device : CString) :
    hashMapGet config ctx.channels (some device) 0 = some (opened device) := by
  obtain ⟨chains, valid⟩ := holds
  rw [hashMapGet_spec valid, comp_apply]
  cases opened device <;> rfl

theorem Represents.hasId_iff (device : CString) (id : Int) :
    HasId config ctx device id ↔ ∃ channel, opened device = some channel ∧ channel.id = id := by
  simp only [HasId, channelGet, holds.get, some_bind]
  cases opened device with
  | none | some => simp

/-- A call that passes all checks opens the channel, with the incremented
counter as its id. -/
theorem Represents.opens {call : OpenCall Data} {data : Data} (known :
      ¬ (call.type.code ≤ ChannelType.err.code ∨ ChannelType.sentinel.code ≤ call.type.code))
    (isDevice : call.device = some device) (isNew : opened device = none)
    (allocated : call.allocated = true) (setup : call.setup = some data) :
    ∃ channel after, channelOpen config ctx call = some (.none, after) ∧
      channel.id = ctx.openChannels + 1 ∧ after.openChannels = ctx.openChannels + 1 ∧
      Represents config after (update opened device (some channel)) := by
  let channel : Channel Data :=
    { id := ctx.openChannels + 1
      speed := call.speed
      device := device
      isServer := call.isServer
      type := call.type
      data := data }
  have found := holds.get device
  obtain ⟨chains, valid⟩ := holds
  obtain ⟨channels, chainsAfter, inserted, validAfter⟩ :=
    hashMapInsert_spec valid device (some channel)
  refine ⟨channel, { openChannels := ctx.openChannels + 1, channels := channels },
    ?_, rfl, rfl, chainsAfter, ?_⟩
  · simp only [channelOpen, isDevice, found, isNew, allocated, setup,
      bind_eq_bind, bind_some, if_true]
    rw [if_neg known, inserted, bind_some]
  · rw [comp_update]
    exact validAfter

/-- A call of `channel_open` fails without a change, or opens a channel. -/
theorem channelOpen_spec (call : OpenCall Data) :
    (∃ error, error ≠ .none ∧ channelOpen config ctx call = some (error, ctx)) ∨
    ∃ device channel after, call.device = some device ∧ opened device = none ∧
      channelOpen config ctx call = some (.none, after) ∧
      channel.id = ctx.openChannels + 1 ∧ after.openChannels = ctx.openChannels + 1 ∧
      Represents config after (update opened device (some channel)) := by
  by_cases known : call.type.code ≤ ChannelType.err.code ∨
    ChannelType.sentinel.code ≤ call.type.code
  · left
    refine ⟨.unknownType, nofun, ?_⟩
    rw [channelOpen, if_pos known]
  cases isDevice : call.device with
  | none =>
    left
    refine ⟨.openFailed, nofun, ?_⟩
    rw [channelOpen, if_neg known, isDevice]
  | some device =>
    have found := holds.get device
    cases isOpen : opened device with
    | some channel =>
      left
      refine ⟨.alreadyOpen, nofun, ?_⟩
      simp only [channelOpen, isDevice, found, isOpen, some_bind]
      rw [if_neg known]
    | none =>
      by_cases allocated : call.allocated = true
      · cases setup : call.setup with
        | none =>
          left
          refine ⟨.openFailed, nofun, ?_⟩
          simp only [channelOpen, isDevice, found, isOpen, allocated, setup, some_bind, if_true]
          rw [if_neg known]
        | some data =>
          right
          obtain ⟨channel, after, opens⟩ := holds.opens known isDevice isOpen allocated setup
          exact ⟨device, channel, after, rfl, isOpen, opens⟩
      · left
        refine ⟨.oom, nofun, ?_⟩
        simp only [channelOpen, isDevice, found, isOpen, some_bind]
        rw [if_neg known, if_neg allocated]

/-- A call of `channel_close` fails without a change, or closes an open
channel. -/
theorem channelClose_spec (device : CString) :
    (opened device = none ∧ channelClose config ctx device = some (.notOpen, ctx)) ∨
    ∃ after, opened device ≠ none ∧ channelClose config ctx device = some (.none, after) ∧
      after.openChannels = ctx.openChannels - 1 ∧
      Represents config after (update opened device none) := by
  have found := holds.get device
  cases isOpen : opened device with
  | none =>
    left
    refine ⟨rfl, ?_⟩
    simp only [channelClose, found, isOpen, some_bind]
  | some channel =>
    right
    obtain ⟨chains, valid⟩ := holds
    obtain ⟨channels, chainsAfter, deleted, validAfter⟩ := hashMapDelete_spec valid device 0
    refine ⟨{ openChannels := ctx.openChannels - 1,
              channels := channels }, nofun, ?_, rfl, chainsAfter, ?_⟩
    · simp only [channelClose, found, isOpen, deleted, some_bind]
    · rw [comp_update]
      exact validAfter

end

end Calls

/-! ## Distinct ids -/

section Ids

variable {config : Config} {ctx after : ChannelManager Data}
  {opened : CString → Option (Channel Data)}

variable (holds : Represents config ctx opened)

include holds in
theorem Represents.idsDistinct_iff :
    IdsDistinct config ctx ↔
      ∀ one other first second, opened one = some first → opened other = some second →
        first.id = second.id → one = other := by
  constructor
  · intro distinct one other first second isOne isOther sameId
    apply distinct one other second.id
    · exact (holds.hasId_iff one second.id).mpr ⟨first, isOne, sameId⟩
    · exact (holds.hasId_iff other second.id).mpr ⟨second, isOther, rfl⟩
  · intro distinct one other id hasOne hasOther
    obtain ⟨first, isOne, firstId⟩ := (holds.hasId_iff one id).mp hasOne
    obtain ⟨second, isOther, secondId⟩ := (holds.hasId_iff other id).mp hasOther
    exact distinct one other first second isOne isOther (firstId.trans secondId.symm)

include holds in
/-- A new channel keeps the ids distinct exactly if no open channel has its
id. -/
theorem idsDistinct_open_iff {channel : Channel Data}
    (representsAfter : Represents config after (update opened device (some channel)))
    (isNew : opened device = none) (distinct : IdsDistinct config ctx) :
    IdsDistinct config after ↔ ∀ other, ¬ HasId config ctx other channel.id := by
  rw [holds.idsDistinct_iff] at distinct
  rw [representsAfter.idsDistinct_iff]
  constructor
  · intro distinctAfter other hasId
    obtain ⟨second, isOther, sameId⟩ := (holds.hasId_iff other channel.id).mp hasId
    have apart : other ≠ device := by
      rintro rfl
      rw [isNew] at isOther
      cases isOther
    apply apart
    apply distinctAfter other device second channel
    · rw [update_of_ne apart]
      exact isOther
    · exact update_self ..
    · exact sameId
  · intro free one other first second isOne isOther sameId
    have notNew : ∀ {name : CString} {taken : Channel Data}, name ≠ device →
        update opened device (some channel) name = some taken → taken.id ≠ channel.id := by
      intro name taken apart isTaken clash
      rw [update_of_ne apart] at isTaken
      exact free name ((holds.hasId_iff name channel.id).mpr ⟨taken, isTaken, clash⟩)
    by_cases oneNew : one = device
    · by_cases otherNew : other = device
      · exact oneNew.trans otherNew.symm
      · rw [oneNew, update_self] at isOne
        obtain rfl := some.inj isOne
        exact absurd sameId.symm (notNew otherNew isOther)
    · by_cases otherNew : other = device
      · rw [otherNew, update_self] at isOther
        obtain rfl := some.inj isOther
        exact absurd sameId (notNew oneNew isOne)
      · rw [update_of_ne oneNew] at isOne
        rw [update_of_ne otherNew] at isOther
        exact distinct one other first second isOne isOther sameId

include holds in
theorem idsDistinct_close (representsAfter : Represents config after (update opened device none))
    (distinct : IdsDistinct config ctx) :
    IdsDistinct config after := by
  rw [holds.idsDistinct_iff] at distinct
  rw [representsAfter.idsDistinct_iff]
  intro one other first second isOne isOther sameId
  have stillOpen : ∀ {name : CString} {channel : Channel Data},
      update opened device none name = some channel →
        opened name = some channel := by
    intro name channel isOpen
    by_cases closed : name = device
    · rw [closed, update_self] at isOpen
      cases isOpen
    · rwa [update_of_ne closed] at isOpen
  exact distinct one other first second (stillOpen isOne) (stillOpen isOther) sameId

end Ids

/-! ## Every sequence of calls -/

theorem next_represents {config : Config} {ctx : ChannelManager Data}
    {opened : CString → Option (Channel Data)}
    (holds : Represents config ctx opened) (call : Call Data) :
    ∃ after opened', (manager Data config).next ctx call = some after ∧
      Represents config after opened' := by
  cases call with
  | channelOpen call =>
    rcases channelOpen_spec holds call with
      ⟨error, _, called⟩ | ⟨_, _, after, _, _, called, _, _, holds'⟩
    · refine ⟨ctx, opened, ?_, holds⟩
      simp only [manager, called, map_some]
    · refine ⟨after, _, ?_, holds'⟩
      simp only [manager, called, map_some]
  | channelClose device =>
    rcases channelClose_spec holds device with
      ⟨_, called⟩ | ⟨after, _, called, _, holds'⟩
    · refine ⟨ctx, opened, ?_, holds⟩
      simp only [manager, called, map_some]
    · refine ⟨after, _, ?_, holds'⟩
      simp only [manager, called, map_some]

theorem next_idsDistinct_iff {config : Config} {ctx after : ChannelManager Data}
    {opened : CString → Option (Channel Data)} (holds : Represents config ctx opened)
    (distinct : IdsDistinct config ctx) {call : Call Data}
    (moved : (manager Data config).next ctx call = some after) :
    IdsDistinct config after ↔ IdFree config ctx call := by
  cases call with
  | channelOpen call =>
    rcases channelOpen_spec holds call with
      ⟨error, isError, called⟩ | ⟨device, channel, result, _, isNew, called, isId, _, holds'⟩
    · simp only [manager, called, map_some] at moved
      cases moved
      refine ⟨?_, fun _ => distinct⟩
      rintro _ ⟨after, opens⟩
      rw [called] at opens
      exact absurd (Prod.mk.inj (some.inj opens)).1 isError
    · simp only [manager, called, map_some] at moved
      cases moved
      rw [idsDistinct_open_iff holds holds' isNew distinct, isId]
      exact ⟨fun free _ => free, fun free => free ⟨_, called⟩⟩
  | channelClose device =>
    refine ⟨fun _ => trivial, fun _ => ?_⟩
    rcases channelClose_spec holds device with
      ⟨_, called⟩ | ⟨result, _, called, _, holds'⟩
    · simp only [manager, called, map_some] at moved
      cases moved
      exact distinct
    · simp only [manager, called, map_some] at moved
      cases moved
      exact idsDistinct_close holds holds' distinct

theorem represents_start (config : Config) :
    Represents config (manager Data config).start fun _ => none := ⟨_, valid_hashMapInit config⟩

theorem exists_run (config : Config) (calls : List (Call Data)) :
    ∃ final, (manager Data config).run (manager Data config).start calls = some final ∧
      ∃ opened, Represents config final opened := by
  apply Machine.exists_run_of_total
  · rintro ctx call ⟨opened, holds⟩
    obtain ⟨after, opened', moved, holds'⟩ := next_represents holds call
    exact ⟨after, moved, opened', holds'⟩
  · exact ⟨_, represents_start config⟩

/-- Every sequence of calls can be executed, and the ids stay distinct in all
of its states exactly if no channel is opened while an open channel has the
id `open_channels + 1`. -/
theorem idsDistinct_iff_idFree (Data : Type) (config : Config) (calls : List (Call Data)) :
    (∃ final, (manager Data config).run (manager Data config).start calls = some final) ∧
    ((manager Data config).AllStates (IdsDistinct config) (manager Data config).start calls ↔
      (manager Data config).AllSteps (IdFree config) (manager Data config).start calls) := by
  obtain ⟨final, executed, _⟩ := exists_run config calls
  refine ⟨⟨final, executed⟩, ?_⟩
  apply Machine.allStates_iff_allSteps (fun ctx => ∃ opened, Represents config ctx opened)
  · rintro ctx call after ⟨opened, holds⟩ moved
    obtain ⟨result, opened', moved', holds'⟩ := next_represents holds call
    obtain rfl := some.inj (moved'.symm.trans moved)
    exact ⟨opened', holds'⟩
  · rintro ctx call after ⟨opened, holds⟩ distinct moved
    exact next_idsDistinct_iff holds distinct moved
  · exact ⟨_, represents_start config⟩
  · rw [(represents_start config).idsDistinct_iff]
    exact nofun
  · exact executed

private def openUart (device : CString) : Call Unit :=
  .channelOpen
    { type := .uart
      device := some device
      speed := 9600
      isServer := 0
      allocated := true
      setup := some () }

/-- Two channels are opened and the first one is closed; the next channel gets
the id of the second one. -/
theorem id_shared_after_close :
    ∃ ctx, (manager Unit sourceConfig).run (manager Unit sourceConfig).start
        [openUart ⟨[97], by decide⟩, openUart ⟨[98], by decide⟩, .channelClose ⟨[97], by decide⟩,
          openUart ⟨[99], by decide⟩] = some ctx ∧
      HasId sourceConfig ctx ⟨[98], by decide⟩ 2 ∧
      HasId sourceConfig ctx ⟨[99], by decide⟩ 2 := by
  have computed : (((manager Unit sourceConfig).run (manager Unit sourceConfig).start
          [openUart ⟨[97], by decide⟩, openUart ⟨[98], by decide⟩, .channelClose ⟨[97], by decide⟩,
            openUart ⟨[99], by decide⟩]).bind fun ctx =>
        (channelGet sourceConfig ctx ⟨[98], by decide⟩).bind fun b =>
          (channelGet sourceConfig ctx ⟨[99], by decide⟩).map fun c =>
            (b.1, b.2.map Reported.id, c.1, c.2.map Reported.id)) =
        some (.none, some 2, .none, some 2) := by
    decide
  obtain ⟨ctx, executed, rest⟩ := bind_eq_some_iff.mp computed
  obtain ⟨⟨errorB, reportedB⟩, gotB, rest⟩ := bind_eq_some_iff.mp rest
  obtain ⟨⟨errorC, reportedC⟩, gotC, same⟩ := map_eq_some_iff.mp rest
  simp only [Prod.mk.injEq, map_eq_some_iff] at same
  obtain ⟨rfl, ⟨b, rfl, idB⟩, rfl, ⟨c, rfl, idC⟩⟩ := same
  exact ⟨ctx, executed, ⟨b, gotB, idB⟩, ⟨c, gotC, idC⟩⟩

/-! ## The number of open channels -/

/-- A manager with the devices that calls have opened and not closed. -/
def trackedManager (Data : Type) (config : Config) :
    Machine (ChannelManager Data × Finset CString) (Call Data) where
  start := ((manager Data config).start, ∅)
  next := fun (ctx, devices) call =>
    match call with
    | .channelOpen call => (channelOpen config ctx call).map fun (error, after) =>
      (after, if error = .none then devices ∪ call.device.toFinset else devices)
    | .channelClose device => (channelClose config ctx device).map fun (error, after) =>
      (after, if error = .none then devices.erase device else devices)

/-- The open channels are those of the devices, and `open_channels` is their
number. -/
def Tracks (config : Config) (state : ChannelManager Data × Finset CString) : Prop :=
  ∃ opened, Represents config state.1 opened ∧ (∀ device, device ∈ state.2 ↔ opened device ≠ none) ∧
    state.1.openChannels = state.2.card

theorem next_tracks {config : Config} (state : ChannelManager Data × Finset CString)
    (call : Call Data) (tracks : Tracks config state) :
    ∃ after, (trackedManager Data config).next state call = some after ∧ Tracks config after := by
  obtain ⟨ctx, devices⟩ := state
  obtain ⟨opened, holds, isOpen, counted⟩ := tracks
  cases call with
  | channelOpen call =>
    rcases channelOpen_spec holds call with
      ⟨error, isError, called⟩ |
        ⟨device, channel, after, isDevice, isNew, called, _, counts, holds'⟩
    · refine ⟨(ctx, devices), ?_, opened, holds, isOpen, counted⟩
      simp only [trackedManager, called, map_some, if_neg isError]
    · refine ⟨(after, devices ∪ {device}), ?_, _, holds', ?_, ?_⟩
      · simp only [trackedManager, called, map_some, isDevice, if_true, toFinset_some]
      · intro other
        by_cases same : other = device
        · simp [same]
        · simp [isOpen, same]
      · have fresh : device ∉ devices := fun member => (isOpen device).mp member isNew
        rw [union_singleton, card_insert_of_notMem fresh, counts, counted]
        rfl
  | channelClose device =>
    rcases channelClose_spec holds device with
      ⟨_, called⟩ | ⟨after, wasOpen, called, counts, holds'⟩
    · refine ⟨(ctx, devices), ?_, opened, holds, isOpen, counted⟩
      simp only [trackedManager, called, map_some, reduceCtorEq, if_false]
    · refine ⟨(after, devices.erase device), ?_, _, holds', ?_, ?_⟩
      · simp only [trackedManager, called, map_some, if_true]
      · intro other
        by_cases same : other = device
        · simp [same]
        · simp [isOpen, same]
      · rw [counts, counted, cast_card_erase_of_mem ((isOpen device).mpr wasOpen)]

/-- After every sequence of calls, `open_channels` is the number of entries of
the map, the map holds the devices that were opened and not closed, and a call
of `channel_open` that returns an error changes nothing. -/
theorem openChannels_eq_count (Data : Type) (config : Config) (calls : List (Call Data)) :
    ∃ ctx devices, (trackedManager Data config).run (trackedManager Data config).start calls =
        some (ctx, devices) ∧
      (hashMapCount ctx.channels).map Nat.cast = some ctx.openChannels ∧
      (∀ device, device ∈ devices ↔
        ∃ channel, hashMapGet config ctx.channels (some device) 0 = some (some channel)) ∧
      ∀ call, ∃ error after, channelOpen config ctx call = some (error, after) ∧
        (error ≠ .none → after = ctx) := by
  have empty : Tracks config (trackedManager Data config).start :=
    ⟨_, represents_start config, by simp [trackedManager], rfl⟩
  obtain ⟨⟨ctx, devices⟩, executed, opened, holds, isOpen, counted⟩ :=
    Machine.exists_run_of_total next_tracks calls empty
  refine ⟨ctx, devices, executed, ?_, ?_, ?_⟩
  · obtain ⟨chains, valid⟩ := holds
    obtain ⟨nodup, live⟩ := valid.showsLive
    have same : devices = ((shown chains.flatten).map Prod.fst).toFinset := by
      ext device
      simp [isOpen, live, ne_none_iff_exists', and_comm]
    rw [hashMapCount_spec valid.rep, counted, same, toFinset_card_of_nodup nodup,
      length_map, shown, length_map]
    rfl
  · intro device
    simp only [isOpen, holds.get, some.injEq, ne_none_iff_exists']
  · intro call
    rcases channelOpen_spec holds call with
      ⟨error, _, called⟩ | ⟨_, _, after, _, _, called, _⟩
    · exact ⟨error, ctx, called, fun _ => rfl⟩
    · exact ⟨.none, after, called, fun isError => absurd rfl isError⟩

/-! ## Tearing the manager down -/

/-- `channel_close`, with a list of the channels whose transport it has torn
down. -/
def closeRecorded (config : Config) (state : ChannelManager Data × List (CString × Channel Data))
    (device : CString) : Option (ChannelManager Data × List (CString × Channel Data)) := do
  let found ← hashMapGet config state.1.channels (some device) 0
  let (_, after) ← channelClose config state.1 device
  some (after, state.2 ++ (found.map fun channel => (device, channel)).toList)

/-- The loop of `channel_manager_teardown`. -/
def channelManagerTeardown (config : Config) (ctx : ChannelManager Data) :
    Option (ChannelManager Data × List (CString × Channel Data)) :=
  (hashMapForeach (fun state => state.1.channels) (closeRecorded config)
    (ctx.channels.count + 1) (ctx, []) hashMapItInit).map Prod.snd

/-- The channels torn down and those still open are all channels. -/
def TearsDown (config : Config) (all : List (CString × Option (Channel Data)))
    (state : ChannelManager Data × List (CString × Channel Data))
    (chains : List (Chain (Channel Data))) : Prop :=
  (∃ opened, Valid config state.1.channels chains (Option.map some ∘ opened)) ∧
    state.2.map (fun pair => (pair.1, some pair.2)) ++ shown chains.flatten = all

theorem closeRecorded_spec {config : Config} {all : List (CString × Option (Channel Data))}
    {state : ChannelManager Data × List (CString × Channel Data)}
    {before later : List (Chain (Channel Data))} {rest : Chain (Channel Data)}
    {node : Addr × Item (Channel Data)}
    (tears : TearsDown config all state (before ++ (node :: rest) :: later))
    (first : before.flatten = []) :
    ∃ after, closeRecorded config state node.2.key = some after ∧
      TearsDown config all after (before ++ rest :: later) := by
  obtain ⟨⟨opened, valid⟩, left⟩ := tears
  have present : (before ++ (node :: rest) :: later)[before.length]? =
    some ([] ++ node :: rest) := by simp
  obtain ⟨channel, isOpen, isVal⟩ := map_eq_some_iff.mp (valid.live present)
  have found := Represents.get ⟨_, valid⟩ node.2.key
  obtain ⟨channels, deleted, validAfter⟩ := hashMapDelete_first valid
  refine ⟨(⟨state.1.openChannels - 1, channels⟩, state.2 ++ [(node.2.key, channel)]), ?_,
    ⟨update opened node.2.key none, ?_⟩, ?_⟩
  · simp only [closeRecorded, channelClose, found, isOpen, deleted, some_bind]
    rfl
  · rw [comp_update]
    exact validAfter
  · rw [← left]
    simp [shown, first, isVal]

theorem channelManagerTeardown_spec {config : Config} {ctx : ChannelManager Data}
    {opened : CString → Option (Channel Data)} (holds : Represents config ctx opened) :
    ∃ final torn, channelManagerTeardown config ctx = some (final, torn) ∧
      hashMapCount final.channels = some 0 ∧ (torn.map Prod.fst).Nodup ∧
      ∀ device channel, (device, channel) ∈ torn ↔
        hashMapGet config ctx.channels (some device) 0 = some (some channel) := by
  have get := holds.get
  obtain ⟨chains, valid⟩ := holds
  obtain ⟨⟨final, torn⟩, _, looped, ⟨⟨_, validAfter⟩, all⟩, emptied⟩ := hashMapForeach_spec
    (fun state => state.1.channels) (closeRecorded config)
    (TearsDown config (shown chains.flatten)) false (by
      rintro state chains ⟨⟨opened, valid⟩, _⟩
      exact valid.rep)
    (by
      intro state before front node rest later tears first
      obtain ⟨isFirst, rfl⟩ := append_eq_nil_iff.mp (first rfl)
      exact closeRecorded_spec tears isFirst)
    (⟨⟨opened, valid⟩, rfl⟩ : TearsDown config _ (ctx, []) chains) (.between [] chains)
    (fun _ => rfl) valid.enough
  have isTorn : torn.map (fun pair => (pair.1, some pair.2)) = shown chains.flatten := by
    rw [← all, emptied]
    exact (append_nil _).symm
  obtain ⟨nodup, live⟩ := valid.showsLive
  rw [← isTorn] at nodup live
  refine ⟨final, torn, ?_, ?_, ?_, ?_⟩
  · exact congrArg (Option.map Prod.snd) looped
  · rw [hashMapCount_spec validAfter.rep, emptied]
    rfl
  · rwa [List.map_map] at nodup
  · intro device channel
    have shows := live device (some channel)
    rw [get]
    simpa using shows

/-- For every map that calls have made, a loop with an iterator is given every
live key once, with its value, also if its body deletes that key, which
empties the map; and `channel_manager_teardown` tears every open channel down
once. -/
theorem foreach_shows_each_once {Value Data : Type} (config : Config)
    (calls : List (Hashmap.Call Value)) (channelCalls : List (Call Data)) :
    (∃ map, performAll config hashMapInit calls =
        some (map, Contents.answers config (fun _ => none) calls) ∧
      (∃ yielded, hashMapForeach id (fun map _ => some map) (map.count + 1) map hashMapItInit =
        some (yielded, map) ∧ ShowsLive (contentsOf calls) yielded) ∧
      ∃ yielded final, hashMapForeach id
            (fun map key => (hashMapDelete config map (some key) 0).map Prod.fst)
            (map.count + 1) map hashMapItInit = some (yielded, final) ∧
          ShowsLive (contentsOf calls) yielded ∧ hashMapCount final = some 0) ∧
    ∃ ctx, (manager Data config).run (manager Data config).start channelCalls = some ctx ∧
      ∃ final torn, channelManagerTeardown config ctx = some (final, torn) ∧
        hashMapCount final.channels = some 0 ∧ (torn.map Prod.fst).Nodup ∧
        ∀ device channel, (device, channel) ∈ torn ↔
          hashMapGet config ctx.channels (some device) 0 = some (some channel) := by
  constructor
  · obtain ⟨map, chains, performed, valid⟩ := performAll_spec (valid_hashMapInit config) calls
    exact ⟨map, performed, valid.foreach, valid.foreach_delete⟩
  · obtain ⟨ctx, executed, opened, holds⟩ := exists_run config channelCalls
    exact ⟨ctx, executed, channelManagerTeardown_spec holds⟩

end Skyc.Utils.Channels
