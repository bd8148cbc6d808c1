import Skyc.Lib.Transition

/-!
# The bus server

A loop (`bus_server_work_fn`) for every client of `bus_server.c` publishes what its
client wrote as the global message, and fetches the global message when the global
id is ahead of its private one.  Publishing and fetching run under `bus_global_lock`
and are one step each; the comparison, which reads `g_message_id` without the lock,
and the `write_loop` are steps of their own.
-/

namespace Skyc.Utils.BusServer

open Skyc.Lib Function List

abbrev Message := List UInt8

/-- `sizeof(bus_data)` -/
def busDataSize : Nat := 1024

/-- Program points of the loop in `bus_server_work_fn`. -/
inductive Point where
  | read
  | publish (data : Message)
  | compare
  | fetch
  | write (data : Message) (serial : Nat)
deriving DecidableEq, Repr

/-- One client loop with its `struct bus_client_data`. -/
structure Client where
  messageId : Nat
  point : Point
  /-- Bytes of the client the server has not read yet. -/
  unread : Message
  /-- How many messages had been published when the client connected. -/
  joined : Nat
  /-- Messages sent to the client, each with its place in the order of
  publications. -/
  received : List (Nat × Message)
deriving DecidableEq, Repr

/-- The server with room for `slots` clients. -/
structure Bus (slots : Nat) where
  clients : Fin slots → Option Client
  gMessageId : Nat
  gMessageData : Message
  /-- Number of messages published so far. -/
  published : Nat
  /-- The client that published last. -/
  publisher : Option (Fin slots)

inductive Label (slots : Nat) where
  | connect (client : Fin slots)
  | input (client : Fin slots) (bytes : Message)
  | step (client : Fin slots)
  | fail (client : Fin slots)
deriving DecidableEq, Repr

variable {slots : Nat}

def Bus.setClient (bus : Bus slots) (slot : Fin slots) (client : Option Client) : Bus slots :=
  { bus with clients := update bus.clients slot client }

def clientStep (bus : Bus slots) (slot : Fin slots) (client : Client) : Bus slots :=
  match client.point with
  | .read =>
    if client.unread = [] then
      bus.setClient slot (some { client with point := .compare })
    else
      bus.setClient slot (some
        { client with
          unread := client.unread.drop busDataSize
          point := .publish (client.unread.take busDataSize) })
  | .publish data =>
    { bus with
      clients :=
        update bus.clients slot
          (some
            { client with
              messageId := client.messageId + 1
              point := .compare })
      gMessageId := client.messageId + 1
      gMessageData := data
      published := bus.published + 1
      publisher := some slot }
  | .compare =>
    if client.messageId < bus.gMessageId then
      bus.setClient slot (some { client with point := .fetch })
    else
      bus.setClient slot (some { client with point := .read })
  | .fetch =>
    bus.setClient slot (some
      { client with
        messageId := bus.gMessageId
        point := .write bus.gMessageData bus.published })
  | .write data serial =>
    bus.setClient slot (some
      { client with
        point := .read
        received := client.received ++ [(serial, data)] })

def Point.isPublish : Point → Bool
  | .publish _ => true
  | _ => false

def Point.isWrite : Point → Bool
  | .write _ _ => true
  | _ => false

def next (bus : Bus slots) : Label slots → Option (Bus slots)
  | .connect slot =>
    match bus.clients slot with
    | some _ => none
    | none =>
      some (bus.setClient slot (some
        { messageId := 0
          point := .read
          unread := []
          joined := bus.published
          received := [] }))
  | .input slot bytes =>
    match bus.clients slot with
    | some client =>
      some (bus.setClient slot (some { client with unread := client.unread ++ bytes }))
    | none => none
  | .step slot =>
    match bus.clients slot with
    | some client => some (clientStep bus slot client)
    | none => none
  | .fail slot =>
    -- a failing `read_loop` or `write_loop` ends the loop
    match bus.clients slot with
    | some client =>
      if client.point = .read ∨ client.point.isWrite then
        some (bus.setClient slot none)
      else
        none
    | none => none

def busServer (slots : Nat) : Machine (Bus slots) (Label slots) where
  start :=
    { clients := fun _ => none
      gMessageId := 0
      gMessageData := []
      published := 0
      publisher := none }
  next := next

/-- No unread input, not behind the global id, and no fetched message that
still has to be written. -/
def Client.Idle (client : Client) (gMessageId : Nat) : Prop :=
  client.unread = [] ∧ ¬ client.messageId < gMessageId ∧ client.point.isWrite = false

def Bus.Idle (bus : Bus slots) : Prop :=
  ∀ slot, ∀ client ∈ bus.clients slot, client.Idle bus.gMessageId

/-- Every client but the publisher that was connected when the last message
was published has been sent that message. -/
def Delivered (bus : Bus slots) : Prop :=
  ∀ slot, ∀ client ∈ bus.clients slot, bus.publisher ≠ some slot → client.joined < bus.published →
    (bus.published, bus.gMessageData) ∈ client.received

/-- A client publishes only while no other connected client is ahead of
it. -/
def PublishesUpToDate (bus : Bus slots) : Label slots → Prop
  | .step slot =>
    ∀ client ∈ bus.clients slot, client.point.isPublish = true → ∀ otherSlot, otherSlot ≠ slot →
      ∀ other ∈ bus.clients otherSlot, other.messageId ≤ client.messageId
  | _ => True

instance (client : Client) (gMessageId : Nat) : Decidable (client.Idle gMessageId) :=
  inferInstanceAs (Decidable (_ ∧ _ ∧ _))

instance (bus : Bus slots) : Decidable bus.Idle :=
  inferInstanceAs (Decidable (∀ slot, ∀ client ∈ bus.clients slot, client.Idle bus.gMessageId))

instance (bus : Bus slots) : Decidable (Delivered bus) :=
  inferInstanceAs (Decidable (∀ slot, ∀ client ∈ bus.clients slot, bus.publisher ≠ some slot →
    client.joined < bus.published → (bus.published, bus.gMessageData) ∈ client.received))

instance (bus : Bus slots) (label : Label slots) : Decidable (PublishesUpToDate bus label) :=
  match label with
  | .step slot =>
    inferInstanceAs (Decidable (∀ client ∈ bus.clients slot, client.point.isPublish = true →
      ∀ otherSlot, otherSlot ≠ slot →
        ∀ other ∈ bus.clients otherSlot, other.messageId ≤ client.messageId))
  | .connect _ | .input _ _ | .fail _ => isTrue trivial

/-! ## The invariant -/

/-- A client is still behind the last message, about to be sent it, or has been sent it. -/
def Served (client : Client) (gMessageId published : Nat) (gMessageData : Message) : Prop :=
  client.messageId < gMessageId ∨ client.point = .write gMessageData published ∨
    (published, gMessageData) ∈ client.received

def Inv (bus : Bus slots) : Prop :=
  ∀ slot client, bus.clients slot = some client → bus.publisher ≠ some slot →
    client.joined < bus.published → Served client bus.gMessageId bus.published bus.gMessageData

variable {bus : Bus slots} {client : Client} {slot : Fin slots}

/-- Changing the loop of one client, the global message staying as it is. -/
theorem Inv.setClient {new : Option Client} (inv : Inv bus) (served : ∀ client ∈ new,
      bus.publisher ≠ some slot →
      client.joined < bus.published → Served client bus.gMessageId bus.published bus.gMessageData) :
    Inv (bus.setClient slot new) := by
  intro other found present notPublisher earlier
  simp only [Bus.setClient] at present
  by_cases same : other = slot
  · subst other
    rw [update_self] at present
    exact served found present notPublisher earlier
  · rw [update_of_ne same] at present
    exact inv other found present notPublisher earlier

/-- A step that keeps the message id and the received messages and does not
leave a pending write. -/
theorem Served.of_same {after : Client} {gMessageId published : Nat} {gMessageData : Message}
    (served : Served client gMessageId published gMessageData)
    (sameId : after.messageId = client.messageId) (sameReceived : after.received = client.received)
    (notWriting :
      client.point ≠ .write gMessageData published ∨
        after.point = client.point) : Served after gMessageId published gMessageData := by
  rcases served with behind | writing | received
  · left
    rw [sameId]
    exact behind
  · rcases notWriting with apart | samePoint
    · exact absurd writing apart
    · right
      left
      rw [samePoint]
      exact writing
  · right
    right
    rw [sameReceived]
    exact received

theorem inv_clientStep (inv : Inv bus) (present : bus.clients slot = some client)
    (upToDate : PublishesUpToDate bus (.step slot)) : Inv (clientStep bus slot client) := by
  have known := inv slot client present
  unfold clientStep
  split
  · rename_i point
    have notWriting : client.point ≠ .write bus.gMessageData bus.published := by
      rw [point]
      nofun
    split
    all_goals
      apply inv.setClient
      rintro _ ⟨⟩ notPublisher earlier
      exact (known notPublisher earlier).of_same rfl rfl (.inl notWriting)
  · rename_i data point
    -- the new id is above the id of every other connected client
    intro other found foundAt notPublisher _
    simp only at foundAt notPublisher
    have apart : other ≠ slot := by
      intro same
      exact notPublisher (congrArg some same.symm)
    rw [update_of_ne apart] at foundAt
    have notAhead := upToDate client present (by rw [point]; rfl) other apart found foundAt
    left
    simp only
    omega
  · rename_i point
    have notWriting : client.point ≠ .write bus.gMessageData bus.published := by
      rw [point]
      nofun
    split
    all_goals
      apply inv.setClient
      rintro _ ⟨⟩ notPublisher earlier
      exact (known notPublisher earlier).of_same rfl rfl (.inl notWriting)
  · apply inv.setClient
    rintro _ ⟨⟩ _ _
    right
    left
    rfl
  · rename_i data serial point
    apply inv.setClient
    rintro _ ⟨⟩ notPublisher earlier
    rcases known notPublisher earlier with behind | writing | received
    · left
      exact behind
    · right
      right
      rw [point] at writing
      cases writing
      exact mem_append_right _ (Mem.head _)
    · right
      right
      exact mem_append_left _ received

theorem inv_next {after : Bus slots} {label : Label slots}
    (inv : Inv bus) (upToDate : PublishesUpToDate bus label) (moved : next bus label = some after) :
    Inv after := by
  cases label with simp only [next] at moved
  | connect slot =>
    split at moved
    · cases moved
    · cases moved
      apply inv.setClient
      rintro _ ⟨⟩ _ earlier
      exact absurd earlier (Nat.lt_irrefl _)
  | input slot bytes =>
    split at moved
    · rename_i client present
      cases moved
      apply inv.setClient
      rintro _ ⟨⟩ notPublisher earlier
      exact (inv slot client present notPublisher earlier).of_same rfl rfl (.inr rfl)
    · cases moved
  | step slot =>
    split at moved
    · rename_i client present
      cases moved
      exact inv_clientStep inv present upToDate
    · cases moved
  | fail slot =>
    split at moved
    · split at moved
      · cases moved
        exact inv.setClient nofun
      · cases moved
    · cases moved

private theorem neZeroTwo : NeZero 2 := ⟨two_ne_zero⟩

attribute [local instance] neZeroTwo

/-- Both clients are connected when the first one publishes; the second
fetches the message and has it written. -/
private def publishOnce : List (Label 2) :=
  [.connect 0, .connect 1, .input 0 [97], .step 0, .step 0, .step 0,
    .step 1, .step 1, .step 1, .step 1]

/-- The first client publishes with id 1. The second connects, has written
before its loop reads for the first time, and publishes with id 1 as well:
the first client never gets that message. -/
private def latePublisher : List (Label 2) :=
  [.connect 0, .input 0 [97], .step 0, .step 0, .step 0,
    .connect 1, .input 1 [98], .step 1, .step 1, .step 1]

end Skyc.Utils.BusServer
