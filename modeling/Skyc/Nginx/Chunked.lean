import Mathlib

/-!
# Chunked request bodies

The context of `ngx_http_parse_chunked` keeps the state and the number of bytes that
are left of a chunk.  The loop of `ngx_http_request_body_chunked_filter` takes the
bytes of chunks out of the buffers.
-/

namespace Skyc.Nginx.Chunked

open List

abbrev Byte := BitVec 8

def CR : Byte := 0x0d
def LF : Byte := 0x0a

/-- `NGX_MAX_OFF_T_VALUE`, of 64 bits -/
def maxOff : ℕ := 2 ^ 63 - 1

/-- The states of `ngx_http_parse_chunked`. -/
inductive State where
  | chunkStart
  | chunkSize
  | chunkExtension
  | chunkExtensionAlmostDone
  | chunkData
  | afterData
  | afterDataAlmostDone
  | lastChunkExtension
  | lastChunkExtensionAlmostDone
  | trailer
  | trailerAlmostDone
  | trailerHeader
  | trailerHeaderAlmostDone
  deriving DecidableEq, Repr

/-- `ngx_http_chunked_t` -/
structure Ctx where
  state : State
  size : ℕ
  length : ℕ
  deriving DecidableEq, Repr

/-- The values that `ngx_http_parse_chunked` returns. -/
inductive Rc where
  | ok
  | done
  | again
  | error
  deriving DecidableEq, Repr

/-- The value of a hexadecimal digit, as the states `sw_chunk_start` and
`sw_chunk_size` compute it. -/
def hexDigit (ch : Byte) : Option ℕ :=
  if 0x30 ≤ ch ∧ ch ≤ 0x39 then
    some (ch.toNat - 0x30)
  else
    let c := ch ||| 0x20
    if 0x61 ≤ c ∧ c ≤ 0x66 then
      some (c.toNat - 0x61 + 10)
    else
      none

/-- What the `switch` of the loop does with a byte. -/
inductive Move where
  | next (state : State) (size : ℕ)
  | data
  | done
  | invalid
  deriving DecidableEq, Repr

/-- `;`, a space or a tab -/
def startsExtension (ch : Byte) : Bool :=
  ch = 0x3b ∨ ch = 0x20 ∨ ch = 0x09

/-- The `switch` of the loop. -/
def step (state : State) (size : ℕ) (ch : Byte) : Move :=
  match state with
  | .chunkStart =>
    match hexDigit ch with
    | some digit => .next .chunkSize digit
    | none => .invalid
  | .chunkSize =>
    if maxOff / 16 < size then
      .invalid
    else
      match hexDigit ch with
      | some digit => .next .chunkSize (size * 16 + digit)
      | none =>
        if size = 0 then
          if ch = CR then .next .lastChunkExtensionAlmostDone size
          else if ch = LF then .next .trailer size
          else if startsExtension ch then .next .lastChunkExtension size
          else .invalid
        else
          if ch = CR then .next .chunkExtensionAlmostDone size
          else if ch = LF then .next .chunkData size
          else if startsExtension ch then .next .chunkExtension size
          else .invalid
  | .chunkExtension =>
    if ch = CR then .next .chunkExtensionAlmostDone size
    else if ch = LF then .next .chunkData size
    else .next .chunkExtension size
  | .chunkExtensionAlmostDone => if ch = LF then .next .chunkData size else .invalid
  | .chunkData => .data
  | .afterData =>
    if ch = CR then .next .afterDataAlmostDone size
    else if ch = LF then .next .chunkStart size
    else .invalid
  | .afterDataAlmostDone => if ch = LF then .next .chunkStart size else .invalid
  | .lastChunkExtension =>
    if ch = CR then .next .lastChunkExtensionAlmostDone size
    else if ch = LF then .next .trailer size
    else .next .lastChunkExtension size
  | .lastChunkExtensionAlmostDone => if ch = LF then .next .trailer size else .invalid
  | .trailer =>
    if ch = CR then .next .trailerAlmostDone size
    else if ch = LF then .done
    else .next .trailerHeader size
  | .trailerAlmostDone => if ch = LF then .done else .invalid
  | .trailerHeader =>
    if ch = CR then .next .trailerHeaderAlmostDone size
    else if ch = LF then .next .trailer size
    else .next .trailerHeader size
  | .trailerHeaderAlmostDone => if ch = LF then .next .trailer size else .invalid

/-- `ctx->length` -/
def lengthFor : State → ℕ → ℕ
  | .chunkStart, _ => 3
  | .chunkSize, size => 1 + if size ≠ 0 then size + 4 else 1
  | .chunkExtension, size => 1 + size + 4
  | .chunkExtensionAlmostDone, size => 1 + size + 4
  | .chunkData, size => size + 4
  | .afterData, _ => 4
  | .afterDataAlmostDone, _ => 4
  | .lastChunkExtension, _ => 2
  | .lastChunkExtensionAlmostDone, _ => 2
  | .trailer, _ => 1
  | .trailerAlmostDone, _ => 1
  | .trailerHeader, _ => 2
  | .trailerHeaderAlmostDone, _ => 2

/-- What a call returns: its value, the context and the bytes from `b->pos`
on. -/
structure Parsed where
  rc : Rc
  ctx : Ctx
  rest : List Byte
  deriving DecidableEq, Repr

/-- The end of `ngx_http_parse_chunked` from the label `data` on. -/
def atData (rc : Rc) (ctx : Ctx) (state : State) (size : ℕ) (rest : List Byte) : Parsed :=
  if maxOff - 5 < size then
    ⟨.error, { ctx with state, size }, rest⟩
  else
    ⟨rc, ⟨state, size, lengthFor state size⟩, rest⟩

/-- The loop of `ngx_http_parse_chunked`; `given` are the bytes of the buffer. -/
def loop (ctx : Ctx) (given : List Byte) : State → ℕ → List Byte → Parsed
  | state, size, [] => atData .again ctx state size []
  | state, size, ch :: rest =>
    match step state size ch with
    | .next state size => loop ctx given state size rest
    | .data => atData .ok ctx state size (ch :: rest)
    | .done => ⟨.done, { ctx with state := .chunkStart, size }, rest⟩
    | .invalid => ⟨.error, { ctx with size }, given⟩

/-- `if (state == sw_chunk_data && ctx->size == 0) state = sw_after_data` -/
def entry (state : State) (size : ℕ) : State :=
  if state = .chunkData ∧ size = 0 then .afterData else state

/-- `ngx_http_parse_chunked` -/
def parseChunked (ctx : Ctx) (bytes : List Byte) : Parsed :=
  loop ctx bytes (entry ctx.state ctx.size) ctx.size bytes

/-! ## The filter -/

inductive Verdict where
  | done
  | error
  | more
  deriving DecidableEq, Repr

structure Filtered where
  verdict : Verdict
  ctx : Ctx
  body : List Byte
  rest : List Byte
  deriving DecidableEq, Repr

/-- The inner loop of `ngx_http_request_body_chunked_filter` for a buffer: after
`NGX_OK` as many bytes as the chunk has and the buffer holds are body. -/
def filterBuf : ℕ → Ctx → List Byte → Option Filtered
  | 0, _, _ => none
  | turns + 1, ctx, bytes =>
    let parsed := parseChunked ctx bytes
    match parsed.rc with
    | .ok =>
      let taken := min parsed.ctx.size parsed.rest.length
      (filterBuf turns { parsed.ctx with size := parsed.ctx.size - taken }
        (parsed.rest.drop taken)).map fun filtered =>
          { filtered with body := parsed.rest.take taken ++ filtered.body }
    | .done => some ⟨.done, parsed.ctx, [], parsed.rest⟩
    | .error => some ⟨.error, parsed.ctx, [], parsed.rest⟩
    | .again => some ⟨.more, parsed.ctx, [], parsed.rest⟩

/-- What was made of a stream: the verdict, the body and the number of bytes that
were consumed when it is done. -/
structure Reading where
  verdict : Verdict
  body : List Byte
  consumed : ℕ
  deriving DecidableEq, Repr

/-- The buffers one after another, up to `NGX_DONE` or `NGX_ERROR`. -/
def feed (ctx : Ctx) : List (List Byte) → Option Reading
  | [] => some ⟨.more, [], 0⟩
  | buffer :: later =>
    (filterBuf (buffer.length + 1) ctx buffer).bind fun filtered =>
      match filtered.verdict with
      | .more => (feed filtered.ctx later).map fun reading =>
        { reading with
          body := filtered.body ++ reading.body
          consumed := buffer.length + reading.consumed }
      | verdict => some ⟨verdict, filtered.body, buffer.length - filtered.rest.length⟩

/-- The context that `ngx_pcalloc` gives. -/
def zeroed : Ctx := ⟨.chunkStart, 0, 0⟩

/-! ## One byte after another -/

namespace Reading

/-- The same with some bytes in front of it. -/
def advance (count : ℕ) (reading : Reading) : Reading :=
  { reading with consumed := count + reading.consumed }

/-- The same with some bytes of a body in front of it. -/
def prepend (bytes : List Byte) (reading : Reading) : Reading :=
  { reading with body := bytes ++ reading.body }

theorem advance_zero (reading : Reading) : advance 0 reading = reading := by
  rw [advance, zero_add]

theorem advance_advance (first second : ℕ) (reading : Reading) :
    advance first (advance second reading) = advance (first + second) reading := by
  rw [advance, advance, advance, add_assoc]

end Reading

/-- The bytes of a stream one after another, without buffers. -/
def drive : State → ℕ → List Byte → Reading
  | _, size, [] => ⟨if maxOff - 5 < size then .error else .more, [], 0⟩
  | state, size, ch :: rest =>
    if state = .chunkData ∧ size ≠ 0 then
      ((drive .chunkData (size - 1) rest).prepend [ch]).advance 1
    else
      match step (entry state size) size ch with
      | .next state size => (drive state size rest).advance 1
      | .data => ⟨.error, [], 0⟩
      | .done => ⟨.done, [], 1⟩
      | .invalid => ⟨.error, [], 0⟩

/-- Only the state that reads a size has one that is too large, and extensions belong to
chunks with data. -/
structure Reachable (state : State) (size : ℕ) : Prop where
  large : maxOff / 16 < size → state = .chunkSize
  extension : state = .chunkExtension ∨ state = .chunkExtensionAlmostDone → size ≠ 0

/-- Inside of the loop a chunk has data. -/
structure Inside (state : State) (size : ℕ) : Prop where
  reachable : Reachable state size
  data : state = .chunkData → size ≠ 0

variable {state : State} {size : ℕ}

theorem Reachable.small (reachable : Reachable state size)
    (notSize : state ≠ .chunkSize) : size ≤ maxOff / 16 := by
  by_contra large
  exact notSize (reachable.large (not_le.mp large))

theorem inside_of_small (small : size ≤ maxOff / 16)
    (positive : size ≠ 0 ∨ state ≠ .chunkExtension ∧
      state ≠ .chunkExtensionAlmostDone ∧ state ≠ .chunkData) : Inside state size := by
  refine ⟨⟨fun large => absurd large (Nat.not_lt_of_le small), ?_⟩, ?_⟩
  · intro isExtension
    rcases positive with notZero | ⟨notExtension, notAlmost, _⟩
    · exact notZero
    · rcases isExtension with isExtension | isAlmost
      · exact absurd isExtension notExtension
      · exact absurd isAlmost notAlmost
  · intro isData
    rcases positive with notZero | ⟨_, _, notData⟩
    · exact notZero
    · exact absurd isData notData

variable {ch : Byte}

theorem step_inside {next : State} {nextSize : ℕ}
    (inside : Inside state size) (isNext : step state size ch = .next next nextSize) :
    Inside next nextSize := by
  have readsSize : ∀ size, Inside .chunkSize size := by
    intro size
    exact ⟨⟨fun _ => rfl, by simp⟩, nofun⟩
  have extension := inside.reachable.extension
  cases state with
  | chunkStart =>
    simp only [step] at isNext
    split at isNext
    · cases isNext
      exact readsSize _
    · cases isNext
  | chunkSize =>
    simp only [step] at isNext
    split at isNext
    · cases isNext
    · rename_i notLarge
      have small := not_lt.mp notLarge
      split at isNext
      · cases isNext
        exact readsSize _
      · by_cases isZero : size = 0
        · rw [if_pos isZero] at isNext
          repeat' split at isNext
          all_goals cases isNext
          all_goals exact inside_of_small small (by simp)
        · rw [if_neg isZero] at isNext
          repeat' split at isNext
          all_goals cases isNext
          all_goals exact inside_of_small small (Or.inl isZero)
  | chunkExtension | chunkExtensionAlmostDone =>
    have small := inside.reachable.small (by decide)
    have notZero := extension (by simp)
    simp only [step] at isNext
    repeat' split at isNext
    all_goals cases isNext
    all_goals exact inside_of_small small (Or.inl notZero)
  | chunkData => cases isNext
  | _ =>
    -- the size is kept, and the next state asks for nothing
    have small := inside.reachable.small (by decide)
    simp only [step] at isNext
    repeat' split at isNext
    all_goals cases isNext
    all_goals exact inside_of_small small (by simp)

theorem step_data (isData : step state size ch = .data) : state = .chunkData := by
  cases state with
  | chunkData => rfl
  | _ =>
    simp only [step] at isData
    repeat' split at isData
    all_goals cases isData

theorem drive_large (reachable : Reachable state size)
    (large : maxOff - 5 < size) (bytes : List Byte) :
    (drive state size bytes).verdict = .error ∧ (drive state size bytes).body = [] := by
  cases bytes with
  | nil =>
    rw [drive, if_pos large]
    exact ⟨rfl, rfl⟩
  | cons ch rest =>
    have tooLarge : maxOff / 16 < size := by
      have bound : maxOff = 2 ^ 63 - 1 := rfl
      omega
    have isState := reachable.large tooLarge
    subst isState
    have isInvalid : step (entry .chunkSize size) size ch = .invalid := by
      rw [entry, if_neg (by simp), step, if_pos tooLarge]
    rw [drive, if_neg (by simp), isInvalid]
    exact ⟨rfl, rfl⟩

theorem drive_cons (size : ℕ) (notData : state ≠ .chunkData) (ch : Byte) (rest : List Byte) :
    drive state size (ch :: rest) = match step state size ch with
      | .next state size => (drive state size rest).advance 1
      | .data => ⟨.error, [], 0⟩
      | .done => ⟨.done, [], 1⟩
      | .invalid => ⟨.error, [], 0⟩ := by
  rw [drive, if_neg fun both => notData both.1, entry, if_neg fun both => notData both.1]

theorem drive_entry (state : State) (size : ℕ) (bytes : List Byte) :
    drive (entry state size) size bytes = drive state size bytes := by
  rw [entry]
  by_cases isEntry : state = .chunkData ∧ size = 0
  · rw [if_pos isEntry]
    cases bytes with
    | nil => rfl
    | cons ch rest =>
      rw [drive, drive, if_neg (by simp), if_neg fun both => both.2 isEntry.2,
        entry, entry, if_neg (by simp), if_pos isEntry]
  · rw [if_neg isEntry]

/-- What the loop makes of the bytes of a buffer, whatever follows them. -/
inductive LoopSpec (state : State) (size : ℕ) (bytes : List Byte) : Parsed → Prop
  | again {ctx : Ctx} (reachable : Reachable ctx.state ctx.size) (small : ctx.size ≤ maxOff - 5)
    (same : ∀ more, drive state size (bytes ++ more) =
      (drive ctx.state ctx.size more).advance bytes.length) :
    LoopSpec state size bytes ⟨.again, ctx, []⟩
  | ok {ctx : Ctx} {rest : List Byte} {passed : ℕ} (isState : ctx.state = .chunkData)
    (inside : Inside ctx.state ctx.size) (notEmpty : rest ≠ [])
    (isLength : passed + rest.length = bytes.length)
    (same : ∀ more, drive state size (bytes ++ more) =
      (drive ctx.state ctx.size (rest ++ more)).advance passed) :
    LoopSpec state size bytes ⟨.ok, ctx, rest⟩
  | done {ctx : Ctx} {rest : List Byte} (shorter : rest.length ≤ bytes.length)
    (same : ∀ more, drive state size (bytes ++ more) = ⟨.done, [], bytes.length - rest.length⟩) :
    LoopSpec state size bytes ⟨.done, ctx, rest⟩
  | error {ctx : Ctx} {rest : List Byte}
    (same : ∀ more, (drive state size (bytes ++ more)).verdict = .error ∧
      (drive state size (bytes ++ more)).body = []) :
    LoopSpec state size bytes ⟨.error, ctx, rest⟩

variable {bytes : List Byte}

theorem LoopSpec.cons {next : State} {nextSize : ℕ}
    {parsed : Parsed} (spec : LoopSpec next nextSize bytes parsed)
    (unfolded : ∀ rest, drive state size (ch :: rest) = (drive next nextSize rest).advance 1) :
    LoopSpec state size (ch :: bytes) parsed := by
  cases spec with
  | again reachable small same =>
    refine LoopSpec.again reachable small ?_
    intro more
    rw [cons_append, unfolded, same, Reading.advance_advance, length_cons, add_comm 1]
  | @ok ctx rest passed isState inside notEmpty isLength same =>
    have longer : 1 + passed + rest.length = (ch :: bytes).length := by
      rw [length_cons]
      omega
    refine LoopSpec.ok isState inside notEmpty longer ?_
    intro more
    rw [cons_append, unfolded, same, Reading.advance_advance]
  | done shorter same =>
    refine LoopSpec.done (Nat.le_succ_of_le shorter) ?_
    intro more
    rw [cons_append, unfolded, same, Reading.advance, length_cons,
      add_comm, Nat.sub_add_comm shorter]
  | error same =>
    apply LoopSpec.error
    intro more
    rw [cons_append, unfolded]
    exact same more

theorem loop_spec (ctx : Ctx) (given : List Byte) (inside : Inside state size) :
    LoopSpec state size bytes (loop ctx given state size bytes) := by
  induction bytes generalizing state size with
  | nil =>
    rw [loop, atData]
    by_cases large : maxOff - 5 < size
    · rw [if_pos large]
      apply LoopSpec.error
      intro more
      exact drive_large inside.reachable large more
    · rw [if_neg large]
      refine LoopSpec.again inside.reachable (not_lt.mp large) ?_
      intro more
      exact (Reading.advance_zero _).symm
  | cons ch rest ih =>
    by_cases isData : state = .chunkData
    · subst isData
      have small := inside.reachable.small (by decide)
      have notLarge : ¬ maxOff - 5 < size := by
        have bound : maxOff = 2 ^ 63 - 1 := rfl
        omega
      rw [loop, step, atData, if_neg notLarge]
      refine LoopSpec.ok rfl inside (cons_ne_nil ch rest) (zero_add _) ?_
      intro more
      exact (Reading.advance_zero _).symm
    · have unfolded := drive_cons size isData ch
      rw [loop]
      cases isStep : step state size ch with
      | next nextState nextSize =>
        have later := @ih nextState nextSize (step_inside inside isStep)
        simp only [isStep] at unfolded
        exact later.cons unfolded
      | data => exact absurd (step_data isStep) isData
      | done =>
        simp only [isStep] at unfolded
        refine LoopSpec.done (by simp) ?_
        intro more
        rw [cons_append, unfolded, length_cons]
        simp
      | invalid =>
        simp only [isStep] at unfolded
        apply LoopSpec.error
        intro more
        rw [cons_append, unfolded]
        exact ⟨rfl, rfl⟩

variable {ctx : Ctx}

theorem parseChunked_spec (bytes : List Byte) (reachable : Reachable ctx.state ctx.size) :
    LoopSpec ctx.state ctx.size bytes (parseChunked ctx bytes) := by
  have inside : Inside (entry ctx.state ctx.size) ctx.size := by
    rw [entry]
    by_cases isEntry : ctx.state = .chunkData ∧ ctx.size = 0
    · rw [if_pos isEntry]
      apply inside_of_small
      · rw [isEntry.2]
        exact Nat.zero_le _
      · simp
    · rw [if_neg isEntry]
      exact ⟨reachable, fun isData isZero => isEntry ⟨isData, isZero⟩⟩
  have spec := @loop_spec _ _ bytes ctx bytes inside
  rw [parseChunked]
  generalize loop ctx bytes (entry ctx.state ctx.size) ctx.size bytes = parsed at spec
  cases spec with
  | again reachable small same =>
    simp only [drive_entry] at same
    exact LoopSpec.again reachable small same
  | ok isState inside notEmpty isLength same =>
    simp only [drive_entry ctx.state] at same
    exact LoopSpec.ok isState inside notEmpty isLength same
  | done shorter same =>
    simp only [drive_entry] at same
    exact LoopSpec.done shorter same
  | error same =>
    simp only [drive_entry] at same
    exact LoopSpec.error same

/-! ## The bytes of a chunk -/

theorem drive_taken {data : List Byte} (small : data.length ≤ size) (more : List Byte) :
    drive .chunkData size (data ++ more) =
      ((drive .chunkData (size - data.length) more).prepend data).advance data.length := by
  induction data generalizing size with
  | nil => exact (Reading.advance_zero _).symm
  | cons ch data ih =>
    rw [length_cons] at small
    have notZero : size ≠ 0 := by omega
    have smaller : data.length ≤ size - 1 := by omega
    rw [cons_append, drive, if_pos ⟨rfl, notZero⟩, ih smaller, length_cons, Nat.sub_sub, add_comm 1]
    simp only [Reading.prepend, Reading.advance, cons_append, nil_append]
    rw [← add_assoc, add_comm 1]

theorem Reachable.taken (reachable : Reachable .chunkData size) (count : ℕ) :
    Reachable .chunkData (size - count) := by
  have small := reachable.small (by decide)
  exact ⟨fun large => by omega, by simp⟩

/-- What the filter makes of a buffer, whatever follows it. -/
inductive FilterSpec (ctx : Ctx) (bytes : List Byte) : Filtered → Prop
  | more {after : Ctx} {body : List Byte} (reachable : Reachable after.state after.size)
    (small : after.size ≤ maxOff - 5) (same : ∀ more, drive ctx.state ctx.size (bytes ++ more) =
      ((drive after.state after.size more).prepend body).advance bytes.length) :
    FilterSpec ctx bytes ⟨.more, after, body, []⟩
  | done {after : Ctx} {body rest : List Byte} (shorter : rest.length ≤ bytes.length)
    (same : ∀ more, drive ctx.state ctx.size (bytes ++ more) =
      ⟨.done, body, bytes.length - rest.length⟩) : FilterSpec ctx bytes ⟨.done, after, body, rest⟩
  | error {after : Ctx} {body rest : List Byte}
    (same : ∀ more, (drive ctx.state ctx.size (bytes ++ more)).verdict = .error ∧
      (drive ctx.state ctx.size (bytes ++ more)).body = body) :
    FilterSpec ctx bytes ⟨.error, after, body, rest⟩

theorem FilterSpec.prepend {after : Ctx} {rest data : List Byte}
    {passed : ℕ} {filtered : Filtered} (spec : FilterSpec after rest filtered)
    (isLength : passed + data.length + rest.length = bytes.length)
    (same : ∀ more, drive ctx.state ctx.size (bytes ++ more) =
      ((drive after.state after.size (rest ++ more)).prepend data).advance (passed + data.length)) :
    FilterSpec ctx bytes { filtered with body := data ++ filtered.body } := by
  cases spec with
  | more reachable small later =>
    refine FilterSpec.more reachable small ?_
    intro more
    rw [same, later, ← isLength]
    simp only [Reading.prepend, Reading.advance, append_assoc, add_assoc]
  | @done _ body left shorter later =>
    have longer : left.length ≤ bytes.length := by omega
    refine FilterSpec.done longer ?_
    intro more
    rw [same, later]
    simp only [Reading.prepend, Reading.advance]
    congr 1
    omega
  | error later =>
    apply FilterSpec.error
    intro more
    rw [same]
    obtain ⟨isError, isBody⟩ := later more
    refine ⟨isError, ?_⟩
    change data ++ (drive after.state after.size _).body = _
    rw [isBody]

theorem filterBuf_spec {turns : ℕ}
    (reachable : Reachable ctx.state ctx.size) (enough : bytes.length < turns) :
    ∃ filtered, filterBuf turns ctx bytes = some filtered ∧ FilterSpec ctx bytes filtered := by
  induction turns generalizing ctx bytes with
  | zero => cases enough
  | succ turns ih =>
    have spec := parseChunked_spec bytes reachable
    rw [filterBuf]
    generalize parseChunked ctx bytes = parsed at spec
    cases spec with
    | again reachable small same =>
      refine ⟨_, rfl, FilterSpec.more reachable small ?_⟩
      exact same
    | done shorter same => exact ⟨_, rfl, FilterSpec.done shorter same⟩
    | error same => exact ⟨_, rfl, FilterSpec.error same⟩
    | @ok after rest passed isState inside notEmpty isLength same =>
      have positive := length_pos_iff.mpr notEmpty
      have notZero := inside.data isState
      have taken : (rest.take (min after.size rest.length)).length =
          min after.size rest.length := by
        rw [length_take]
        omega
      have left : (rest.drop (min after.size rest.length)).length =
        rest.length - min after.size rest.length := length_drop
      rw [isState] at inside
      obtain ⟨filtered, isFiltered, later⟩ := @ih
        (rest.drop (min after.size rest.length))
        { after with size := after.size - min after.size rest.length }
        (by simpa only [isState] using inside.reachable.taken _) (by omega)
      refine ⟨{ filtered with
        body := rest.take (min after.size rest.length) ++ filtered.body },
        ?_, @FilterSpec.prepend bytes ctx _ _
          (rest.take (min after.size rest.length)) passed filtered later ?_ ?_⟩
      · simp only [isFiltered]
        rfl
      · rw [taken, left]
        omega
      · intro more
        have split : rest = rest.take (min after.size rest.length) ++
          rest.drop (min after.size rest.length) := (take_append_drop _ _).symm
        have data := @drive_taken after.size (rest.take (min after.size rest.length)) (by omega)
          (rest.drop (min after.size rest.length) ++ more)
        rw [← append_assoc, ← split, taken] at data
        rw [same, isState, data, Reading.advance_advance, taken]

/-- However a stream is cut into buffers, they are read as the stream is. -/
theorem feed_eq_drive (reachable : Reachable ctx.state ctx.size)
    (small : ctx.size ≤ maxOff - 5) (buffers : List (List Byte)) :
    ∃ reading, feed ctx buffers = some reading ∧
      reading.verdict = (drive ctx.state ctx.size buffers.flatten).verdict ∧
      reading.body = (drive ctx.state ctx.size buffers.flatten).body ∧
      (reading.verdict = .done → reading.consumed =
        (drive ctx.state ctx.size buffers.flatten).consumed) := by
  induction buffers generalizing ctx with
  | nil =>
    refine ⟨_, rfl, ?_, rfl, fun _ => rfl⟩
    rw [flatten_nil, drive, if_neg (Nat.not_lt_of_le small)]
  | cons buffer later ih =>
    obtain ⟨filtered, isFiltered, spec⟩ := filterBuf_spec reachable (lt_add_one _)
    rw [feed, isFiltered, flatten_cons, Option.bind_some]
    cases spec with
    | @more after body reachable small same =>
      obtain ⟨reading, isReading, isVerdict, isBody, isConsumed⟩ := ih reachable small
      rw [same]
      simp only [isReading]
      refine ⟨_, rfl, isVerdict, ?_, ?_⟩
      · change body ++ reading.body = _
        rw [isBody]
        rfl
      · intro isDone
        change buffer.length + reading.consumed = _
        rw [isConsumed isDone]
        rfl
    | done shorter same =>
      rw [same]
      exact ⟨_, rfl, rfl, rfl, fun _ => rfl⟩
    | error same =>
      obtain ⟨isError, isBody⟩ := same later.flatten
      refine ⟨_, rfl, isError.symm, isBody.symm, ?_⟩
      exact nofun

/-! ## How many bytes are left -/

theorem lengthFor_step {next : State} {nextSize : ℕ}
    (isNext : step state size ch = .next next nextSize) :
    lengthFor state size ≤ 1 + lengthFor next nextSize := by
  cases state with
  | chunkData => cases isNext
  | _ =>
    simp only [step] at isNext
    repeat' split at isNext
    all_goals cases isNext
    all_goals simp only [lengthFor]
    all_goals repeat' split
    all_goals omega

theorem lengthFor_done (isDone : step state size ch = .done) : lengthFor state size = 1 := by
  cases state with
  | chunkData => cases isDone
  | trailer | trailerAlmostDone => rfl
  | _ =>
    simp only [step] at isDone
    repeat' split at isDone
    all_goals cases isDone

theorem lengthFor_entry (state : State) (size : ℕ) :
    lengthFor (entry state size) size = lengthFor state size := by
  rw [entry]
  split
  next isEntry => rw [isEntry.1, isEntry.2, lengthFor, lengthFor]
  next => rfl

theorem lengthFor_le (isDone : (drive state size bytes).verdict = .done) :
    lengthFor state size ≤ bytes.length := by
  induction bytes generalizing state size with
  | nil =>
    rw [drive] at isDone
    split_ifs at isDone
  | cons ch rest ih =>
    rw [drive] at isDone
    rw [length_cons]
    by_cases isData : state = .chunkData ∧ size ≠ 0
    · rw [if_pos isData] at isDone
      have later := ih isDone
      rw [isData.1]
      simp only [lengthFor] at later ⊢
      omega
    · rw [if_neg isData] at isDone
      rw [← lengthFor_entry]
      cases isStep : step (entry state size) size ch with
      | next nextState nextSize =>
        rw [isStep] at isDone
        have later := ih isDone
        have nearer := lengthFor_step isStep
        omega
      | data | invalid =>
        rw [isStep] at isDone
        cases isDone
      | done =>
        rw [lengthFor_done isStep]
        omega

/-- What ends a chunk of `LF`s and the stream -/
def chunkEnd (size : ℕ) : List Byte := replicate size LF ++ [LF, 0x30, LF, LF]

theorem drive_chunkEnd (size : ℕ) : (drive .chunkData size (chunkEnd size)).verdict = .done := by
  rw [chunkEnd, drive_taken (by simp), length_replicate, Nat.sub_self]
  rfl

theorem exists_shortest (possible : state = .chunkSize → size ≤ maxOff / 16) :
    ∃ bytes, bytes.length = lengthFor state size ∧ (drive state size bytes).verdict = .done := by
  have isLength : (chunkEnd size).length = size + 4 := by simp [chunkEnd]
  cases state with
  | chunkStart => exact ⟨[0x30, LF, LF], rfl, rfl⟩
  | chunkSize =>
    have notLarge : ¬ maxOff / 16 < size := Nat.not_lt.mpr (possible rfl)
    by_cases isZero : size = 0
    · subst isZero
      exact ⟨[LF, LF], rfl, rfl⟩
    · refine ⟨LF :: chunkEnd size, by simp [isLength, lengthFor, isZero]; omega, ?_⟩
      have isNext : step .chunkSize size LF = .next .chunkData size := by
        rw [step, if_neg notLarge]
        exact if_neg isZero
      rw [drive_cons size (by decide), isNext]
      exact drive_chunkEnd size
  | chunkExtension | chunkExtensionAlmostDone =>
    exact ⟨LF :: chunkEnd size, by simp [isLength, lengthFor]; omega, drive_chunkEnd size⟩
  | chunkData => exact ⟨chunkEnd size, isLength, drive_chunkEnd size⟩
  | afterData | afterDataAlmostDone => exact ⟨[LF, 0x30, LF, LF], rfl, rfl⟩
  | trailer | trailerAlmostDone => exact ⟨[LF], rfl, rfl⟩
  | _ => exact ⟨[LF, LF], rfl, rfl⟩

theorem size_of_done (isDone : (drive state size bytes).verdict = .done)
    (isSize : state = .chunkSize) : size ≤ maxOff / 16 := by
  subst isSize
  by_contra large
  cases bytes with
  | nil =>
    rw [drive] at isDone
    split_ifs at isDone
  | cons ch rest =>
    rw [drive_cons size (by decide), step, if_pos (not_le.mp large)] at isDone
    cases isDone

theorem loop_length {given : List Byte} {parsed : Parsed}
    (isParsed : loop ctx given state size bytes = parsed)
    (continues : parsed.rc = .again ∨ parsed.rc = .ok) :
    parsed.ctx.length = lengthFor parsed.ctx.state parsed.ctx.size := by
  have atEnd : ∀ rc state size rest, atData rc ctx state size rest = parsed →
      parsed.ctx.length = lengthFor parsed.ctx.state parsed.ctx.size := by
    rintro rc state size rest rfl
    rw [atData] at continues ⊢
    split at continues
    · simp at continues
    next small => rw [if_neg small]
  induction bytes generalizing state size with
  | nil => exact atEnd _ _ _ _ isParsed
  | cons ch rest ih =>
    rw [loop] at isParsed
    cases isStep : step state size ch with
    | next nextState nextSize =>
      rw [isStep] at isParsed
      exact ih isParsed
    | data =>
      rw [isStep] at isParsed
      exact atEnd _ _ _ _ isParsed
    | done | invalid =>
      rw [isStep] at isParsed
      subst isParsed
      simp at continues

/-- The contexts while a stream is read: after `NGX_OK` some bytes of the chunk are taken. -/
inductive Reached : Ctx → Prop
  | start : Reached zeroed
  | again {ctx : Ctx} {bytes : List Byte} (reached : Reached ctx)
    (isAgain : (parseChunked ctx bytes).rc = .again) : Reached (parseChunked ctx bytes).ctx
  | ok {ctx : Ctx} {bytes : List Byte} (reached : Reached ctx)
    (isOk : (parseChunked ctx bytes).rc = .ok) (taken : ℕ) : Reached
      { (parseChunked ctx bytes).ctx with size := (parseChunked ctx bytes).ctx.size - taken }

theorem LoopSpec.context {parsed : Parsed} (spec : LoopSpec state size bytes parsed)
    (continues : parsed.rc = .again ∨ parsed.rc = .ok) :
    Reachable parsed.ctx.state parsed.ctx.size ∧ parsed.ctx.size ≤ maxOff - 5 ∧
      (parsed.rc = .ok → parsed.ctx.state = .chunkData) := by
  cases spec with
  | again reachable small _ => exact ⟨reachable, small, nofun⟩
  | ok isState inside _ _ _ =>
    have small := inside.reachable.small (by rw [isState]; decide)
    exact ⟨inside.reachable, small.trans (by decide), fun _ => isState⟩
  | _ => simp at continues

theorem Reached.reachable (reached : Reached ctx) : Reachable ctx.state ctx.size := by
  induction reached with
  | start => exact ⟨nofun, by simp [zeroed]⟩
  | @again _ bytes _ isAgain reachable =>
    exact ((parseChunked_spec bytes reachable).context (.inl isAgain)).1
  | @ok _ bytes _ isOk taken reachable =>
    obtain ⟨known, _, isState⟩ := (parseChunked_spec bytes reachable).context (.inr isOk)
    simp only [isState isOk] at known ⊢
    exact known.taken taken

/-- After `NGX_AGAIN` and `NGX_OK` no fewer than `ctx->length` bytes end the stream, and if any
bytes end it, so do some of that number. -/
theorem length_is_distance {ctx : Ctx} (reached : Reached ctx) (bytes : List Byte)
    (continues : (parseChunked ctx bytes).rc = .again ∨ (parseChunked ctx bytes).rc = .ok) :
    let after := (parseChunked ctx bytes).ctx
    (∀ buffers reading, feed after buffers = some reading → reading.verdict = .done →
      after.length ≤ buffers.flatten.length) ∧
    ((∃ buffers reading, feed after buffers = some reading ∧ reading.verdict = .done) →
      ∃ last reading, last.length = after.length ∧ feed after [last] = some reading ∧
        reading.verdict = .done) := by
  intro after
  have isLength : after.length = lengthFor after.state after.size := loop_length rfl continues
  obtain ⟨reachable, small, _⟩ := (parseChunked_spec bytes reached.reachable).context continues
  have sameVerdict : ∀ buffers reading, feed after buffers = some reading →
      reading.verdict = (drive after.state after.size buffers.flatten).verdict := by
    intro buffers reading isReading
    obtain ⟨other, isOther, isVerdict, _⟩ := feed_eq_drive reachable small buffers
    cases isOther.symm.trans isReading
    exact isVerdict
  rw [isLength]
  constructor
  · intro buffers reading isReading isDone
    rw [sameVerdict buffers reading isReading] at isDone
    exact lengthFor_le isDone
  · rintro ⟨buffers, reading, isReading, isDone⟩
    rw [sameVerdict buffers reading isReading] at isDone
    obtain ⟨last, lastLength, lastDone⟩ := exists_shortest (size_of_done isDone)
    obtain ⟨reading, isReading, isVerdict, _⟩ := feed_eq_drive reachable small [last]
    rw [flatten_singleton, lastDone] at isVerdict
    exact ⟨last, reading, lastLength, isReading, isVerdict⟩

theorem length_is_distance_oneByte :
    ∃ last reading, last.length = 5 ∧ feed ⟨.chunkData, 1, 5⟩ [last] = some reading ∧
      reading.verdict = .done :=
  (length_is_distance .start [0x31, LF] (.inl rfl)).2 ⟨[[0x78, LF, 0x30, LF, LF]], _, rfl, rfl⟩

end Skyc.Nginx.Chunked
