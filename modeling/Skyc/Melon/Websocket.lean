import Skyc.Lib.Chunks

/-!
# Parsing websocket frames

Where a buffer ends within a field, `mln_websocket_parse` is meant to go on in the
next one, but the number of bytes left is computed as `p - end`: a field is found
whole in a buffer, or the parser reads behind the end of one.

There is no result when bytes outside of a buffer are accessed, or an `int` is
shifted by 32 or more; shorter shifts keep the low 32 bits.  A handler of
extensions is not set.
-/

namespace Skyc.Melon.Websocket

open Skyc.Lib Chunks List Option

abbrev Byte := BitVec 8

/-- The bytes of `mln_buf_t` that are left; pointers into it can be
subtracted. -/
structure Buf where
  bytes : List Byte
  addressable : bytes.length < 2 ^ 63

/-- The fields of `mln_websocket_t` that `mln_websocket_parse` uses. -/
structure Ws where
  content : Option (List Byte)
  contentLen : BitVec 64
  contentFree : Bool
  fin : Bool
  rsv1 : Bool
  rsv2 : Bool
  rsv3 : Bool
  opcode : BitVec 4
  mask : Bool
  status : BitVec 16
  maskingKey : BitVec 32

/-- The values that `mln_websocket_parse` returns. -/
inductive Ret where
  | ok
  | failed
  | notYet
  deriving DecidableEq, Repr

/-- What a call returns, and what it leaves in `*in`. -/
structure Result where
  ret : Ret
  ws : Ws
  chain : List (List Byte)

/-- Where the parser is: the bytes from `p` to `end`, and the buffers behind
`c`. -/
structure Cursor where
  rest : List Byte
  later : List Buf

/-- A field has been read, or the chain ended. -/
inductive Fetched (α : Type) where
  | notYet
  | done (value : α) (cursor : Cursor)

/-- `p - end`, as a value of type `mln_u64_t` -/
def pMinusEnd (rest : List Byte) : ℕ :=
  (2 ^ 64 - rest.length) % 2 ^ 64

/-! ## Reading the header -/

/-- The first loop; `first` is `b1` once `i` is 1. -/
def header (first : Option Byte) : List Buf → Option (Byte × Byte × Cursor)
  | [] => none
  | buf :: later =>
    match first, buf.bytes with
    | first, [] => header first later
    | none, [b1] => header (some b1) later
    | none, b1 :: b2 :: rest => some (b1, b2, ⟨rest, later⟩)
    | some b1, b2 :: rest => some (b1, b2, ⟨rest, later⟩)

/-! ## Reading a number -/

/-- `b << count` for a byte, which is an `int`. -/
def shiftLeft (b : Byte) (count : ℕ) : Option (BitVec 32) :=
  if count < 32 then some (b.setWidth 32 <<< count) else none

/-- `for (; i < tmp; ++i) value |= ((*p++) << ((size - 1 - i) << 3))`, for
`count` more turns. -/
def readBytes (width size : ℕ) :
    ℕ → ℕ → BitVec width → List Byte → Option (BitVec width × List Byte)
  | 0, _, value, rest => some (value, rest)
  | _ + 1, _, _, [] => none
  | count + 1, i, value, b :: rest => do
    let shifted ← shiftLeft b ((size - 1 - i) * 8)
    readBytes width size count (i + 1) (value ||| shifted.signExtend width) rest

/-- The way to the next buffer, and from there to the labels `again127`,
`again126`, `againm` and `against`, after `tmp` bytes of a number. -/
def seekNumber (width size : ℕ) : List Buf → ℕ → BitVec width → Option (Fetched (BitVec width))
  | [], _, _ => some .notYet
  | buf :: later, tmp, value =>
    if buf.bytes = [] then
      seekNumber width size later tmp value
    else
      let next :=
        if pMinusEnd buf.bytes < size - tmp then
          tmp + pMinusEnd buf.bytes % 2 ^ 32
        else
          size
      (readBytes width size (next - tmp) tmp value buf.bytes).bind fun read =>
        if next < size then
          seekNumber width size later next read.1
        else
          some (.done read.1 ⟨read.2, later⟩)

/-- A number of the given size from the bytes at `p`. -/
def readNumber (width size : ℕ) (cursor : Cursor) : Option (Fetched (BitVec width)) :=
  let tmp :=
    if size < pMinusEnd cursor.rest then size else pMinusEnd cursor.rest
  (readBytes width size tmp 0 0 cursor.rest).bind fun read =>
    if tmp < size then
      seekNumber width size cursor.later tmp read.1
    else
      some (.done read.1 ⟨read.2, cursor.later⟩)

/-! ## Reading the content -/

/-- `memcpy(content+i, p, tmp)` for a block of `len` bytes, of which those in
`content` are written. -/
def copy (len tmp : ℕ) (content rest : List Byte) : Option (List Byte × List Byte) :=
  if tmp ≤ rest.length ∧ content.length + tmp ≤ len then
    some (content ++ rest.take tmp, rest.drop tmp)
  else
    none

/-- The way to the next buffer, and from there to the label `againc`. -/
def seekContent (len : ℕ) : List Buf → ℕ → List Byte → Option (Fetched (List Byte))
  | [], _, _ => some .notYet
  | buf :: later, tmp, content =>
    if buf.bytes = [] then
      seekContent len later tmp content
    else
      let next :=
        if pMinusEnd buf.bytes < len - tmp then pMinusEnd buf.bytes
        else len - tmp
      (copy len next content buf.bytes).bind fun copied =>
        if next < len then
          seekContent len later next copied.1
        else
          some (.done copied.1 ⟨copied.2, later⟩)

/-- The `len` bytes at `p`. -/
def readContent (len : ℕ) (cursor : Cursor) : Option (Fetched (List Byte)) :=
  let tmp := if len < pMinusEnd cursor.rest then len else pMinusEnd cursor.rest
  (copy len tmp [] cursor.rest).bind fun copied =>
    if tmp < len then
      seekContent len cursor.later tmp copied.1
    else
      some (.done copied.1 ⟨copied.2, cursor.later⟩)

/-! ## The fields -/

/-- `M_WS_OPCODE_CLOSE` -/
def opcodeClose : BitVec 4 := 0x8

/-- `b2 & 0x7f` -/
def shortLength (b2 : Byte) : BitVec 8 :=
  b2 &&& 0x7f

/-- `b2 & 0x80` -/
def masked (b2 : Byte) : Bool :=
  b2 &&& 0x80 ≠ 0

/-- `b1 & 0xf` -/
def opcodeOf (b1 : Byte) : BitVec 4 :=
  b1.setWidth 4

/-- The variable `len`, from the second byte or from the bytes behind it. -/
def readLength (b2 : Byte) (cursor : Cursor) : Option (Fetched (BitVec 64)) :=
  if shortLength b2 = 127 then
    readNumber 64 8 cursor
  else if shortLength b2 = 126 then
    readNumber 64 2 cursor
  else
    some (.done ((shortLength b2).setWidth 64) cursor)

/-- The variable `masking_key`. -/
def readKey (b2 : Byte) (cursor : Cursor) : Option (Fetched (BitVec 32)) :=
  if masked b2 then
    readNumber 32 4 cursor
  else
    some (.done 0 cursor)

/-- `tmpkey[i%4]` -/
def keyByte (maskingKey : BitVec 32) (i : ℕ) : Byte :=
  (maskingKey >>> (24 - i % 4 * 8)).setWidth 8

/-- The loop `content[tmp] ^= tmpkey[i++%4]`. -/
def unmask (maskingKey : BitVec 32) : ℕ → List Byte → List Byte
  | _, [] => []
  | i, b :: rest => (b ^^^ keyByte maskingKey i) :: unmask maskingKey (i + 1) rest

/-- The two assignments to `status` in the branch for a mask. -/
def unmaskStatus (maskingKey : BitVec 32) (status : BitVec 16) : BitVec 16 :=
  let high := (status >>> 8).setWidth 8 ^^^ keyByte maskingKey 0
  let low := status.setWidth 8 ^^^ keyByte maskingKey 1
  (high ++ low).cast (by decide)

/-- The fields of `ws` once the frame has been read. -/
def assign (ws : Ws) (b1 b2 : Byte) (maskingKey : BitVec 32) (len : BitVec 64)
    (content : Option (List Byte)) : Ws :=
  { ws with
    content := content
    contentFree := content.isSome
    contentLen := len
    fin := b1 &&& 0x80 ≠ 0
    rsv1 := b1 &&& 0x40 ≠ 0
    rsv2 := b1 &&& 0x20 ≠ 0
    rsv3 := b1 &&& 0x10 ≠ 0
    opcode := opcodeOf b1
    mask := masked b2
    maskingKey := if masked b2 then maskingKey else 0 }

def removeMask (maskingKey : BitVec 32) (ws : Ws) : Ws :=
  if ws.mask then
    if ws.opcode = opcodeClose ∧ ws.status ≠ 0 then
      { ws with
        status := unmaskStatus maskingKey ws.status
        content := ws.content.map (unmask maskingKey 2) }
    else
      { ws with content := ws.content.map (unmask maskingKey 0) }
  else
    ws

/-- What is left of the chain: `left_pos` of the buffer at the cursor is moved,
and buffers without bytes are skipped. -/
def leftOver (cursor : Cursor) : List (List Byte) :=
  (cursor.rest :: cursor.later.map Buf.bytes).dropWhile (· = [])

section Parse

variable (alloc : ℕ → Bool) (chain : List Buf)

def andThen {α : Type} (ws : Ws) (fetched : Option (Fetched α))
    (next : α → Cursor → Option Result) : Option Result :=
  fetched.bind fun outcome =>
    match outcome with
    | .notYet => some ⟨.notYet, ws, chain.map Buf.bytes⟩
    | .done value cursor => next value cursor

/-- `mln_websocket_parse` behind `againc`. -/
def finish (ws : Ws) (b1 b2 : Byte) (maskingKey : BitVec 32) (len : BitVec 64)
    (content : Option (List Byte)) (cursor : Cursor) : Option Result :=
  some ⟨.ok, removeMask maskingKey (assign ws b1 b2 maskingKey len content), leftOver cursor⟩

/-- `mln_websocket_parse` from the allocation of the content on. -/
def parseContent (ws : Ws) (b1 b2 : Byte) (maskingKey : BitVec 32)
    (len : BitVec 64) (cursor : Cursor) : Option Result :=
  if alloc len.toNat then
    andThen chain ws (readContent len.toNat cursor) fun content cursor =>
      finish ws b1 b2 maskingKey len (some content) cursor
  else
    some ⟨.failed, ws, chain.map Buf.bytes⟩

/-- `mln_websocket_parse` from `if (len)` on. -/
def parsePayload (ws : Ws) (b1 b2 : Byte) (maskingKey : BitVec 32)
    (len : BitVec 64) (cursor : Cursor) : Option Result :=
  if len = 0 then
    finish ws b1 b2 maskingKey len none cursor
  else if opcodeOf b1 = opcodeClose ∧ 1 < len.toNat then
    andThen chain ws (readNumber 16 2 cursor) fun status cursor =>
      parseContent alloc chain { ws with status := status } b1 b2 maskingKey (len - 2) cursor
  else
    parseContent alloc chain { ws with status := 0 } b1 b2 maskingKey len cursor

/-- `mln_websocket_parse` -/
def parse (ws : Ws) : Option Result :=
  match header none chain with
  | none => some ⟨.notYet, ws, chain.map Buf.bytes⟩
  | some (b1, b2, cursor) =>
    andThen chain ws (readLength b2 cursor) fun len cursor =>
      andThen chain ws (readKey b2 cursor) fun maskingKey cursor =>
        parsePayload alloc chain ws b1 b2 maskingKey len cursor

end Parse

/-! ## What a reader finds -/

def chunksOf (chain : List Buf) : List (List Byte) :=
  (chain.map Buf.bytes).filter (· ≠ [])

namespace Cursor

def chunks (cursor : Cursor) : List (List Byte) :=
  push cursor.rest (chunksOf cursor.later)

/-- Pointers into the buffer at the cursor can be subtracted. -/
def Addressable (cursor : Cursor) : Prop :=
  cursor.rest.length < 2 ^ 63

end Cursor

variable {buf : Buf}

theorem chunksOf_cons_nil {later : List Buf} (isEmpty : buf.bytes = []) :
    chunksOf (buf :: later) = chunksOf later := by
  simp [chunksOf, isEmpty]

theorem chunksOf_cons {later : List Buf} (notEmpty : buf.bytes ≠ []) :
    chunksOf (buf :: later) = buf.bytes :: chunksOf later := by
  simp [chunksOf, notEmpty]

theorem chunksOf_nonempty (chain : List Buf) : ∀ chunk ∈ chunksOf chain, chunk ≠ [] := by
  intro chunk member
  simpa using (mem_filter.mp member).2

/-- What a reader of `size` bytes does with the chunks at a cursor.  A chunk that is too
short is left behind its end. -/
structure Reads {α : Type} (size : ℕ) (value : List Byte → Option α)
    (cursor : Cursor) (fetched : Option (Fetched α)) : Prop where
  ends : cursor.chunks = [] → fetched = some .notYet
  short : ∀ chunk rest, cursor.chunks = chunk :: rest → chunk.length < size → fetched = none
  whole : ∀ chunk rest, cursor.chunks = chunk :: rest → size ≤ chunk.length →
    ∃ next : Cursor, next.chunks = push (chunk.drop size) rest ∧ next.Addressable ∧
      fetched = (value (chunk.take size)).map fun found => .done found next

theorem pMinusEnd_nil : pMinusEnd [] = 0 := rfl

variable {rest : List Byte} {width size count i : ℕ} {later : List Buf} {α : Type}

/-- The difference is of the wrong sign, and so never small. -/
theorem pMinusEnd_large (notEmpty : rest ≠ [])
    (addressable : rest.length < 2 ^ 63) : 2 ^ 63 < pMinusEnd rest := by
  have positive := length_pos_iff.mpr notEmpty
  rw [pMinusEnd, Nat.mod_eq_of_lt (by omega)]
  omega

theorem readBytes_short {value : BitVec width} (short : rest.length < count) :
    readBytes width size count i value rest = none := by
  induction rest generalizing count i value with
  | nil =>
    cases count with
    | zero => cases short
    | succ count => rfl
  | cons b rest ih =>
    cases count with
    | zero => cases short
    | succ count =>
      rw [readBytes]
      cases shiftLeft b ((size - 1 - i) * 8) with
      | none => rfl
      | some shifted => exact ih (Nat.lt_of_succ_lt_succ short)

theorem readBytes_take {value : BitVec width} (enough : count ≤ rest.length) :
    readBytes width size count i value rest =
      (readBytes width size count i value (rest.take count)).map
        fun read => (read.1, rest.drop count) := by
  induction count generalizing i value rest with
  | zero => rfl
  | succ count ih =>
    cases rest with
    | nil => cases enough
    | cons b rest =>
      rw [take_succ_cons, readBytes, readBytes]
      cases shiftLeft b ((size - 1 - i) * 8) with
      | none => rfl
      | some shifted => exact ih (Nat.le_of_succ_le_succ enough)

def number (width size : ℕ) (bytes : List Byte) : Option (BitVec width) :=
  (readBytes width size size 0 0 bytes).map Prod.fst

theorem push_nil_chunks (later : List Buf) : (Cursor.mk [] later).chunks = chunksOf later := rfl

theorem push_chunks (notEmpty : rest ≠ []) :
    (Cursor.mk rest later).chunks = rest :: chunksOf later := if_neg notEmpty

variable {cursor : Cursor} {value : List Byte → Option α} {fetched : Option (Fetched α)}

theorem Reads.congr {other : Cursor} (reads : Reads size value cursor fetched)
    (same : other.chunks = cursor.chunks) : Reads size value other fetched := by
  refine ⟨?_, ?_, ?_⟩
  · rw [same]
    exact reads.ends
  · rw [same]
    exact reads.short
  · rw [same]
    exact reads.whole

theorem reads_here (notEmpty : rest ≠ []) (addressable : rest.length < 2 ^ 63)
    (short : rest.length < size → fetched = none) (whole : size ≤ rest.length → fetched =
      (value (rest.take size)).map fun found =>
        .done found ⟨rest.drop size, later⟩) : Reads size value ⟨rest, later⟩ fetched := by
  refine ⟨?_, ?_, ?_⟩
  · rw [push_chunks notEmpty]
    exact nofun
  · rw [push_chunks notEmpty]
    intro chunk others isChunk isShort
    cases isChunk
    exact short isShort
  · rw [push_chunks notEmpty]
    intro chunk others isChunk enough
    cases isChunk
    refine ⟨⟨rest.drop size, later⟩, rfl, ?_, whole enough⟩
    have length : (rest.drop size).length = rest.length - size := length_drop
    change (rest.drop size).length < 2 ^ 63
    omega

theorem reads_nil : Reads size value ⟨[], []⟩ (some .notYet) := by
  refine ⟨fun _ => rfl, ?_, ?_⟩
  · exact nofun
  · exact nofun

theorem chunks_cons_nil (isEmpty : buf.bytes = []) :
    (Cursor.mk [] (buf :: later)).chunks = (Cursor.mk [] later).chunks := by
  rw [push_nil_chunks, push_nil_chunks, chunksOf_cons_nil isEmpty]

theorem chunks_cons (notEmpty : buf.bytes ≠ []) :
    (Cursor.mk [] (buf :: later)).chunks = (Cursor.mk buf.bytes later).chunks := by
  rw [push_nil_chunks, push_chunks notEmpty, chunksOf_cons notEmpty]

/-! ### Numbers -/

theorem readBytes_reads {finish : BitVec width × List Byte → Option (Fetched (BitVec width))}
    (notEmpty : rest ≠ []) (addressable : rest.length < 2 ^ 63)
    (isFinish : ∀ read, finish read = some (.done read.1 ⟨read.2, later⟩)) :
    Reads size (number width size) ⟨rest, later⟩
      ((readBytes width size size 0 0 rest).bind finish) := by
  apply reads_here notEmpty addressable
  · intro short
    rw [readBytes_short short]
    rfl
  · intro enough
    rw [readBytes_take enough, number]
    cases readBytes width size size 0 0 (rest.take size) with
    | none => rfl
    | some read => exact isFinish _

theorem seekNumber_reads (small : size ≤ 8) (later : List Buf) :
    Reads size (number width size) ⟨[], later⟩ (seekNumber width size later 0 0) := by
  induction later with
  | nil => exact reads_nil
  | cons buf later ih =>
    rw [seekNumber]
    by_cases isEmpty : buf.bytes = []
    · rw [if_pos isEmpty]
      exact ih.congr (chunks_cons_nil isEmpty)
    · have large := pMinusEnd_large isEmpty buf.addressable
      have notLess : ¬ pMinusEnd buf.bytes < size - 0 := by omega
      rw [if_neg isEmpty, if_neg notLess]
      refine Reads.congr ?_ (chunks_cons isEmpty)
      apply readBytes_reads isEmpty buf.addressable
      intro read
      exact if_neg (lt_irrefl size)

theorem readNumber_reads (positive : 0 < size)
    (small : size ≤ 8) (addressable : cursor.Addressable) :
    Reads size (number width size) cursor (readNumber width size cursor) := by
  obtain ⟨rest, later⟩ := cursor
  rw [readNumber]
  by_cases isEmpty : rest = []
  · subst isEmpty
    rw [pMinusEnd_nil, if_neg (Nat.not_lt_zero size)]
    change Reads size (number width size) ⟨[], later⟩
      (if 0 < size then seekNumber width size later 0 0 else _)
    rw [if_pos positive]
    exact seekNumber_reads small later
  · have large := pMinusEnd_large isEmpty addressable
    have isSize : size < pMinusEnd rest := by omega
    rw [if_pos isSize]
    apply readBytes_reads isEmpty addressable
    intro read
    exact if_neg (lt_irrefl size)

/-! ### The content -/

variable {len : ℕ}

theorem copy_reads {finish : List Byte × List Byte → Option (Fetched (List Byte))}
    (notEmpty : rest ≠ []) (addressable : rest.length < 2 ^ 63)
    (isFinish : ∀ copied, finish copied = some (.done copied.1 ⟨copied.2, later⟩)) :
    Reads len some ⟨rest, later⟩ ((copy len len [] rest).bind finish) := by
  apply reads_here notEmpty addressable
  · intro short
    have outside : ¬ (len ≤ rest.length ∧ ([] : List Byte).length + len ≤ len) :=
      fun both => Nat.not_le_of_lt short both.1
    rw [copy, if_neg outside]
    rfl
  · intro enough
    have inside : len ≤ rest.length ∧ ([] : List Byte).length + len ≤ len :=
      ⟨enough, le_of_eq (zero_add len)⟩
    rw [copy, if_pos inside, bind_some, isFinish]
    rfl

theorem seekContent_reads (small : len ≤ 2 ^ 63) (later : List Buf) :
    Reads len some ⟨[], later⟩ (seekContent len later 0 []) := by
  induction later with
  | nil => exact reads_nil
  | cons buf later ih =>
    rw [seekContent]
    by_cases isEmpty : buf.bytes = []
    · rw [if_pos isEmpty]
      exact ih.congr (chunks_cons_nil isEmpty)
    · have large := pMinusEnd_large isEmpty buf.addressable
      have notLess : ¬ pMinusEnd buf.bytes < len - 0 := by omega
      rw [if_neg isEmpty, if_neg notLess]
      refine Reads.congr ?_ (chunks_cons isEmpty)
      apply copy_reads isEmpty buf.addressable
      intro copied
      exact if_neg (lt_irrefl len)

theorem readContent_reads (positive : 0 < len) (small : len ≤ 2 ^ 63)
    (addressable : cursor.Addressable) : Reads len some cursor (readContent len cursor) := by
  obtain ⟨rest, later⟩ := cursor
  rw [readContent]
  by_cases isEmpty : rest = []
  · subst isEmpty
    rw [pMinusEnd_nil, if_neg (Nat.not_lt_zero len), copy, if_pos ⟨le_refl 0, Nat.zero_le len⟩]
    change Reads len some ⟨[], later⟩ (if 0 < len then seekContent len later 0 [] else _)
    rw [if_pos positive]
    exact seekContent_reads small later
  · have large := pMinusEnd_large isEmpty addressable
    have isLen : len < pMinusEnd rest := by omega
    rw [if_pos isLen]
    apply copy_reads isEmpty addressable
    intro copied
    exact if_neg (lt_irrefl len)

theorem readContent_zero (cursor : Cursor) : readContent 0 cursor = some (.done [] cursor) := by
  rw [readContent]
  have isZero : (if 0 < pMinusEnd cursor.rest then 0
      else pMinusEnd cursor.rest) = 0 := by
    split
    · rfl
    · omega
  rw [isZero, copy, if_pos ⟨Nat.zero_le _, le_refl 0⟩]
  rfl

/-! ### The header -/

theorem header_some (b1 : Byte) (chain : List Buf) :
    (chunksOf chain = [] → header (some b1) chain = none) ∧
      ∀ b2 chunk rest, chunksOf chain = (b2 :: chunk) :: rest →
        ∃ cursor : Cursor, header (some b1) chain = some (b1, b2, cursor) ∧
          cursor.Addressable ∧ cursor.chunks = push chunk rest := by
  induction chain with
  | nil =>
    refine ⟨fun _ => rfl, ?_⟩
    exact nofun
  | cons buf later ih =>
    obtain ⟨bytes, addressable⟩ := buf
    cases bytes with
    | nil =>
      have skipped : header (some b1) (⟨[], addressable⟩ :: later) =
        header (some b1) later := by simp [header]
      rw [chunksOf_cons_nil rfl, skipped]
      exact ih
    | cons b bytes =>
      rw [chunksOf_cons (cons_ne_nil b bytes)]
      refine ⟨?_, ?_⟩
      · exact nofun
      · intro b2 chunk rest isChunk
        cases isChunk
        exact ⟨⟨bytes, later⟩, by simp [header], Nat.lt_of_succ_lt addressable, rfl⟩

theorem header_none (chain : List Buf) :
    (chunksOf chain = [] → header none chain = none) ∧
      ∀ b1 chunk rest, chunksOf chain = (b1 :: chunk) :: rest →
        (push chunk rest = [] → header none chain = none) ∧
          ∀ b2 more others, push chunk rest = (b2 :: more) :: others →
            ∃ cursor : Cursor, header none chain = some (b1, b2, cursor) ∧
              cursor.Addressable ∧ cursor.chunks = push more others := by
  induction chain with
  | nil =>
    refine ⟨fun _ => rfl, ?_⟩
    exact nofun
  | cons buf later ih =>
    obtain ⟨bytes, addressable⟩ := buf
    cases bytes with
    | nil =>
      have skipped : header none (⟨[], addressable⟩ :: later) =
        header none later := by simp [header]
      rw [chunksOf_cons_nil rfl, skipped]
      exact ih
    | cons b bytes =>
      rw [chunksOf_cons (cons_ne_nil b bytes)]
      refine ⟨?_, ?_⟩
      · exact nofun
      · intro b1 chunk rest isChunk
        cases isChunk
        cases bytes with
        | nil =>
          have second : header none (⟨[b], addressable⟩ :: later) =
            header (some b) later := by simp [header]
          rw [second]
          exact header_some b later
        | cons b2 bytes =>
          refine ⟨?_, ?_⟩
          · exact nofun
          · intro second more others isPush
            cases isPush
            exact ⟨⟨bytes, later⟩, by simp [header],
              Nat.lt_of_succ_lt (Nat.lt_of_succ_lt addressable), rfl⟩

/-! ## Frames -/

/-- The number that bytes stand for, the first byte being the highest. -/
def bigEndian (bytes : List Byte) : ℕ :=
  bytes.foldl (fun number b => number * 256 + b.toNat) 0

structure Frame where
  b1 : Byte
  b2 : Byte
  extended : List Byte
  key : List Byte
  payload : List Byte
  extendedLength : extended.length =
    if shortLength b2 = 127 then 8 else if shortLength b2 = 126 then 2 else 0
  keyLength : key.length = if masked b2 then 4 else 0
  payloadLength : payload.length =
    if shortLength b2 = 127 ∨ shortLength b2 = 126 then bigEndian extended
    else (shortLength b2).toNat

namespace Frame

def HasStatus (frame : Frame) : Prop :=
  opcodeOf frame.b1 = opcodeClose ∧ 1 < frame.payload.length

instance (frame : Frame) : Decidable frame.HasStatus :=
  inferInstanceAs (Decidable (_ ∧ _))

/-- The fields of a frame; some may have no bytes. -/
def parts (frame : Frame) : List (List Byte) :=
  [frame.b1] :: [frame.b2] :: frame.extended :: frame.key ::
    if frame.HasStatus then [frame.payload.take 2, frame.payload.drop 2]
    else [frame.payload]

def fields (frame : Frame) : List (List Byte) :=
  frame.parts.filter (· ≠ [])

def bytes (frame : Frame) : List Byte :=
  frame.b1 :: frame.b2 :: (frame.extended ++ frame.key ++ frame.payload)

theorem fields_flatten (frame : Frame) : frame.fields.flatten = frame.bytes := by
  rw [fields, flatten_filter_ne_nil, parts, bytes]
  by_cases status : frame.HasStatus
  · rw [if_pos status]
    simp
  · rw [if_neg status]
    simp

theorem fields_nonempty (frame : Frame) : ∀ field ∈ frame.fields, field ≠ [] := by
  intro field member
  simpa using (mem_filter.mp member).2

def maskingKey (frame : Frame) : BitVec 32 :=
  if masked frame.b2 then (number 32 4 frame.key).getD 0 else 0

def received (ws : Ws) (frame : Frame) : Ws :=
  let assigned := fun ws len content =>
    removeMask frame.maskingKey (assign ws frame.b1 frame.b2 frame.maskingKey len content)
  if frame.payload = [] then
    assigned ws 0 none
  else if frame.HasStatus then
    assigned { ws with status := (number 16 2 (frame.payload.take 2)).getD 0 }
      (BitVec.ofNat 64 frame.payload.length - 2) (some (frame.payload.drop 2))
  else
    assigned { ws with status := 0 } (BitVec.ofNat 64 frame.payload.length) (some frame.payload)

end Frame

/-! ## What the parser does with fields -/

theorem Cursor.chunks_eq_nil (isEmpty : cursor.chunks.flatten = []) : cursor.chunks = [] := by
  cases isChunks : cursor.chunks with
  | nil => rfl
  | cons chunk rest =>
    rw [isChunks, flatten_cons] at isEmpty
    have member : chunk ∈ cursor.chunks := by
      rw [isChunks]
      exact mem_cons_self
    have notEmpty := ne_nil_of_mem_push (chunksOf_nonempty cursor.later) chunk member
    exact absurd (append_eq_nil_iff.mp isEmpty).1 notEmpty

/-- A part of the parser that reads the given fields: it has no result if a field
is cut, asks for more if fields are missing, and else ends with the given fields
of the connection. -/
structure Behaves (fields : List (List Byte)) (final : Ws)
    (run : Cursor → Option Result) : Prop where
  cut : ∀ cursor, cursor.Addressable → cursor.chunks.flatten <+: fields.flatten →
    ¬ Aligned fields cursor.chunks → run cursor = none
  more : ∀ cursor, cursor.Addressable →
    cursor.chunks.flatten <+: fields.flatten → Aligned fields cursor.chunks →
    cursor.chunks.flatten ≠ fields.flatten →
    ∃ result, run cursor = some result ∧ result.ret = .notYet
  ends : ∀ cursor, cursor.Addressable →
    Aligned fields cursor.chunks → cursor.chunks.flatten = fields.flatten →
    ∃ result, run cursor = some result ∧ result.ret = .ok ∧ result.ws = final

theorem behaves_finish (ws : Ws) (b1 b2 : Byte) (maskingKey : BitVec 32)
    (len : BitVec 64) (content : Option (List Byte)) :
    Behaves [] (removeMask maskingKey (assign ws b1 b2 maskingKey len content))
      (finish ws b1 b2 maskingKey len content) := by
  refine ⟨?_, ?_, ?_⟩
  · intro cursor _ isPrefix notAligned
    rw [Cursor.chunks_eq_nil (prefix_nil.mp isPrefix)] at notAligned
    exact absurd aligned_nil notAligned
  · intro cursor _ isPrefix _ apart
    exact absurd (prefix_nil.mp isPrefix) apart
  · intro cursor _ _ _
    exact ⟨_, rfl, rfl, rfl⟩

variable {fields : List (List Byte)}

theorem behaves_read {chain : List Buf} {ws final : Ws}
    {field : List Byte} {found : α} {read : Cursor → Option (Fetched α)}
    {next : α → Cursor → Option Result} (notEmpty : field ≠ []) (isFound : value field = some found)
    (reads : ∀ cursor, cursor.Addressable →
      Reads field.length value cursor (read cursor)) (later : Behaves fields final (next found)) :
    Behaves (field :: fields) final fun cursor => andThen chain ws (read cursor) next := by
  -- the chunk at the cursor holds the field
  have step : ∀ cursor : Cursor, cursor.Addressable → ∀ chunk rest, cursor.chunks = chunk :: rest →
      cursor.chunks.flatten <+: (field :: fields).flatten →
      field.length ≤ chunk.length →
      ∃ moved : Cursor, moved.Addressable ∧ moved.chunks = push (chunk.drop field.length) rest ∧
        moved.chunks.flatten <+: fields.flatten ∧
        (cursor.chunks.flatten = (field :: fields).flatten ↔
          moved.chunks.flatten = fields.flatten) ∧
        andThen chain ws (read cursor) next = next found moved := by
    intro cursor addressable chunk rest isChunks isPrefix enough
    obtain ⟨moved, movedChunks, movedAddressable, isRead⟩ :=
      (reads cursor addressable).whole chunk rest isChunks enough
    rw [isChunks, flatten_cons] at isPrefix
    obtain ⟨isField, restPrefix⟩ := field_of_chunk isPrefix enough
    refine ⟨moved, movedAddressable, movedChunks, ?_, ?_, ?_⟩
    · rw [movedChunks]
      exact restPrefix
    · rw [isChunks, movedChunks, push_flatten, flatten_cons, flatten_cons]
      have split : chunk = field ++ chunk.drop field.length := by
        calc
          chunk = chunk.take field.length ++ chunk.drop field.length := (take_append_drop _ _).symm
          _ = field ++ chunk.drop field.length := by rw [isField]
      rw [split, append_assoc, append_cancel_left_eq, drop_left]
    · rw [isRead, isField, isFound]
      rfl
  refine ⟨?_, ?_, ?_⟩
  · intro cursor addressable isPrefix notAligned
    cases isChunks : cursor.chunks with
    | nil =>
      rw [isChunks] at notAligned
      exact absurd trivial notAligned
    | cons chunk rest =>
      by_cases enough : field.length ≤ chunk.length
      · obtain ⟨moved, movedAddressable, movedChunks, movedPrefix, _, isNext⟩ :=
          step cursor addressable chunk rest isChunks isPrefix enough
        rw [isNext]
        apply later.cut moved movedAddressable movedPrefix
        intro aligned
        rw [movedChunks] at aligned
        rw [isChunks] at notAligned
        exact notAligned ⟨enough, aligned⟩
      · have isRead := (reads cursor addressable).short chunk rest isChunks (not_le.mp enough)
        rw [isRead]
        rfl
  · intro cursor addressable isPrefix aligned apart
    cases isChunks : cursor.chunks with
    | nil =>
      have isRead := (reads cursor addressable).ends isChunks
      refine ⟨⟨.notYet, ws, chain.map Buf.bytes⟩, ?_, rfl⟩
      rw [isRead]
      rfl
    | cons chunk rest =>
      rw [isChunks] at aligned
      obtain ⟨enough, restAligned⟩ := aligned
      obtain ⟨moved, movedAddressable, movedChunks, movedPrefix, same, isNext⟩ :=
        step cursor addressable chunk rest isChunks isPrefix enough
      obtain ⟨result, isResult, isNotYet⟩ := later.more moved movedAddressable
        movedPrefix (by rw [movedChunks]; exact restAligned) fun equal => apart (same.mpr equal)
      exact ⟨result, isNext.trans isResult, isNotYet⟩
  · intro cursor addressable aligned equal
    cases isChunks : cursor.chunks with
    | nil =>
      rw [isChunks, flatten_nil, flatten_cons] at equal
      exact absurd (append_eq_nil_iff.mp equal.symm).1 notEmpty
    | cons chunk rest =>
      rw [isChunks] at aligned
      obtain ⟨enough, restAligned⟩ := aligned
      have isPrefix : cursor.chunks.flatten <+: (field :: fields).flatten := by rw [equal]
      obtain ⟨moved, movedAddressable, movedChunks, movedPrefix, same, isNext⟩ :=
        step cursor addressable chunk rest isChunks isPrefix enough
      obtain ⟨result, isResult, isOk, isFinal⟩ := later.ends moved
        movedAddressable (by rw [movedChunks]; exact restAligned) (same.mp equal)
      exact ⟨result, isNext.trans isResult, isOk, isFinal⟩

/-! ## Numbers -/

theorem readBytes_isSome {value : BitVec width} (small : size ≤ 4) (enough : count ≤ rest.length) :
    (readBytes width size count i value rest).isSome := by
  induction count generalizing i value rest with
  | zero => rfl
  | succ count ih =>
    cases rest with
    | nil => cases enough
    | cons b rest =>
      have inRange : (size - 1 - i) * 8 < 32 := by omega
      rw [readBytes, shiftLeft, if_pos inRange]
      exact ih (Nat.le_of_succ_le_succ enough)

variable {bytes : List Byte}

theorem number_eq_some (small : size ≤ 4) (isSize : bytes.length = size) :
    number width size bytes = some ((number width size bytes).getD 0) := by
  have isSome : (number width size bytes).isSome := by
    rw [number, isSome_map]
    exact readBytes_isSome small isSize.symm.le
  obtain ⟨found, isFound⟩ := isSome_iff_exists.mp isSome
  rw [isFound]
  rfl

theorem number_eight (bytes : List Byte) : number width 8 bytes = none := by
  cases bytes with
  | nil | cons => rfl

theorem toNat_signExtend_byte (b : Byte) (count : ℕ) (small : count ≤ 8) :
    ((b.setWidth 32 <<< count).signExtend 64).toNat = b.toNat <<< count := by
  have bound : b.toNat < 256 := b.isLt
  have power : 2 ^ count ≤ 2 ^ 8 := Nat.pow_le_pow_right (by decide) small
  have product : b.toNat * 2 ^ count < 2 ^ 31 := by
    have step := Nat.mul_le_mul bound.le power
    omega
  have value : (b.setWidth 32 <<< count).toNat = b.toNat * 2 ^ count := by
    rw [BitVec.toNat_shiftLeft, BitVec.toNat_setWidth, Nat.shiftLeft_eq,
      Nat.mod_eq_of_lt (show b.toNat < 2 ^ 32 by omega), Nat.mod_eq_of_lt (by omega)]
  have positive : (b.setWidth 32 <<< count).msb = false := by
    rw [BitVec.msb_eq_decide, value]
    simpa using product
  rw [BitVec.signExtend_eq_setWidth_of_msb_false positive, BitVec.toNat_setWidth,
    value, Nat.shiftLeft_eq, Nat.mod_eq_of_lt (by omega)]

theorem number_two (isSize : bytes.length = 2) :
    ∃ found : BitVec 64, number 64 2 bytes = some found ∧ found.toNat = bigEndian bytes := by
  match bytes, isSize with
  | [high, low], _ =>
    refine ⟨(0#64 ||| (high.setWidth 32 <<< 8).signExtend 64) |||
      (low.setWidth 32 <<< 0).signExtend 64, rfl, ?_⟩
    have lowBound : low.toNat < 2 ^ 8 := low.isLt
    rw [BitVec.toNat_or, BitVec.toNat_or, toNat_signExtend_byte _ 8 (by decide),
      toNat_signExtend_byte _ 0 (by decide), BitVec.toNat_ofNat, Nat.zero_mod, Nat.zero_or,
      Nat.shiftLeft_zero, ← Nat.shiftLeft_add_eq_or_of_lt lowBound, Nat.shiftLeft_eq]
    simp [bigEndian]

theorem bigEndian_two (isSize : bytes.length = 2) : bigEndian bytes < 2 ^ 16 := by
  match bytes, isSize with
  | [high, low], _ =>
    have highBound : high.toNat < 2 ^ 8 := high.isLt
    have lowBound : low.toNat < 2 ^ 8 := low.isLt
    simp only [bigEndian, foldl_cons, foldl_nil]
    omega

/-! ## The parser -/

section Stages

variable {alloc : ℕ → Bool} {chain : List Buf} {ws : Ws}

section

variable (allocates : ∀ size, alloc size = true)
include allocates

theorem behaves_content (ws : Ws) (b1 b2 : Byte) (maskingKey : BitVec 32) {content : List Byte}
    {len : BitVec 64} (isLen : len.toNat = content.length) (small : content.length ≤ 2 ^ 63) :
    Behaves ([content].filter (· ≠ []))
      (removeMask maskingKey (assign ws b1 b2 maskingKey len (some content)))
      (parseContent alloc chain ws b1 b2 maskingKey len) := by
  have unfolded : parseContent alloc chain ws b1 b2 maskingKey len =
      fun cursor => andThen chain ws (readContent content.length cursor) fun content cursor =>
        finish ws b1 b2 maskingKey len (some content) cursor := by
    funext cursor
    rw [parseContent, if_pos (allocates _), isLen]
  rw [unfolded]
  by_cases isEmpty : content = []
  · subst isEmpty
    have unread : (fun cursor => andThen chain ws (readContent 0 cursor) fun content cursor =>
          finish ws b1 b2 maskingKey len (some content) cursor) =
        finish ws b1 b2 maskingKey len (some []) := by
      funext cursor
      rw [readContent_zero]
      rfl
    change Behaves [] _ fun cursor => andThen chain ws (readContent 0 cursor) _
    rw [unread]
    exact behaves_finish ..
  · have isField : [content].filter (· ≠ []) = [content] := by simp [isEmpty]
    rw [isField]
    refine behaves_read isEmpty (show some content = some content from rfl) ?_ (behaves_finish ..)
    intro cursor addressable
    exact readContent_reads (length_pos_iff.mpr isEmpty) small addressable

theorem behaves_payload (ws : Ws) (frame : Frame) {len : BitVec 64}
    (isLen : len.toNat = frame.payload.length) (small : frame.payload.length < 2 ^ 63) :
    Behaves ((if frame.HasStatus then
        [frame.payload.take 2, frame.payload.drop 2] else [frame.payload]).filter (· ≠ []))
      (frame.received ws) (parsePayload alloc chain ws frame.b1 frame.b2 frame.maskingKey len) := by
  simp only [Frame.received]
  have sameLen : len = BitVec.ofNat 64 frame.payload.length := by
    rw [← isLen, BitVec.ofNat_toNat, BitVec.setWidth_eq]
  by_cases isEmpty : frame.payload = []
  · have isZero : len = 0 := by
      rw [sameLen, isEmpty]
      rfl
    have noStatus : ¬ frame.HasStatus := by
      intro status
      have longer := status.2
      rw [isEmpty] at longer
      cases longer
    have unfolded : parsePayload alloc chain ws frame.b1 frame.b2 frame.maskingKey len =
        finish ws frame.b1 frame.b2 frame.maskingKey 0 none := by
      funext cursor
      rw [parsePayload, if_pos isZero, isZero]
    rw [if_pos isEmpty, if_neg noStatus, unfolded, isEmpty]
    exact behaves_finish ..
  · have notZero : len ≠ 0 := by
      intro isZero
      rw [isZero] at isLen
      exact isEmpty (length_eq_zero_iff.mp isLen.symm)
    rw [if_neg isEmpty]
    by_cases status : frame.HasStatus
    · have condition : opcodeOf frame.b1 = opcodeClose ∧ 1 < len.toNat := by
        rw [isLen]
        exact status
      have unfolded : parsePayload alloc chain ws frame.b1 frame.b2 frame.maskingKey len =
          fun cursor =>
            andThen chain ws (readNumber 16 2 cursor) fun status cursor =>
              parseContent alloc chain { ws with status := status } frame.b1
                frame.b2 frame.maskingKey (len - 2) cursor := by
        funext cursor
        rw [parsePayload, if_neg notZero, if_pos condition]
      have statusLength : (frame.payload.take 2).length = 2 := by
        rw [length_take]
        omega
      have statusNotEmpty := ne_nil_of_length_eq_add_one statusLength
      have contentLength : (len - 2).toNat = (frame.payload.drop 2).length := by
        rw [length_drop]
        have two : (2 : BitVec 64).toNat = 2 := rfl
        rw [BitVec.toNat_sub_of_le, isLen, two]
        rw [BitVec.le_def, isLen, two]
        omega
      rw [if_pos status, if_pos status, unfolded, ← sameLen]
      have isField : [frame.payload.take 2, frame.payload.drop 2].filter
          (· ≠ []) = frame.payload.take 2 :: [frame.payload.drop 2].filter (· ≠ []) := by
        rw [filter_cons_of_pos (by simpa using statusNotEmpty)]
      rw [isField]
      refine behaves_read statusNotEmpty (number_eq_some (by decide) statusLength) ?_
        (behaves_content allocates _ _ _ _ contentLength ?_)
      · intro cursor addressable
        rw [statusLength]
        exact readNumber_reads (by decide) (by decide) addressable
      · rw [length_drop]
        omega
    · have condition : ¬ (opcodeOf frame.b1 = opcodeClose ∧ 1 < len.toNat) := by
        rw [isLen]
        exact status
      have unfolded : parsePayload alloc chain ws frame.b1 frame.b2 frame.maskingKey len =
          parseContent alloc chain { ws with status := 0 } frame.b1 frame.b2
            frame.maskingKey len := by
        funext cursor
        rw [parsePayload, if_neg notZero, if_neg condition]
      rw [if_neg status, if_neg status, unfolded, ← sameLen]
      exact behaves_content allocates _ _ _ _ isLen small.le

def afterLength (frame : Frame) : List (List Byte) :=
  (frame.key :: if frame.HasStatus then
    [frame.payload.take 2, frame.payload.drop 2] else [frame.payload]).filter (· ≠ [])

/-- `mln_websocket_parse` behind the length. -/
def parseRest (alloc : ℕ → Bool) (chain : List Buf) (ws : Ws) (b1 b2 : Byte)
    (len : BitVec 64) (cursor : Cursor) : Option Result :=
  andThen chain ws (readKey b2 cursor) fun maskingKey cursor =>
    parsePayload alloc chain ws b1 b2 maskingKey len cursor

theorem behaves_rest (ws : Ws) (frame : Frame) {len : BitVec 64}
    (isLen : len.toNat = frame.payload.length) (small : frame.payload.length < 2 ^ 63) :
    Behaves (afterLength frame) (frame.received ws)
      (parseRest alloc chain ws frame.b1 frame.b2 len) := by
  have payload := @behaves_payload alloc chain allocates ws frame len isLen small
  have keyLength := frame.keyLength
  by_cases isMasked : masked frame.b2
  · rw [if_pos isMasked] at keyLength
    have notEmpty := ne_nil_of_length_eq_add_one keyLength
    have unfolded : parseRest alloc chain ws frame.b1 frame.b2 len =
        fun cursor => andThen chain ws (readNumber 32 4 cursor) fun maskingKey cursor =>
          parsePayload alloc chain ws frame.b1 frame.b2 maskingKey len cursor := by
      funext cursor
      rw [parseRest, readKey, if_pos isMasked]
    have isKey : number 32 4 frame.key = some frame.maskingKey := by
      rw [Frame.maskingKey, if_pos isMasked]
      exact number_eq_some (by decide) keyLength
    rw [afterLength, filter_cons_of_pos (by simpa using notEmpty), unfolded]
    refine behaves_read notEmpty isKey ?_ payload
    intro cursor addressable
    rw [keyLength]
    exact readNumber_reads (by decide) (by decide) addressable
  · rw [if_neg isMasked] at keyLength
    have isNil : frame.key = [] := length_eq_zero_iff.mp keyLength
    have noKey : frame.maskingKey = 0 := by rw [Frame.maskingKey, if_neg isMasked]
    have unfolded : parseRest alloc chain ws frame.b1 frame.b2 len =
        parsePayload alloc chain ws frame.b1 frame.b2 frame.maskingKey len := by
      funext cursor
      rw [parseRest, readKey, if_neg isMasked, noKey]
      rfl
    rw [afterLength, isNil, filter_cons_of_neg (by simp), unfolded]
    exact payload

/-- `mln_websocket_parse` behind the header. -/
def parseBody (alloc : ℕ → Bool) (chain : List Buf) (ws : Ws) (b1 b2 : Byte)
    (cursor : Cursor) : Option Result :=
  andThen chain ws (readLength b2 cursor) fun len cursor =>
    parseRest alloc chain ws b1 b2 len cursor

def afterHeader (frame : Frame) : List (List Byte) :=
  (frame.extended :: frame.key :: if frame.HasStatus then
    [frame.payload.take 2, frame.payload.drop 2] else [frame.payload]).filter (· ≠ [])

theorem behaves_body (ws : Ws) (frame : Frame) (short : shortLength frame.b2 ≠ 127) :
    Behaves (afterHeader frame) (frame.received ws)
      (parseBody alloc chain ws frame.b1 frame.b2) := by
  have extendedLength := frame.extendedLength
  have payloadLength := frame.payloadLength
  rw [if_neg short] at extendedLength
  by_cases isTwo : shortLength frame.b2 = 126
  · rw [if_pos isTwo] at extendedLength
    rw [if_pos (.inr isTwo)] at payloadLength
    obtain ⟨len, isNumber, isLen⟩ := number_two extendedLength
    have bound := bigEndian_two extendedLength
    have notEmpty := ne_nil_of_length_eq_add_one extendedLength
    have unfolded : parseBody alloc chain ws frame.b1 frame.b2 = fun cursor =>
        andThen chain ws (readNumber 64 2 cursor) fun len cursor =>
          parseRest alloc chain ws frame.b1 frame.b2 len cursor := by
      funext cursor
      rw [parseBody, readLength, if_neg short, if_pos isTwo]
    rw [afterHeader, filter_cons_of_pos (by simpa using notEmpty), unfolded]
    refine behaves_read notEmpty isNumber ?_ (behaves_rest allocates ws frame
      (isLen.trans payloadLength.symm) (by omega))
    intro cursor addressable
    rw [extendedLength]
    exact readNumber_reads (by decide) (by decide) addressable
  · rw [if_neg isTwo] at extendedLength
    have notExtended : ¬ (shortLength frame.b2 = 127 ∨ shortLength frame.b2 = 126) := by
      rintro (isEight | isTwoBytes)
      · exact short isEight
      · exact isTwo isTwoBytes
    rw [if_neg notExtended] at payloadLength
    have isNil : frame.extended = [] := length_eq_zero_iff.mp extendedLength
    have isLen : ((shortLength frame.b2).setWidth 64).toNat = frame.payload.length := by
      rw [BitVec.toNat_setWidth, payloadLength, Nat.mod_eq_of_lt (by omega)]
    have unfolded : parseBody alloc chain ws frame.b1 frame.b2 =
        parseRest alloc chain ws frame.b1 frame.b2 ((shortLength frame.b2).setWidth 64) := by
      funext cursor
      rw [parseBody, readLength, if_neg short, if_neg isTwo]
      rfl
    rw [afterHeader, isNil, filter_cons_of_neg (by simp), unfolded]
    exact behaves_rest allocates ws frame isLen (by omega)

end

theorem parse_eq :
    parse alloc chain ws = match header none chain with
      | none => some ⟨.notYet, ws, chain.map Buf.bytes⟩
      | some (b1, b2, cursor) => parseBody alloc chain ws b1 b2 cursor :=
  rfl

theorem parseBody_eight {b1 b2 : Byte}
    (long : shortLength b2 = 127) (addressable : cursor.Addressable)
    (notEmpty : cursor.chunks ≠ []) : parseBody alloc chain ws b1 b2 cursor = none := by
  have reads := @readNumber_reads 64 8 cursor (by decide) (by decide) addressable
  have isNone : readNumber 64 8 cursor = none := by
    cases isChunks : cursor.chunks with
    | nil => exact absurd isChunks notEmpty
    | cons chunk rest =>
      by_cases enough : 8 ≤ chunk.length
      · obtain ⟨_, _, _, isRead⟩ := reads.whole chunk rest isChunks enough
        rw [isRead, number_eight]
        rfl
      · exact reads.short chunk rest isChunks (not_le.mp enough)
  rw [parseBody, readLength, if_pos long, isNone]
  rfl

end Stages

/-! ## Cuts -/

theorem fields_eq (frame : Frame) :
    frame.fields = [frame.b1] :: [frame.b2] :: afterHeader frame := by
  rw [Frame.fields, Frame.parts, filter_cons_of_pos (by simp), filter_cons_of_pos (by simp)]
  rfl

theorem byte_of_chunk {b x : Byte} {chunk : List Byte} {rest : List (List Byte)}
    (isPrefix : ((x :: chunk) :: rest).flatten <+: ([b] :: fields).flatten) :
    x = b ∧ (push chunk rest).flatten <+: fields.flatten ∧
      (Aligned ([b] :: fields) ((x :: chunk) :: rest) ↔ Aligned fields (push chunk rest)) := by
  rw [flatten_cons] at isPrefix
  have enough : [b].length ≤ (x :: chunk).length := by simp
  obtain ⟨isByte, restPrefix⟩ := field_of_chunk isPrefix enough
  refine ⟨?_, restPrefix, ?_⟩
  · simpa using isByte
  · rw [Aligned]
    exact and_iff_right enough

/-- The header of a frame, or of a part of it that has less than two bytes. -/
theorem header_cases (frame : Frame) (chain : List Buf)
    (isPrefix : (chunksOf chain).flatten <+: frame.bytes) :
    (header none chain = none ∧ (chunksOf chain).flatten.length < 2 ∧
        Aligned frame.fields (chunksOf chain)) ∨
      ∃ cursor : Cursor, header none chain = some (frame.b1, frame.b2, cursor) ∧
        cursor.Addressable ∧ cursor.chunks.flatten <+: (afterHeader frame).flatten ∧
        (Aligned frame.fields (chunksOf chain) ↔ Aligned (afterHeader frame) cursor.chunks) ∧
        (chunksOf chain).flatten = frame.b1 :: frame.b2 :: cursor.chunks.flatten := by
  obtain ⟨none, some⟩ := header_none chain
  rw [← frame.fields_flatten] at isPrefix
  rw [fields_eq] at isPrefix ⊢
  have nonempty := chunksOf_nonempty chain
  cases isChunks : chunksOf chain with
  | nil => exact .inl ⟨none isChunks, by simp, trivial⟩
  | cons first rest =>
    rw [isChunks] at isPrefix nonempty
    cases first with
    | nil => exact absurd rfl (nonempty [] mem_cons_self)
    | cons x chunk =>
      have restNonempty : ∀ other ∈ push chunk rest, other ≠ [] :=
        ne_nil_of_mem_push (forall_mem_cons.mp nonempty).2
      obtain ⟨isFirst, restPrefix, alignedFirst⟩ := byte_of_chunk isPrefix
      obtain ⟨noSecond, second⟩ := some x chunk rest isChunks
      have flat : ((x :: chunk) :: rest).flatten = x :: (push chunk rest).flatten := by
        rw [push_flatten]
        rfl
      rw [alignedFirst, flat]
      cases isPush : push chunk rest with
      | nil => exact .inl ⟨noSecond isPush, by simp, trivial⟩
      | cons next others =>
        rw [isPush] at restPrefix restNonempty
        cases next with
        | nil => exact absurd rfl (restNonempty [] mem_cons_self)
        | cons y more =>
          obtain ⟨isSecond, morePrefix, alignedSecond⟩ := byte_of_chunk restPrefix
          obtain ⟨cursor, isHeader, addressable, cursorChunks⟩ := second y more others isPush
          refine .inr ⟨cursor, ?_, addressable, ?_, ?_, ?_⟩
          · rw [isHeader, isFirst, isSecond]
          · rw [cursorChunks]
            exact morePrefix
          · rw [alignedSecond, cursorChunks]
          · rw [cursorChunks, push_flatten, isFirst, isSecond]
            rfl

/-- The whole frame is parsed as from a single buffer, a part of it as one that needs more. -/
structure Correct (alloc : ℕ → Bool) (ws : Ws) (frame : Frame) (single : Buf)
    (chain : List Buf) : Prop where
  complete : (chain.map Buf.bytes).flatten = frame.bytes →
    ∃ result whole, parse alloc chain ws = some result ∧
      parse alloc [single] ws = some whole ∧ result.ret = .ok ∧
      whole.ret = .ok ∧ result.ws = whole.ws
  incomplete : (chain.map Buf.bytes).flatten ≠ frame.bytes →
    ∃ result, parse alloc chain ws = some result ∧ result.ret = .notYet

theorem Correct.defined {alloc : ℕ → Bool} {ws : Ws} {frame : Frame} {single : Buf}
    {chain : List Buf} (correct : Correct alloc ws frame single chain) :
    parse alloc chain ws ≠ none := by
  by_cases equal : (chain.map Buf.bytes).flatten = frame.bytes
  · obtain ⟨result, _, isResult, _⟩ := correct.complete equal
    exact isResult ▸ some_ne_none result
  · obtain ⟨result, isResult, _⟩ := correct.incomplete equal
    exact isResult ▸ some_ne_none result

/-- Buffers end where fields of the frame end, and a length of eight bytes is not
reached. -/
structure Intact (frame : Frame) (chain : List Buf) : Prop where
  cuts : ∀ k ∈ cuts (chain.map Buf.bytes), k ∈ cuts frame.fields
  length : 2 < (chain.map Buf.bytes).flatten.length → shortLength frame.b2 ≠ 127

section Outcomes

variable {alloc : ℕ → Bool} {ws : Ws} {frame : Frame} {chain : List Buf}

theorem parse_short (allocates : ∀ size, alloc size = true) (short : shortLength frame.b2 ≠ 127)
    (isPrefix : (chunksOf chain).flatten <+: frame.bytes) :
    (¬ Aligned frame.fields (chunksOf chain) → parse alloc chain ws = none) ∧
      (Aligned frame.fields (chunksOf chain) → (chunksOf chain).flatten ≠ frame.bytes →
        ∃ result, parse alloc chain ws = some result ∧ result.ret = .notYet) ∧
      (Aligned frame.fields (chunksOf chain) → (chunksOf chain).flatten = frame.bytes →
        ∃ result, parse alloc chain ws = some result ∧ result.ret = .ok ∧
          result.ws = frame.received ws) := by
  have behaves := @behaves_body alloc chain allocates ws frame short
  have isBytes : frame.bytes = frame.b1 :: frame.b2 :: (afterHeader frame).flatten := by
    rw [← frame.fields_flatten, fields_eq]
    rfl
  rw [parse_eq]
  rcases header_cases frame chain isPrefix with
    ⟨isHeader, tooShort, aligned⟩ |
      ⟨cursor, isHeader, addressable, cursorPrefix, alignedIff, isFlat⟩
  · rw [isHeader]
    refine ⟨fun notAligned => absurd aligned notAligned, fun _ _ => ⟨_, rfl, rfl⟩, ?_⟩
    intro _ equal
    rw [equal, isBytes, length_cons, length_cons] at tooShort
    omega
  · rw [isHeader, alignedIff, isFlat, isBytes]
    refine ⟨behaves.cut cursor addressable cursorPrefix, ?_, ?_⟩
    · intro aligned apart
      apply behaves.more cursor addressable cursorPrefix aligned
      intro equal
      exact apart (by rw [equal])
    · intro aligned equal
      exact behaves.ends cursor addressable aligned (by simpa using equal)

theorem parse_long (long : shortLength frame.b2 = 127)
    (isPrefix : (chunksOf chain).flatten <+: frame.bytes) :
    (2 < (chunksOf chain).flatten.length → parse alloc chain ws = none) ∧
      ((chunksOf chain).flatten.length ≤ 2 →
        ∃ result, parse alloc chain ws = some result ∧ result.ret = .notYet) := by
  rw [parse_eq]
  rcases header_cases frame chain isPrefix with
    ⟨isHeader, tooShort, _⟩ | ⟨cursor, isHeader, addressable, _, _, isFlat⟩
  · rw [isHeader]
    refine ⟨?_, fun _ => ⟨_, rfl, rfl⟩⟩
    intro longer
    omega
  · rw [isHeader, isFlat, length_cons, length_cons]
    constructor
    · intro longer
      apply parseBody_eight long addressable
      intro isNil
      rw [isNil] at longer
      exact absurd longer (by decide)
    · intro shorter
      have isNil : cursor.chunks = [] := Cursor.chunks_eq_nil (length_eq_zero_iff.mp (by omega))
      have isRead := (@readNumber_reads 64 8 cursor (by decide) (by decide) addressable).ends isNil
      refine ⟨⟨.notYet, ws, chain.map Buf.bytes⟩, ?_, rfl⟩
      change parseBody alloc chain ws frame.b1 frame.b2 cursor = _
      rw [parseBody, readLength, if_pos long, isRead]
      rfl

end Outcomes

theorem chunksOf_eq {chain : List Buf} (nonempty : ∀ buf ∈ chain, buf.bytes ≠ []) :
    chunksOf chain = chain.map Buf.bytes := by
  apply filter_eq_self.mpr
  intro chunk member
  obtain ⟨buf, inChain, isChunk⟩ := mem_map.mp member
  rw [← isChunk]
  exact decide_eq_true (nonempty buf inChain)

/-- A frame, or a part of it, in buffers that are not empty is parsed as it should
be exactly when no field of it is cut and no length of eight bytes is read. -/
theorem parse_correct_iff (alloc : ℕ → Bool) (ws : Ws) (frame : Frame)
    (single : Buf) (chain : List Buf) (allocates : ∀ size, alloc size = true)
    (isSingle : single.bytes = frame.bytes) (nonempty : ∀ buf ∈ chain, buf.bytes ≠ [])
    (isPrefix : (chain.map Buf.bytes).flatten <+: frame.bytes) :
    Correct alloc ws frame single chain ↔ Intact frame chain := by
  have isChunks := chunksOf_eq nonempty
  have chunksNonempty := chunksOf_nonempty chain
  rw [isChunks] at chunksNonempty
  have aligned := aligned_iff_cuts frame.fields_nonempty chunksNonempty
  rw [← isChunks] at isPrefix
  by_cases long : shortLength frame.b2 = 127
  · obtain ⟨undefined, waits⟩ := parse_long long isPrefix
    rw [isChunks] at isPrefix undefined waits
    -- the frame itself has at least ten bytes
    have tooLong : 2 < frame.bytes.length := by
      have extended := frame.extendedLength
      rw [if_pos long] at extended
      rw [Frame.bytes, length_cons, length_cons, length_append, length_append]
      omega
    constructor
    · intro correct
      have noMore : (chain.map Buf.bytes).flatten.length ≤ 2 := by
        by_contra longer
        exact correct.defined (undefined (not_le.mp longer))
      refine ⟨?_, fun longer => absurd longer (by omega)⟩
      apply aligned.mp
      rcases header_cases frame chain (by rw [isChunks]; exact isPrefix) with
        ⟨_, _, isAligned⟩ | ⟨cursor, _, _, _, alignedIff, isFlat⟩
      · rw [← isChunks]
        exact isAligned
      · rw [← isChunks, alignedIff]
        rw [← isChunks, isFlat, length_cons, length_cons] at noMore
        have isEmpty : cursor.chunks.flatten = [] := length_eq_zero_iff.mp (by omega)
        rw [Cursor.chunks_eq_nil isEmpty]
        exact aligned_nil
    · intro intact
      have noMore : (chain.map Buf.bytes).flatten.length ≤ 2 := by
        by_contra longer
        exact intact.length (not_le.mp longer) long
      refine ⟨?_, fun _ => waits noMore⟩
      intro equal
      rw [equal] at noMore
      omega
  · obtain ⟨undefined, waits, received⟩ := parse_short allocates long isPrefix
    rw [isChunks] at undefined waits received
    constructor
    · intro correct
      refine ⟨?_, fun _ => long⟩
      apply aligned.mp
      by_contra notAligned
      exact correct.defined (undefined notAligned)
    · intro intact
      have isAligned := aligned.mpr intact.cuts
      refine ⟨?_, waits isAligned⟩
      intro equal
      obtain ⟨result, isResult, isOk, isFinal⟩ := received isAligned equal
      have singleChunks : chunksOf [single] = push frame.fields.flatten [] := by
        rw [frame.fields_flatten, ← isSingle]
        have notEmpty : single.bytes ≠ [] := by
          rw [isSingle]
          exact cons_ne_nil _ _
        rw [chunksOf_cons notEmpty, push, if_neg notEmpty]
        rfl
      have singleFlat : (chunksOf [single]).flatten = frame.bytes := by
        rw [singleChunks, push_flatten, frame.fields_flatten]
        simp
      obtain ⟨whole, isWhole, wholeOk, wholeFinal⟩ :=
        (parse_short allocates long (by rw [singleFlat])).2.2
          (by rw [singleChunks]; exact aligned_single frame.fields) singleFlat
      exact ⟨result, whole, isResult, isWhole, isOk, wholeOk, isFinal.trans wholeFinal.symm⟩

def newWs : Ws :=
  ⟨none, 0, false, false, false, false, false, 0, false, 0, 0⟩

def textFrame : Frame where
  b1 := 0x81
  b2 := 0x02
  extended := []
  key := []
  payload := [0x48, 0x69]
  extendedLength := by decide
  keyLength := by decide
  payloadLength := by decide

def smallBuf (bytes : List Byte) (small : bytes.length ≤ 8) : Buf :=
  ⟨bytes, by omega⟩

theorem parse_correct_iff_text :
    Correct (fun _ => true) newWs textFrame (smallBuf [0x81, 0x02, 0x48, 0x69] (by decide))
      [smallBuf [0x81, 0x02] (by decide), smallBuf [0x48, 0x69] (by decide)] := by
  apply (parse_correct_iff (fun _ => true) newWs textFrame _ _ (fun _ => rfl) rfl
    (by decide) ⟨[], rfl⟩).mpr
  exact ⟨by decide, fun _ => by decide⟩

/-- The text is cut between its bytes, or its second byte has not arrived. -/
theorem parse_cutText :
    ¬ Correct (fun _ => true) newWs textFrame (smallBuf [0x81, 0x02, 0x48, 0x69] (by decide))
        [smallBuf [0x81, 0x02, 0x48] (by decide), smallBuf [0x69] (by decide)] ∧
      ¬ Correct (fun _ => true) newWs textFrame (smallBuf [0x81, 0x02, 0x48, 0x69] (by decide))
        [smallBuf [0x81, 0x02, 0x48] (by decide)] := by
  constructor
  · intro correct
    obtain ⟨result, _, isResult, _⟩ := correct.complete rfl
    cases isResult
  · intro correct
    obtain ⟨result, isResult, _⟩ := correct.incomplete (by decide)
    cases isResult

end Skyc.Melon.Websocket
