import Skyc.Lib.Memory

/-!
# Writing packet captures

`pcap_gen.c` collects records in a cache of `PCAP_CACHE_SIZE` bytes and writes it to
a stream when the next record does not fit and at the end.  The bytes reach the file
when the stream is flushed or closed.  Which calls of the C library fail is an input
of every function.  The machine is little-endian.
-/

namespace Skyc.Utils.PcapGen

open Skyc.Lib Skyc.Lib.Memory List Option

/-! ## Streams -/

/-- How a call of `fwrite`, `fflush` or `fclose` with bytes to write ends; a
call that fails may have written some of them. -/
inductive Outcome
  | success
  | failure (written : ℕ)

/-- A `FILE` opened for writing, and the contents of its file. -/
structure Stream where
  file : List UInt8
  buffer : List UInt8
  isOpen : Bool
deriving DecidableEq

/-- `fopen(path, "wb")` -/
def fopen : Stream :=
  { file := []
    buffer := []
    isOpen := true }

/-- `fwrite(data, size, 1, stream)`, which returns 0 if `size` is 0. -/
def fwrite (stream : Stream) (data : List UInt8) (outcome : Outcome) : ℕ × Stream :=
  if data = [] then
    (0, stream)
  else
    match outcome with
    | .success => (1, { stream with buffer := stream.buffer ++ data })
    | .failure written => (0, { stream with buffer := stream.buffer ++ data.take written })

def fflush (stream : Stream) (outcome : Outcome) : Int × Stream :=
  match outcome with
  | .success =>
    (0, { stream with
      file := stream.file ++ stream.buffer
      buffer := [] })
  | .failure written =>
    (-1, { stream with
      file := stream.file ++ stream.buffer.take written
      buffer := stream.buffer.drop written })

def fclose (stream : Stream) (outcome : Outcome) : Int × Stream :=
  let flushed := fflush stream outcome
  (flushed.1, { flushed.2 with isOpen := false })

/-! ## The functions of `pcap_gen.c` -/

/-- `PCAP_CACHE_SIZE` -/
def pcapCacheSize : ℕ :=
  4096

/-- `pcap_t` -/
structure Pcap where
  file : Stream
  offset : ℕ
  cache : List UInt8
  numPackets : ℕ
deriving DecidableEq

/-- `struct pcap_header` as `pcap_start` fills it. -/
def fileHeader (maxPacketSize linkType : UInt32) : List UInt8 :=
  littleEndian 4 0xa1b2c3d4 ++ (littleEndian 2 2 ++ (littleEndian 2 4 ++
    (littleEndian 4 0 ++ (littleEndian 4 0 ++ (littleEndian 4 maxPacketSize.toNat ++
      littleEndian 4 linkType.toNat)))))

/-- `struct pcap_record_header` -/
def recordHeader (sec usec : UInt32) (length : ℕ) : List UInt8 :=
  littleEndian 4 sec.toNat ++ (littleEndian 4 usec.toNat ++
    (littleEndian 4 length ++ littleEndian 4 length))

/-- What the calls inside one function of `pcap_gen.c` do. -/
structure Outcomes where
  fwrite : Outcome
  fflush : Outcome
  fclose : Outcome

def Outcomes.success : Outcomes where
  fwrite := .success
  fflush := .success
  fclose := .success

/-- `pcap_start`; the flags say whether `malloc`, `calloc` and `fopen`
succeed, and the result is missing for `NULL`. -/
def pcapStart (maxPacketSize linkType : UInt32)
    (malloc calloc opened : Bool) (outcomes : Outcomes) : Option Pcap :=
  if malloc && calloc && opened then
    let written := fwrite fopen (fileHeader maxPacketSize linkType) outcomes.fwrite
    if written.1 = 0 then
      none
    else
      some
        { file := written.2
          offset := 0
          cache := replicate pcapCacheSize 0
          numPackets := 0 }
  else
    none

def pcapFlush (cap : Pcap) (outcomes : Outcomes) : Option (Int × Pcap) := do
  let data ← load cap.cache 0 cap.offset
  let written := fwrite cap.file data outcomes.fwrite
  if written.1 ≠ 0 then
    let flushed := fflush written.2 outcomes.fflush
    some (flushed.1, { cap with offset := 0, file := flushed.2 })
  else
    some (-1, { cap with file := written.2 })

/-- The first `if` of `pcap_add`. -/
def pcapMakeRoom (cap : Pcap) (outcomes : Outcomes) (length : ℕ) : Option (Int × Pcap) :=
  if pcapCacheSize < cap.offset + 16 + length then
    pcapFlush cap outcomes
  else
    some (0, cap)

/-- `pcap_add`, with the time that `get_time` returns. -/
def pcapAdd (cap : Pcap) (outcomes : Outcomes) (sec usec : UInt32)
    (captureData : List UInt8) : Option (Int × Pcap) := do
  let (code, cap) ← pcapMakeRoom cap outcomes captureData.length
  if code ≠ 0 then
    some (-1, cap)
  else
    let withHeader ← store cap.cache cap.offset (recordHeader sec usec captureData.length)
    let cache ← store withHeader (cap.offset + 16) captureData
    some (0,
      { cap with
        offset := cap.offset + 16 + captureData.length
        cache := cache
        numPackets := cap.numPackets + 1 })

/-- `pcap_stop`: the returned value and the stream that is left. -/
def pcapStop (cap : Pcap) (outcomes : Outcomes) : Option (Int × Stream) := do
  let (ret, cap) ← pcapFlush cap outcomes
  if ret = 0 then
    some (fclose cap.file outcomes.fclose)
  else
    some (ret, cap.file)

/-! ## Captures -/

structure Packet where
  sec : UInt32
  usec : UInt32
  data : List UInt8
deriving DecidableEq

/-- The calls of `pcap_add` for a list of packets. -/
def addAll (outcomes : Outcomes) : Pcap → List Packet → Option (List Int × Pcap)
  | cap, [] => some ([], cap)
  | cap, packet :: packets => do
    let (code, cap) ← pcapAdd cap outcomes packet.sec packet.usec packet.data
    let (codes, cap) ← addAll outcomes cap packets
    some (code :: codes, cap)

/-! ## The file format -/

structure FileHeader where
  magicNumber : ℕ
  versionMajor : ℕ
  versionMinor : ℕ
  thisZone : ℕ
  sigfigs : ℕ
  snapLen : ℕ
  linkType : ℕ
deriving DecidableEq

structure Record where
  tsSec : ℕ
  tsUsec : ℕ
  inclLen : ℕ
  origLen : ℕ
  data : List UInt8
deriving DecidableEq

def parseBytes (length : ℕ) (bytes : List UInt8) : Option (List UInt8 × List UInt8) :=
  if length ≤ bytes.length then
    some (bytes.take length, bytes.drop length)
  else
    none

def parseField (width : ℕ) (bytes : List UInt8) : Option (ℕ × List UInt8) :=
  (parseBytes width bytes).map fun parsed =>
    (ofLittleEndian parsed.1, parsed.2)

def parseFileHeader (bytes : List UInt8) : Option (FileHeader × List UInt8) := do
  let (magicNumber, bytes) ← parseField 4 bytes
  let (versionMajor, bytes) ← parseField 2 bytes
  let (versionMinor, bytes) ← parseField 2 bytes
  let (thisZone, bytes) ← parseField 4 bytes
  let (sigfigs, bytes) ← parseField 4 bytes
  let (snapLen, bytes) ← parseField 4 bytes
  let (linkType, bytes) ← parseField 4 bytes
  some (⟨magicNumber, versionMajor, versionMinor, thisZone, sigfigs, snapLen, linkType⟩, bytes)

/-- A record has `incl_len` bytes of data. -/
def parseRecord (bytes : List UInt8) : Option (Record × List UInt8) := do
  let (tsSec, bytes) ← parseField 4 bytes
  let (tsUsec, bytes) ← parseField 4 bytes
  let (inclLen, bytes) ← parseField 4 bytes
  let (origLen, bytes) ← parseField 4 bytes
  let (data, bytes) ← parseBytes inclLen bytes
  some (⟨tsSec, tsUsec, inclLen, origLen, data⟩, bytes)

/-- Records up to the end of the file, of which there are at most as many as
bytes. -/
def parseRecords : ℕ → List UInt8 → Option (List Record)
  | _, [] => some []
  | 0, _ :: _ => none
  | more + 1, byte :: bytes => do
    let (record, rest) ← parseRecord (byte :: bytes)
    let records ← parseRecords more rest
    some (record :: records)

def parseFile (bytes : List UInt8) : Option (FileHeader × List Record) := do
  let (header, rest) ← parseFileHeader bytes
  let records ← parseRecords rest.length rest
  some (header, records)

def Packet.record (packet : Packet) : Record where
  tsSec := packet.sec.toNat
  tsUsec := packet.usec.toNat
  inclLen := packet.data.length
  origLen := packet.data.length
  data := packet.data

/-- All calls for the packets return 0 and leave a closed file that consists
of the header and one record for each packet. -/
def Captured (maxPacketSize linkType : UInt32) (cap : Pcap) (packets : List Packet) : Prop :=
  ∃ codes last stream, addAll .success cap packets = some (codes, last) ∧
    (∀ code ∈ codes, code = 0) ∧
    pcapStop last .success = some (0, stream) ∧
    stream.isOpen = false ∧
    parseFile stream.file = some
      ({ magicNumber := 0xa1b2c3d4
         versionMajor := 2
         versionMinor := 4
         thisZone := 0
         sigfigs := 0
         snapLen := maxPacketSize.toNat
         linkType := linkType.toNat }, packets.map Packet.record)

/-! ## Parsing what is written -/

theorem parseBytes_append (data rest : List UInt8) :
    parseBytes data.length (data ++ rest) = some (data, rest) := by
  rw [parseBytes, if_pos (by simp), take_left, drop_left]

theorem parseField_append {width value : ℕ} (fits : value < 256 ^ width) (rest : List UInt8) :
    parseField width (littleEndian width value ++ rest) = some (value, rest) := by
  have parsed := parseBytes_append (littleEndian width value) rest
  rw [length_littleEndian] at parsed
  rw [parseField, parsed, map_some, ofLittleEndian_littleEndian fits]

def Packet.bytes (packet : Packet) : List UInt8 :=
  recordHeader packet.sec packet.usec packet.data.length ++ packet.data

theorem length_recordHeader (sec usec : UInt32) (length : ℕ) :
    (recordHeader sec usec length).length = 16 := by
  simp [recordHeader]

theorem toNat_lt (word : UInt32) : word.toNat < 256 ^ 4 := word.toNat_lt

theorem parseRecord_append {packet : Packet}
    (fits : packet.data.length < 256 ^ 4) (rest : List UInt8) :
    parseRecord (packet.bytes ++ rest) = some (packet.record, rest) := by
  simp only [parseRecord, Packet.bytes, recordHeader, append_assoc,
    parseField_append (toNat_lt _), parseField_append fits, parseBytes_append, some_bind]
  rfl

theorem parseRecords_append {packets : List Packet}
    (fits : ∀ packet ∈ packets, packet.data.length < 256 ^ 4) {more : ℕ}
    (enough : packets.length ≤ more) :
    parseRecords more (packets.flatMap Packet.bytes) = some (packets.map Packet.record) := by
  induction packets generalizing more with
  | nil => cases more <;> rfl
  | cons packet packets ih =>
    cases more with
    | zero => simp at enough
    | succ more =>
      have parsed := parseRecord_append (fits packet mem_cons_self) (packets.flatMap Packet.bytes)
      have rest := ih (forall_mem_cons.mp fits).2 (Nat.le_of_succ_le_succ enough)
      rw [flatMap_cons]
      generalize packet.bytes ++ packets.flatMap Packet.bytes = bytes at parsed
      cases bytes with
      | nil => cases parsed
      | cons byte bytes =>
        simp only [parseRecords, parsed, rest, some_bind, map_cons]

theorem parseFile_append (maxPacketSize linkType : UInt32) {packets : List Packet}
    (fits : ∀ packet ∈ packets, packet.data.length < 256 ^ 4) :
    parseFile (fileHeader maxPacketSize linkType ++ packets.flatMap Packet.bytes) = some
      ({ magicNumber := 0xa1b2c3d4
         versionMajor := 2
         versionMinor := 4
         thisZone := 0
         sigfigs := 0
         snapLen := maxPacketSize.toNat
         linkType := linkType.toNat }, packets.map Packet.record) := by
  have enough : packets.length ≤ (packets.flatMap Packet.bytes).length := by
    rw [length_flatMap]
    induction packets with
    | nil => exact le_refl 0
    | cons packet packets ih =>
      have rest := ih (forall_mem_cons.mp fits).2
      simp only [map_cons, sum_cons, length_cons,
        Packet.bytes, length_append, length_recordHeader] at rest ⊢
      omega
  simp only [parseFile, parseFileHeader, fileHeader, append_assoc,
    parseField_append (show 0xa1b2c3d4 < 256 ^ 4 by decide),
    parseField_append (show 2 < 256 ^ 2 by decide), parseField_append (show 4 < 256 ^ 2 by decide),
    parseField_append (show 0 < 256 ^ 4 by decide),
    parseField_append (toNat_lt _), parseRecords_append fits enough, some_bind]

/-! ## The cache and the stream -/

/-- Everything that has been captured is in the file, the buffer of the
stream and the cache, in this order. -/
structure Holds (header : List UInt8) (packets : List Packet) (cap : Pcap) : Prop where
  cacheSize : cap.cache.length = pcapCacheSize
  cached : ∃ data, load cap.cache 0 cap.offset = some data ∧
    cap.file.file ++ cap.file.buffer ++ data = header ++ packets.flatMap Packet.bytes
  empty : cap.offset = 0 ↔ packets = []

section Calls

variable {header : List UInt8} {packets : List Packet} {cap : Pcap}

def Pcap.flushed (cap : Pcap) (data : List UInt8) : Pcap where
  file :=
    { file := cap.file.file ++ (cap.file.buffer ++ data)
      buffer := []
      isOpen := cap.file.isOpen }
  offset := 0
  cache := cap.cache
  numPackets := cap.numPackets

theorem pcapFlush_success {data : List UInt8} (loaded : load cap.cache 0 cap.offset = some data)
    (nonempty : cap.offset ≠ 0) : pcapFlush cap .success = some (0, cap.flushed data) := by
  have notNil : data ≠ [] := by
    rintro rfl
    have length := length_of_load loaded
    exact nonempty length.symm
  simp only [pcapFlush, loaded, fwrite, if_neg notNil, Outcomes.success, fflush, some_bind]
  rfl

theorem pcapFlush_empty (outcomes : Outcomes) (isEmpty : cap.offset = 0) :
    pcapFlush cap outcomes = some (-1, cap) := by
  have loaded : load cap.cache 0 cap.offset = some [] := by
    rw [isEmpty, load, if_pos (Nat.zero_le _), take_zero]
  simp only [pcapFlush, loaded, fwrite, if_true, some_bind]
  rfl

section

variable (holds : Holds header packets cap)
include holds

/-- After the first `if` of `pcap_add` the record fits into the cache. -/
theorem pcapMakeRoom_spec {length : ℕ} (fits : 16 + length ≤ pcapCacheSize) :
    ∃ cap' data, pcapMakeRoom cap .success length = some (0, cap') ∧ cap'.cache = cap.cache ∧
      cap'.offset + 16 + length ≤ pcapCacheSize ∧ load cap'.cache 0 cap'.offset = some data ∧
      cap'.file.file ++ cap'.file.buffer ++ data = header ++ packets.flatMap Packet.bytes := by
  obtain ⟨data, loaded, written⟩ := holds.cached
  by_cases full : pcapCacheSize < cap.offset + 16 + length
  · have nonempty : cap.offset ≠ 0 := by omega
    refine ⟨cap.flushed data, [], ?_, rfl, ?_, ?_, ?_⟩
    · rw [pcapMakeRoom, if_pos full]
      exact pcapFlush_success loaded nonempty
    · simpa [Pcap.flushed] using fits
    · rfl
    · simpa [Pcap.flushed] using written
  · refine ⟨cap, data, ?_, rfl, by omega, loaded, written⟩
    rw [pcapMakeRoom, if_neg full]

theorem pcapAdd_spec (packet : Packet) (fits : 16 + packet.data.length ≤ pcapCacheSize) :
    ∃ after, pcapAdd cap .success packet.sec packet.usec packet.data = some (0, after) ∧
      Holds header (packets ++ [packet]) after := by
  obtain ⟨cap', data, makeRoom, sameCache, room, loaded, written⟩ := pcapMakeRoom_spec holds fits
  have cacheSize : cap'.cache.length = pcapCacheSize := by
    rw [sameCache]
    exact holds.cacheSize
  have headerLength := length_recordHeader packet.sec packet.usec packet.data.length
  obtain ⟨withHeader, storeHeader, headerStored⟩ := exists_store cap'.cache cap'.offset
    (recordHeader packet.sec packet.usec packet.data.length) (by omega)
  obtain ⟨cache, storeData, dataStored⟩ := exists_store withHeader (cap'.offset + 16) packet.data
    (by rw [headerStored.length]; omega)
  have loadedRecord : load cache 0 (cap'.offset + (16 + packet.data.length)) =
      some (data ++ packet.bytes) := by
    apply load_append
    · rw [dataStored.apart 0 cap'.offset (.inl (by omega)),
        headerStored.apart 0 cap'.offset (.inl (by omega)), loaded]
    · rw [zero_add]
      apply load_append
      · have same := headerStored.same
        rw [headerLength] at same
        rw [dataStored.apart _ _ (.inl (le_refl _)), same]
      · exact dataStored.same
  refine ⟨{ cap' with
    offset := cap'.offset + 16 + packet.data.length
    cache := cache
    numPackets := cap'.numPackets + 1 }, ?_, ?_⟩
  · simp only [pcapAdd, makeRoom, storeHeader, storeData, some_bind]
    rfl
  · refine
      { cacheSize := ?_
        cached := ⟨data ++ packet.bytes, ?_, ?_⟩
        empty := ?_ }
    · exact (dataStored.length.trans headerStored.length).trans cacheSize
    · rw [← add_assoc] at loadedRecord
      exact loadedRecord
    · rw [← append_assoc, written, append_assoc, flatMap_append, flatMap_singleton]
    · simp

theorem addAll_spec (more : List Packet)
    (fits : ∀ packet ∈ more, 16 + packet.data.length ≤ pcapCacheSize) :
    ∃ codes last, addAll .success cap more = some (codes, last) ∧ (∀ code ∈ codes, code = 0) ∧
      Holds header (packets ++ more) last := by
  induction more generalizing packets cap with
  | nil =>
    refine ⟨[], cap, rfl, ?_, ?_⟩
    · exact nofun
    · rwa [append_nil]
  | cons packet more ih =>
    obtain ⟨middle, added, holdsMiddle⟩ := pcapAdd_spec holds packet (fits packet mem_cons_self)
    obtain ⟨codes, last, rest, zeros, holdsLast⟩ := ih holdsMiddle (forall_mem_cons.mp fits).2
    refine ⟨0 :: codes, last, ?_, ?_, ?_⟩
    · simp only [addAll, added, rest, some_bind]
    · exact forall_mem_cons.mpr ⟨rfl, zeros⟩
    · rwa [append_assoc, singleton_append] at holdsLast

theorem pcapStop_spec (nonempty : packets ≠ []) :
    ∃ stream, pcapStop cap .success = some (0, stream) ∧ stream.isOpen = false ∧
      stream.file = header ++ packets.flatMap Packet.bytes := by
  obtain ⟨data, loaded, written⟩ := holds.cached
  have flushed := pcapFlush_success loaded (fun isEmpty => nonempty (holds.empty.mp isEmpty))
  refine ⟨(fclose (cap.flushed data).file .success).2, ?_, rfl, ?_⟩
  · simp only [pcapStop, flushed, some_bind, if_true]
    rfl
  · simpa [Pcap.flushed, fclose, fflush] using written

end

theorem pcapStop_empty (outcomes : Outcomes) (isEmpty : cap.offset = 0) :
    pcapStop cap outcomes = some (-1, cap.file) := by
  simp only [pcapStop, pcapFlush_empty outcomes isEmpty, some_bind]
  rfl

end Calls

theorem pcapStart_spec {maxPacketSize linkType : UInt32}
    {malloc calloc opened : Bool} {outcomes : Outcomes} {cap : Pcap} (started :
      pcapStart maxPacketSize linkType malloc calloc opened outcomes = some cap) :
    Holds (fileHeader maxPacketSize linkType) [] cap := by
  simp only [pcapStart] at started
  split at started
  · split at started
    · cases started
    · rename_i _ nonzero
      obtain rfl := some.inj started
      cases isOutcome : outcomes.fwrite with
      | success =>
        exact
          { cacheSize := length_replicate
            cached := ⟨[], rfl, rfl⟩
            empty := ⟨fun _ => rfl, fun _ => rfl⟩ }
      | failure written =>
        rw [isOutcome] at nonzero
        exact absurd rfl nonzero
  · cases started

/-- With no failing call, packets that fit into the cache are captured exactly
if there is at least one of them. -/
theorem captured_iff_nonempty (maxPacketSize linkType : UInt32)
    (malloc calloc opened : Bool) (outcomes : Outcomes) (cap : Pcap) (started :
      pcapStart maxPacketSize linkType malloc calloc opened outcomes = some cap)
    (packets : List Packet) (fits : ∀ packet ∈ packets, 16 + packet.data.length ≤ pcapCacheSize) :
    Captured maxPacketSize linkType cap packets ↔ packets ≠ [] := by
  have holds := pcapStart_spec started
  constructor
  · rintro ⟨codes, last, stream, added, _, stopped, _⟩ rfl
    obtain ⟨_, rfl⟩ := Prod.mk.inj (some.inj added)
    rw [pcapStop_empty _ (holds.empty.mpr rfl)] at stopped
    cases stopped
  · intro nonempty
    obtain ⟨codes, last, added, zeros, holdsLast⟩ := addAll_spec holds packets fits
    rw [nil_append] at holdsLast
    obtain ⟨stream, stopped, closed, contents⟩ := pcapStop_spec holdsLast nonempty
    refine ⟨codes, last, stream, added, zeros, stopped, closed, ?_⟩
    rw [contents]
    apply parseFile_append
    intro packet member
    have small := fits packet member
    exact lt_of_le_of_lt (le_trans (Nat.le_add_left _ 16) small) (by decide)

theorem captured_iff_nonempty_onePacket :
    ∃ cap, pcapStart 65535 1 true true true .success = some cap ∧
      Captured 65535 1 cap [{ sec := 5, usec := 7, data := [1, 2, 3] }] := by
  refine ⟨_, rfl, ?_⟩
  apply (captured_iff_nonempty 65535 1 true true true .success _ rfl _ _).mpr
  · nofun
  · intro packet member
    rw [mem_singleton.mp member]
    decide

/-- Without packets `pcap_stop` fails and leaves the stream open, with the
header still in its buffer. -/
theorem pcapStop_fails_without_packets :
    ∃ cap, pcapStart 65535 1 true true true .success = some cap ∧
      ∃ stream, pcapStop cap .success = some (-1, stream) ∧
        stream.isOpen = true ∧ stream.file = [] := ⟨_, rfl, _, pcapStop_empty _ rfl, rfl, rfl⟩

end Skyc.Utils.PcapGen
