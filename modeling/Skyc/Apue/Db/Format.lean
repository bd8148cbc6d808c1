import Skyc.Apue.Db.Model
import Skyc.Lib.Tiles

/-!
# The records of the two files

The index file is made of pointer fields, one newline and index records, the
data file of data records.  `Block` lists these pieces with their limits as
part of the types, and `Block.encode` gives their bytes.
-/

namespace Skyc.Apue.Db

open Skyc.Lib Program List Option

/-- An offset that fits into a pointer field. -/
abbrev Pointer := Fin (ptrMax + 1)

/-- An index record without its chain pointer. -/
structure IndexRecord where
  key : CString
  datoff : ℕ
  datlen : ℕ
  datlen_pos : 0 < datlen
  datlen_le : datlen ≤ datlenMax
  len_ge : idxlenMin ≤ (recordText key.bytes datoff datlen).length
  len_le : (recordText key.bytes datoff datlen).length ≤ idxlenMax

inductive Block
  | ptr (next : Pointer)
  | newline
  | index (next : Pointer) (record : IndexRecord)
  | data (text : CString)

def ptrField (next : Pointer) : List UInt8 :=
  padLeft ptrSz (decimal next)

namespace IndexRecord

variable (record : IndexRecord)

def text : List UInt8 :=
  recordText record.key.bytes record.datoff record.datlen

def lenField : List UInt8 :=
  padLeft idxlenSz (decimal record.text.length)

end IndexRecord

namespace Block

def encode : Block → List UInt8
  | .ptr next => ptrField next
  | .newline => [Db.newline]
  | .index next record => ptrField next ++ (record.lenField ++ record.text)
  | .data text => text.bytes ++ [Db.newline]

def next : Block → Option Pointer
  | .ptr next => some next
  | .index next _ => some next
  | _ => none

def setNext (block : Block) (next : Pointer) : Block :=
  match block with
  | .ptr _ => .ptr next
  | .index _ record => .index next record
  | other => other

end Block

/-! ## Lengths -/

theorem length_ptrField (next : Pointer) : (ptrField next).length = ptrSz := by
  apply length_padLeft
  apply length_decimal_le (by decide)
  exact next.isLt

theorem IndexRecord.length_text_le (record : IndexRecord) :
    record.text.length ≤ idxlenMax := record.len_le

theorem IndexRecord.length_lenField (record : IndexRecord) : record.lenField.length = idxlenSz := by
  apply length_padLeft
  apply length_decimal_le (by decide)
  exact record.length_text_le.trans_lt (by decide)

theorem length_encode_index (next : Pointer) (record : IndexRecord) :
    (Block.encode (.index next record)).length = ptrSz + idxlenSz + record.text.length := by
  rw [Block.encode, length_append, length_append, length_ptrField, record.length_lenField]
  omega

theorem length_encode_data (text : CString) :
    (Block.encode (.data text)).length = text.bytes.length + 1 := by
  simp [Block.encode]

theorem Block.encode_ne_nil (block : Block) : block.encode ≠ [] := by
  apply ne_nil_of_length_pos
  cases block with
  | ptr next =>
    rw [Block.encode, length_ptrField]
    decide
  | newline => decide
  | index next record =>
    rw [length_encode_index]
    exact Nat.add_pos_left (by decide) _
  | data text =>
    rw [length_encode_data]
    exact Nat.succ_pos _

variable {block : Block} {next : Pointer}

section

variable (points : block.next = some next)
include points

theorem ptrSz_le_length_encode : ptrSz ≤ block.encode.length := by
  cases block with
  | ptr other => rw [Block.encode, length_ptrField]
  | newline | data => cases points
  | index other record =>
    rw [length_encode_index]
    omega

/-! ## Chain pointers -/

theorem encode_eq_of_next :
    ∃ rest, ∀ other, (block.setNext other).encode = ptrField other ++ rest ∧
      block.encode = ptrField next ++ rest := by
  cases block with
  | ptr old =>
    cases points
    exact ⟨[], fun other => by simp [Block.encode, Block.setNext]⟩
  | newline | data => cases points
  | index old record =>
    cases points
    exact ⟨record.lenField ++ record.text, fun other => ⟨rfl, rfl⟩⟩

theorem readAt_ptrField : readAt block.encode 0 ptrSz = ptrField next := by
  obtain ⟨rest, encoded⟩ := encode_eq_of_next points
  rw [(encoded next).2, readAt, drop_zero, take_left' (length_ptrField next)]

theorem writeAt_ptrField (other : Pointer) :
    writeAt block.encode 0 (ptrField other) = (block.setNext other).encode := by
  obtain ⟨rest, encoded⟩ := encode_eq_of_next points
  rw [(encoded other).1, (encoded other).2, writeAt, length_ptrField,
    zero_add, drop_left' (length_ptrField next)]
  simp

theorem next_setNext (other : Pointer) : (block.setNext other).next = some other := by
  cases block with
  | ptr | index => rfl
  | newline | data => cases points

end

theorem atol_ptrField (next : Pointer) :
    atol (ptrField next) = (next : ℕ) := atol_padLeft ptrSz next

/-! ## Index records -/

theorem readAt_index_head (next : Pointer) (record : IndexRecord) :
    readAt (Block.encode (.index next record)) 0 (ptrSz + idxlenSz) =
      ptrField next ++ record.lenField := by
  have headLength : (ptrField next ++ record.lenField).length = ptrSz + idxlenSz := by
    rw [length_append, length_ptrField, record.length_lenField]
  rw [Block.encode, ← append_assoc, readAt, drop_zero, take_left' headLength]

theorem readAt_index_text (next : Pointer) (record : IndexRecord) :
    readAt (Block.encode (.index next record)) (ptrSz + idxlenSz)
      record.text.length = record.text := by
  have headLength : (ptrField next ++ record.lenField).length = ptrSz + idxlenSz := by
    rw [length_append, length_ptrField, record.length_lenField]
  rw [Block.encode, ← append_assoc, readAt, drop_left' headLength, take_length]

theorem sizeT_natCast {number : ℕ} (small : number < 2 ^ 64) : sizeT number = number := by
  rw [sizeT]
  omega

theorem sizeT_lenField (record : IndexRecord) :
    sizeT (atol record.lenField) = record.text.length := by
  rw [IndexRecord.lenField, atol_padLeft, sizeT_natCast]
  exact record.length_text_le.trans_lt (by decide)

theorem text_eq (record : IndexRecord) :
    record.text = (record.key.bytes ++ sep ::
      (decimal record.datoff ++ sep :: decimal record.datlen)) ++ [newline] := by
  simp [IndexRecord.text, recordText, printInt_natCast]

theorem notMem_decimal {char : UInt8} (notDigit : isDigit char = false) (number : ℕ) :
    char ∉ decimal number := by
  intro member
  rw [isDigit_of_mem_decimal member] at notDigit
  cases notDigit

theorem cString_text (record : IndexRecord) :
    cString record.text.dropLast = record.key.bytes ++ sep ::
      (decimal record.datoff ++ sep :: decimal record.datlen) := by
  rw [text_eq, dropLast_concat]
  apply cString_of_notMem
  have offsetNonzero : (0 : UInt8) ∉ decimal record.datoff := notMem_decimal (by decide) _
  have lengthNonzero : (0 : UInt8) ∉ decimal record.datlen := notMem_decimal (by decide) _
  have sepNonzero : (0 : UInt8) ≠ sep := by decide
  simp [record.key.noNul, offsetNonzero, lengthNonzero, sepNonzero]

theorem splitRecord_text {record : IndexRecord} (noSep : sep ∉ record.key.bytes) :
    splitRecord (cString record.text.dropLast) =
      .done (record.key.bytes, (record.datoff : ℤ), record.datlen) := by
  have offsetSep : sep ∉ decimal record.datoff := notMem_decimal (by decide) _
  have lengthSep : sep ∉ decimal record.datlen := notMem_decimal (by decide) _
  have lengthValue : sizeT (record.datlen : ℤ) = record.datlen := by
    apply sizeT_natCast
    exact record.datlen_le.trans_lt (by decide)
  have positive : ¬ ((record.datoff : ℤ) < 0) := by omega
  have inRange : ¬ (record.datlen = 0 ∨ record.datlen > datlenMax) := by
    have above := record.datlen_pos
    have below := record.datlen_le
    omega
  rw [cString_text, splitRecord, strchr_append noSep]
  simp only [strchr_append offsetSep, strchr_of_notMem lengthSep, atol_decimal, lengthValue]
  rw [failIf_bind_of_not _ (by simp), failIf_bind_of_not _ positive, failIf_bind_of_not _ inRange]
  rfl

/-- A key with a separator makes its record unreadable. -/
theorem splitRecord_text_of_sep {record : IndexRecord} (hasSep : sep ∈ record.key.bytes) :
    splitRecord (cString record.text.dropLast) = .abort .readidxTooManySeparators := by
  obtain ⟨first, second, keySplit, firstSep⟩ := eq_append_cons_of_mem hasSep
  rw [cString_text, keySplit, append_assoc, cons_append, splitRecord, strchr_append firstSep]
  by_cases secondSep : sep ∈ second
  · obtain ⟨third, fourth, secondSplit, thirdSep⟩ := eq_append_cons_of_mem secondSep
    have more : strchr (fourth ++ sep ::
        (decimal record.datoff ++ sep :: decimal record.datlen)) sep ≠
        none := by
      by_cases fourthSep : sep ∈ fourth
      · obtain ⟨fifth, sixth, fourthSplit, fifthSep⟩ := eq_append_cons_of_mem fourthSep
        rw [fourthSplit, append_assoc, cons_append, strchr_append fifthSep]
        exact some_ne_none _
      · rw [strchr_append fourthSep]
        exact some_ne_none _
    simp only [secondSplit, append_assoc, cons_append, strchr_append thirdSep]
    exact failIf_bind_of _ (isSome_iff_ne_none.mpr more)
  · have offsetSep : sep ∉ decimal record.datoff := notMem_decimal (by decide) _
    simp only [strchr_append secondSep, strchr_append offsetSep]
    exact failIf_bind_of _ rfl

end Skyc.Apue.Db
