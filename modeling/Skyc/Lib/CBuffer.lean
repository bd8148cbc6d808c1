import Skyc.Lib.Memory

/-!
# C strings in a byte buffer

The functions of `string.h` on a string that starts at an index of a buffer.
A result is missing when the function runs off the end of the buffer.
-/

namespace Skyc.Lib.CBuffer

open List Nat Option

abbrev Buffer := List UInt8

/-- `buffer[i] = byte` -/
def put (buffer : Buffer) (i : ℕ) (byte : UInt8) : Option Buffer :=
  if i < buffer.length then some (buffer.set i byte) else none

/-- `memmove(buffer + target, buffer + source, count)` -/
def memmove (buffer : Buffer) (target source count : ℕ) : Option Buffer :=
  if source + count ≤ buffer.length ∧ target + count ≤ buffer.length then
    some (buffer.take target ++ ((buffer.drop source).take count ++ buffer.drop (target + count)))
  else
    none

/-- The distance of the first accepted byte of a string; the inner `none` is
the null pointer. -/
def scan (accept : UInt8 → Bool) : Buffer → Option (Option ℕ)
  | [] => none
  | byte :: rest =>
    if byte = 0 then
      some none
    else if accept byte then
      some (some 0)
    else
      (scan accept rest).map fun found => found.map (· + 1)

def spanLength (accept : UInt8 → Bool) : Buffer → Option ℕ
  | [] => none
  | byte :: rest =>
    if byte ≠ 0 ∧ accept byte then
      (spanLength accept rest).map (· + 1)
    else
      some 0

def toLower (byte : UInt8) : UInt8 :=
  if 65 ≤ byte ∧ byte ≤ 90 then byte + 32 else byte

/-- Is a text at the start of a string, up to the case of letters? -/
def startsWith : Buffer → List UInt8 → Option Bool
  | _, [] => some true
  | [], _ :: _ => none
  | byte :: rest, letter :: text =>
    if toLower byte = toLower letter then startsWith rest text
    else some false

/-- Is a string a text, up to the case of letters? -/
def equals : Buffer → List UInt8 → Option Bool
  | [], _ => none
  | byte :: _, [] => some (decide (byte = 0))
  | byte :: rest, letter :: text =>
    if toLower byte = toLower letter then equals rest text
    else some false

/-- `strpbrk(buffer + i, accept)` as an index, and with a set of one byte
`strchr`. -/
def strpbrk (buffer : Buffer) (i : ℕ) (accept : UInt8 → Bool) : Option (Option ℕ) :=
  (scan accept (buffer.drop i)).map fun found => found.map (i + ·)

/-- `strspn(buffer + i, accept)` -/
def strspn (buffer : Buffer) (i : ℕ) (accept : UInt8 → Bool) : Option ℕ :=
  spanLength accept (buffer.drop i)

/-- `strcasecmp(buffer + i, text) == 0` -/
def strcasecmp (buffer : Buffer) (i : ℕ) (text : List UInt8) : Option Bool :=
  equals (buffer.drop i) text

/-- `strncasecmp(buffer + i, text, n) == 0` for a text of length `n`. -/
def strncasecmp (buffer : Buffer) (i : ℕ) (text : List UInt8) : Option Bool :=
  startsWith (buffer.drop i) text

/-! ## Terminated strings -/

/-- The string that starts at an index ends inside the buffer. -/
def Terminated (buffer : Buffer) (i : ℕ) : Prop :=
  (0 : UInt8) ∈ buffer.drop i

variable {front : Buffer} {i j : ℕ} {text : List UInt8}

theorem Terminated.lt (terminated : Terminated front i) : i < front.length := by
  by_contra outside
  rw [Terminated, drop_eq_nil_of_le (not_lt.mp outside)] at terminated
  cases terminated

theorem terminated_of_getElem? (found : front[j]? = some 0) (before : i ≤ j) :
    Terminated front i := by
  apply mem_of_getElem? (i := j - i)
  rw [getElem?_drop, Nat.add_sub_cancel' before]
  exact found

variable {byte : UInt8}

theorem put_eq_some (inside : i < front.length) :
    put front i byte = some (front.set i byte) := if_pos inside

theorem put_append (byte : UInt8) (inside : i < front.length) (back : Buffer) :
    put (front ++ back) i byte = some (front.set i byte ++ back) := by
  have insideBoth : i < (front ++ back).length := by
    rw [length_append]
    omega
  rw [put_eq_some insideBoth, set_append_left i byte inside]

theorem put_length_append (front : Buffer) (old byte : UInt8) (back : Buffer) :
    put (front ++ old :: back) front.length byte = some (front ++ byte :: back) := by
  rw [put, if_pos (by simp)]
  simp

theorem memmove_append (front data back : Buffer) (target : ℕ)
    (inside : target + data.length ≤ (front ++ (data ++ back)).length) :
    memmove (front ++ (data ++ back)) target front.length data.length =
      some ((front ++ (data ++ back)).take target ++
        (data ++ (front ++ (data ++ back)).drop (target + data.length))) := by
  have sourceInside : front.length + data.length ≤ (front ++ (data ++ back)).length := by simp
  rw [memmove, if_pos ⟨sourceInside, inside⟩, drop_left, take_left]

theorem Terminated.set (terminated : Terminated front i) (j : ℕ) :
    Terminated (front.set j 0) i := by
  obtain ⟨distance, found⟩ := mem_iff_getElem?.mp terminated
  rw [getElem?_drop] at found
  apply terminated_of_getElem? (j := i + distance)
  · by_cases same : j = i + distance
    · rw [same, getElem?_set_self]
      exact (List.getElem?_eq_some_iff.mp found).1
    · rw [getElem?_set_ne same]
      exact found
  · exact le_add_right i distance

theorem drop_append_of_terminated (terminated : Terminated front i) (back : Buffer) :
    (front ++ back).drop i = front.drop i ++ back :=
  drop_append_of_le_length terminated.lt.le

/-! ## The functions on terminated strings -/

variable {string : Buffer}

theorem scan_of_mem (accept : UInt8 → Bool) (terminated : (0 : UInt8) ∈ string) :
    ∃ found, (∀ back, scan accept (string ++ back) = some found) ∧
      ∀ distance, found = some distance → (0 : UInt8) ∈ string.drop (distance + 1) := by
  induction string with
  | nil => cases terminated
  | cons byte rest ih =>
    by_cases isEnd : byte = 0
    · refine ⟨none, ?_, ?_⟩
      · intro back
        rw [cons_append, scan, if_pos isEnd]
      · exact nofun
    · have later : (0 : UInt8) ∈ rest := by
        rcases mem_cons.mp terminated with isFirst | later
        · exact absurd isFirst.symm isEnd
        · exact later
      by_cases accepted : accept byte
      · refine ⟨some 0, ?_, ?_⟩
        · intro back
          rw [cons_append, scan, if_neg isEnd, if_pos accepted]
        · intro distance isDistance
          cases isDistance
          exact later
      · obtain ⟨found, same, behind⟩ := ih later
        refine ⟨found.map (· + 1), ?_, ?_⟩
        · intro back
          rw [cons_append, scan, if_neg isEnd, if_neg accepted, same back]
          rfl
        · intro distance isDistance
          obtain ⟨before, isFound, rfl⟩ := map_eq_some_iff.mp isDistance
          exact behind before isFound

theorem spanLength_of_mem (accept : UInt8 → Bool) (terminated : (0 : UInt8) ∈ string) :
    ∃ count, (∀ back, spanLength accept (string ++ back) = some count) ∧
      (0 : UInt8) ∈ string.drop count := by
  induction string with
  | nil => cases terminated
  | cons byte rest ih =>
    by_cases counted : byte ≠ 0 ∧ accept byte
    · have later : (0 : UInt8) ∈ rest := by
        rcases mem_cons.mp terminated with isFirst | later
        · exact absurd isFirst.symm counted.1
        · exact later
      obtain ⟨count, same, behind⟩ := ih later
      refine ⟨count + 1, ?_, behind⟩
      intro back
      rw [cons_append, spanLength, if_pos counted, same back]
      rfl
    · refine ⟨0, ?_, terminated⟩
      intro back
      rw [cons_append, spanLength, if_neg counted]

theorem toLower_ne_zero (nonzero : byte ≠ 0) : toLower byte ≠ toLower 0 := by
  have zero : toLower 0 = 0 := by decide
  rw [zero, toLower]
  split
  · rename_i isUpper
    rw [UInt8.le_iff_toNat_le, UInt8.le_iff_toNat_le] at isUpper
    intro isZero
    have value := congrArg UInt8.toNat isZero
    simp at value isUpper
    omega
  · exact nonzero

theorem mem_rest_of_match {letter : UInt8} {rest : Buffer}
    (terminated : (0 : UInt8) ∈ byte :: rest) (nonzero : letter ≠ 0)
    (same : toLower byte = toLower letter) : (0 : UInt8) ∈ rest := by
  rcases mem_cons.mp terminated with isFirst | later
  · rw [← isFirst] at same
    exact absurd same.symm (toLower_ne_zero nonzero)
  · exact later

theorem startsWith_of_mem (terminated : (0 : UInt8) ∈ string) (noNul : (0 : UInt8) ∉ text) :
    ∃ result, (∀ back, startsWith (string ++ back) text = some result) ∧
      (result = true → (0 : UInt8) ∈ string.drop text.length) := by
  induction text generalizing string with
  | nil =>
    refine ⟨true, ?_, fun _ => terminated⟩
    intro back
    rw [startsWith]
  | cons letter text ih =>
    rw [mem_cons, not_or] at noNul
    cases string with
    | nil => cases terminated
    | cons byte rest =>
      by_cases same : toLower byte = toLower letter
      · obtain ⟨result, starts, behind⟩ := ih
          (mem_rest_of_match terminated (Ne.symm noNul.1) same) noNul.2
        refine ⟨result, ?_, behind⟩
        intro back
        rw [cons_append, startsWith, if_pos same, starts back]
      · refine ⟨false, ?_, ?_⟩
        · intro back
          rw [cons_append, startsWith, if_neg same]
        · exact nofun

theorem equals_of_mem (terminated : (0 : UInt8) ∈ string) (noNul : (0 : UInt8) ∉ text) :
    ∃ result, ∀ back, equals (string ++ back) text = some result := by
  induction text generalizing string with
  | nil =>
    cases string with
    | nil => cases terminated
    | cons byte rest =>
      refine ⟨decide (byte = 0), ?_⟩
      intro back
      rw [cons_append, equals]
  | cons letter text ih =>
    rw [mem_cons, not_or] at noNul
    cases string with
    | nil => cases terminated
    | cons byte rest =>
      by_cases same : toLower byte = toLower letter
      · obtain ⟨result, matching⟩ := ih
          (mem_rest_of_match terminated (Ne.symm noNul.1) same) noNul.2
        refine ⟨result, ?_⟩
        intro back
        rw [cons_append, equals, if_pos same, matching back]
      · refine ⟨false, ?_⟩
        intro back
        rw [cons_append, equals, if_neg same]

/-! ## The functions at an index -/

section

variable (terminated : Terminated front i)
include terminated

theorem strpbrk_spec (accept : UInt8 → Bool) :
    ∃ found, (∀ back, strpbrk (front ++ back) i accept = some found) ∧
      ∀ j, found = some j → i ≤ j ∧ Terminated front (j + 1) := by
  obtain ⟨found, same, behind⟩ := scan_of_mem accept terminated
  refine ⟨found.map (i + ·), ?_, ?_⟩
  · intro back
    rw [strpbrk, drop_append_of_terminated terminated, same back]
    rfl
  · intro j isFound
    obtain ⟨distance, isDistance, rfl⟩ := map_eq_some_iff.mp isFound
    refine ⟨le_add_right i distance, ?_⟩
    have later := behind distance isDistance
    rw [drop_drop, ← add_assoc] at later
    exact later

theorem strspn_spec (accept : UInt8 → Bool) :
    ∃ count, (∀ back, strspn (front ++ back) i accept = some count) ∧
      Terminated front (i + count) := by
  obtain ⟨count, same, behind⟩ := spanLength_of_mem accept terminated
  rw [drop_drop] at behind
  refine ⟨count, ?_, behind⟩
  intro back
  rw [strspn, drop_append_of_terminated terminated, same back]

theorem strcasecmp_spec (noNul : (0 : UInt8) ∉ text) :
    ∃ result, ∀ back, strcasecmp (front ++ back) i text = some result := by
  obtain ⟨result, same⟩ := equals_of_mem terminated noNul
  refine ⟨result, ?_⟩
  intro back
  rw [strcasecmp, drop_append_of_terminated terminated, same back]

theorem strncasecmp_spec (noNul : (0 : UInt8) ∉ text) :
    ∃ result, (∀ back, strncasecmp (front ++ back) i text = some result) ∧
      (result = true → Terminated front (i + text.length)) := by
  obtain ⟨result, same, behind⟩ := startsWith_of_mem terminated noNul
  rw [drop_drop] at behind
  refine ⟨result, ?_, behind⟩
  intro back
  rw [strncasecmp, drop_append_of_terminated terminated, same back]

end

end Skyc.Lib.CBuffer
