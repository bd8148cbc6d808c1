import Skyc.Lib.DotSegments

/-!
# Request targets

`ngx_http_parse_complex_uri` decodes the escapes of a path, merges slashes and
resolves the segments `.` and `..`, all in one pass and byte by byte.  A decoded byte
goes back into the state in which its escape began, and for `..` the code walks back
over what it has written.
-/

namespace Skyc.Nginx.ComplexUri

open Skyc.Lib.DotSegments List Option

abbrev Byte := BitVec 8

def SLASH : Byte := 0x2f
def DOT : Byte := 0x2e
def PERCENT : Byte := 0x25
def QUERY : Byte := 0x3f
def HASH : Byte := 0x23
def PLUS : Byte := 0x2b

/-! ## The parser -/

/-- The table `usual`, not on Windows. -/
def usual : List (BitVec 32) :=
  [0x00000000, 0x7fff37d6, 0xffffffff, 0x7fffffff, 0xffffffff, 0xffffffff, 0xffffffff, 0xffffffff]

/-- `usual[ch >> 5] & (1U << (ch & 0x1f))` -/
def isUsual (ch : Byte) : Bool :=
  usual.getD (ch >>> 5).toNat 0 &&& (1#32 <<< (ch &&& 0x1f).toNat) != 0

/-- The states of the parser outside of an escape. -/
inductive Sw where
  | usual
  | slash
  | dot
  | dotDot
  deriving DecidableEq, Repr

/-- The states of the parser.  `quoted_state` and `decoded` have a meaning only inside of
an escape: the state in which it began is never one of the two quoted ones. -/
inductive State where
  | plain (state : Sw)
  | quoted (quotedState : Sw)
  | quotedSecond (quotedState : Sw) (decoded : Byte)
  deriving DecidableEq, Repr

/-- The variables of the parser; `u` are the bytes written before the pointer `u`, and
`uriExt` is the place of `r->uri_ext` in them. -/
structure Machine where
  state : State
  u : List Byte
  uriExt : Option ℕ
  plusInUri : Bool
  quotedUri : Bool
  deriving DecidableEq, Repr

/-- What the parser sets when it returns `NGX_OK`.  `argsStart` is the rest of the
target from `r->args_start` on; `exten` and `args` are left as they were if absent. -/
structure Parsed where
  uri : List Byte
  exten : Option (List Byte)
  argsStart : Option (List Byte)
  args : Option (List Byte)
  plusInUri : Bool
  quotedUri : Bool
  deriving DecidableEq, Repr

/-- Where one byte leads: on to the next byte, to one of the labels `args` and `done`,
or to `NGX_HTTP_PARSE_INVALID_REQUEST`. -/
inductive Step where
  | next (m : Machine)
  | args (m : Machine)
  | done (m : Machine)
  | invalid
  deriving DecidableEq, Repr

/-- `*u++ = ch` -/
def Machine.write (m : Machine) (ch : Byte) : Machine :=
  { m with u := m.u ++ [ch] }

/-- A pointer `u` that is set back. -/
def Machine.back (m : Machine) (u : List Byte) : Machine :=
  { m with u := u }

/-- `state = sw` -/
def Machine.turn (m : Machine) (sw : Sw) : Machine :=
  { m with state := .plain sw }

/-- `r->uri_ext = NULL` -/
def Machine.clearExt (m : Machine) : Machine :=
  { m with uriExt := none }

/-- The case `'+'` and the default it falls through to. -/
def Machine.other (m : Machine) (ch : Byte) : Machine :=
  { m.write ch with plusInUri := m.plusInUri || ch == PLUS }

/-- `quoted_state = state; state = sw_quoted` -/
def Machine.quote (m : Machine) (sw : Sw) : Machine :=
  { m with state := .quoted sw }

/-- The loop that goes back to a slash, from the byte before a place on. -/
def walkBack (u : List Byte) : ℕ → Option (List Byte)
  | 0 => none
  | place + 1 => if u[place]? = some SLASH then some (u.take (place + 1)) else walkBack u place

/-- `u -= 4` and the loop after it -/
def parent (u : List Byte) : Option (List Byte) :=
  walkBack u (u.length - 3)

def stepUsual (m : Machine) (ch : Byte) : Step :=
  if isUsual ch then .next (m.write ch)
  else if ch = SLASH then .next ((m.write ch).turn .slash).clearExt
  else if ch = PERCENT then .next (m.quote .usual)
  else if ch = QUERY then .args m
  else if ch = HASH then .done m
  else if ch = DOT then .next { m.write ch with uriExt := some (m.u.length + 1) }
  else .next (m.other ch)

def stepSlash (mergeSlashes : Bool) (m : Machine) (ch : Byte) : Step :=
  if isUsual ch then .next ((m.write ch).turn .usual)
  else if ch = SLASH then .next (if mergeSlashes then m else m.write ch)
  else if ch = DOT then .next ((m.write ch).turn .dot)
  else if ch = PERCENT then .next (m.quote .slash)
  else if ch = QUERY then .args m
  else if ch = HASH then .done m
  else .next ((m.other ch).turn .usual)

def stepDot (m : Machine) (ch : Byte) : Step :=
  if isUsual ch then .next ((m.write ch).turn .usual)
  else if ch = SLASH then .next ((m.back m.u.dropLast).turn .slash)
  else if ch = DOT then .next ((m.write ch).turn .dotDot)
  else if ch = PERCENT then .next (m.quote .dot)
  else if ch = QUERY then .args (m.back m.u.dropLast)
  else if ch = HASH then .done (m.back m.u.dropLast)
  else .next ((m.other ch).turn .usual)

def stepDotDot (m : Machine) (ch : Byte) : Step :=
  if isUsual ch then .next ((m.write ch).turn .usual)
  else if ch = SLASH ∨ ch = QUERY ∨ ch = HASH then
    match parent m.u with
    | none => .invalid
    | some u =>
      if ch = QUERY then .args (m.back u)
      else if ch = HASH then .done (m.back u)
      else .next ((m.back u).turn .slash)
  else if ch = PERCENT then .next (m.quote .dotDot)
  else .next ((m.other ch).turn .usual)

/-- A byte outside of an escape, or the byte that an escape stands for. -/
def stepPlain (mergeSlashes : Bool) (sw : Sw) (m : Machine) (ch : Byte) : Step :=
  match sw with
  | .usual => stepUsual m ch
  | .slash => stepSlash mergeSlashes m ch
  | .dot => stepDot m ch
  | .dotDot => stepDotDot m ch

/-- `r->quoted_uri = 1`, and the first digit of an escape is kept in `decoded`. -/
def Machine.firstDigit (m : Machine) (quotedState : Sw) (decoded : Byte) : Machine :=
  { m with state := .quotedSecond quotedState decoded, quotedUri := true }

def stepQuoted (quotedState : Sw) (m : Machine) (ch : Byte) : Step :=
  if 0x30 ≤ ch ∧ ch ≤ 0x39 then .next (m.firstDigit quotedState (ch - 0x30))
  else if 0x61 ≤ ch ||| 0x20 ∧ ch ||| 0x20 ≤ 0x66 then
    .next (m.firstDigit quotedState ((ch ||| 0x20) - 0x61 + 10))
  else .invalid

/-- The byte of a finished escape.  Three bytes are taken as they are; the other ones go
through the state in which the escape began. -/
def stepDigit (mergeSlashes : Bool) (quotedState : Sw) (m : Machine) (ch : Byte) : Step :=
  if ch = PERCENT ∨ ch = HASH then .next ((m.write ch).turn .usual)
  else if ch = 0 then .invalid
  else stepPlain mergeSlashes quotedState (m.turn quotedState) ch

def stepLetter (mergeSlashes : Bool) (quotedState : Sw) (m : Machine) (ch : Byte) : Step :=
  if ch = QUERY then .next ((m.write ch).turn .usual)
  else
    stepPlain mergeSlashes quotedState
      { m.turn quotedState with plusInUri := m.plusInUri || ch == PLUS } ch

def stepQuotedSecond (mergeSlashes : Bool) (quotedState : Sw) (decoded : Byte)
    (m : Machine) (ch : Byte) : Step :=
  if 0x30 ≤ ch ∧ ch ≤ 0x39 then
    stepDigit mergeSlashes quotedState m ((decoded <<< 4) + (ch - 0x30))
  else if 0x61 ≤ ch ||| 0x20 ∧ ch ||| 0x20 ≤ 0x66 then
    stepLetter mergeSlashes quotedState m ((decoded <<< 4) + ((ch ||| 0x20) - 0x61) + 10)
  else .invalid

def step (mergeSlashes : Bool) (m : Machine) (ch : Byte) : Step :=
  match m.state with
  | .plain sw => stepPlain mergeSlashes sw m ch
  | .quoted quotedState => stepQuoted quotedState m ch
  | .quotedSecond quotedState decoded => stepQuotedSecond mergeSlashes quotedState decoded m ch

/-- The label `done` -/
def Machine.done (m : Machine) : Parsed where
  uri := m.u
  exten := m.uriExt.map fun place => m.u.drop place
  argsStart := none
  args := none
  plusInUri := m.plusInUri
  quotedUri := m.quotedUri

/-- The label `args`: the arguments end before a `#`. -/
def Machine.args (m : Machine) (rest : List Byte) : Parsed :=
  match rest.findIdx? (· == HASH) with
  | none => { m.done with argsStart := some rest }
  | some place => { m.done with args := some (rest.take place) }

/-- What follows the loop over the bytes. -/
def finish (m : Machine) : Option Parsed :=
  match m.state with
  | .plain .dot => some (m.back m.u.dropLast).done
  | .plain .dotDot => (parent m.u).map fun u => (m.back u).done
  | .plain _ => some m.done
  | _ => none

def loop (mergeSlashes : Bool) : Machine → List Byte → Option Parsed
  | m, [] => finish m
  | m, ch :: rest =>
    match step mergeSlashes m ch with
    | .next m => loop mergeSlashes m rest
    | .args m => some (m.args rest)
    | .done m => some m.done
    | .invalid => none

/-- `ngx_http_parse_complex_uri` on the bytes from `uri_start` to `uri_end`; none is
`NGX_HTTP_PARSE_INVALID_REQUEST`. -/
def parseComplexUri (mergeSlashes emptyPathInUri plusInUri quotedUri : Bool)
    (target : List Byte) : Option Parsed :=
  loop mergeSlashes
    { state := .plain .usual, u := if emptyPathInUri then [SLASH] else [], uriExt := none,
      plusInUri := plusInUri, quotedUri := quotedUri } target

/-! ## What a target stands for -/

def hexValue (ch : Byte) : Option Byte :=
  if 0x30 ≤ ch ∧ ch ≤ 0x39 then some (ch - 0x30)
  else if 0x41 ≤ ch ∧ ch ≤ 0x46 then some (ch - 0x37)
  else if 0x61 ≤ ch ∧ ch ≤ 0x66 then some (ch - 0x57)
  else none

/-- The byte of two digits, `NUL` excepted. -/
def joinDigits (high low : Byte) : Option Byte :=
  if high = 0 ∧ low = 0 then none else some (16 * high + low)

/-- The byte that an escape stands for; none if it is malformed or stands for `NUL`. -/
def unescape (high low : Byte) : Option Byte :=
  (hexValue high).bind fun first => (hexValue low).bind fun second => joinDigits first second

/-- The path part of a target with every escape decoded once: it ends before the first
`?` or `#` of the target, and none is the result if an escape in it is malformed or
stands for `NUL`. -/
def decodePath : List Byte → Option (List Byte)
  | [] => some []
  | ch :: rest =>
    if ch = QUERY ∨ ch = HASH then some []
    else if ch = PERCENT then
      match rest with
      | high :: low :: rest =>
        (unescape high low).bind fun decoded => (decodePath rest).map (decoded :: ·)
      | _ => none
    else (decodePath rest).map (ch :: ·)

theorem decodePath_cut {rest : List Byte}
    (short : ∀ high low others, rest ≠ high :: low :: others) :
    decodePath (PERCENT :: rest) = none := by
  rcases rest with _ | ⟨high, _ | ⟨low, others⟩⟩
  · rfl
  · rfl
  · exact absurd rfl (short high low others)

theorem decodePath_letter {ch : Byte} (rest : List Byte) (stays : ¬(ch = QUERY ∨ ch = HASH))
    (notPercent : ch ≠ PERCENT) : decodePath (ch :: rest) = (decodePath rest).map (ch :: ·) := by
  rw [decodePath.eq_def]
  simp only
  rw [if_neg stays, if_neg notPercent]

/-- The letters that cut a path into segments and resolve them. -/
def signs : Signs Byte where
  separator := SLASH
  dot := DOT
  apart := by decide

@[simp]
theorem signs_separator : signs.separator = SLASH := rfl

@[simp]
theorem signs_dot : signs.dot = DOT := rfl

/-- The path part of a request: the slash stands for a path that is empty. -/
def pathPart (emptyPathInUri : Bool) (target : List Byte) : Option (List Byte) :=
  if emptyPathInUri then (decodePath target).map (SLASH :: ·) else decodePath target

/-- A path cut at its slashes and resolved on a stack; none if a `..` would pop above
the root. -/
def resolvePath (mergeSlashes : Bool) (path : List Byte) : Option (List Byte) :=
  resolve signs mergeSlashes [] (path.tail.splitOn SLASH)

/-! ## Bytes -/

theorem hexValue_digit :
    ∀ ch : Byte, 0x30 ≤ ch ∧ ch ≤ 0x39 → hexValue ch = some (ch - 0x30) ∧ ch - 0x30 ≤ 9 := by
  decide +kernel

theorem hexValue_letter :
    ∀ ch : Byte, ¬(0x30 ≤ ch ∧ ch ≤ 0x39) → 0x61 ≤ ch ||| 0x20 ∧ ch ||| 0x20 ≤ 0x66 →
      hexValue ch = some ((ch ||| 0x20) - 0x61 + 10) ∧
        10 ≤ (ch ||| 0x20) - 0x61 + 10 ∧ (ch ||| 0x20) - 0x61 + 10 ≤ 15 := by
  decide +kernel

theorem hexValue_none :
    ∀ ch : Byte, ¬(0x30 ≤ ch ∧ ch ≤ 0x39) → ¬(0x61 ≤ ch ||| 0x20 ∧ ch ||| 0x20 ≤ 0x66) →
      hexValue ch = none := by
  decide +kernel

theorem shift_four : ∀ ch : Byte, ch <<< 4 = 16 * ch := by
  decide +kernel

/-- The bytes that an escape of two digits does not stand for, and the ones that an
escape with a letter does not. -/
theorem digit_bytes {high low : Byte} (highLe : high ≤ 15) (lowLe : low ≤ 9) :
    16 * high + low ≠ QUERY ∧ (16 * high + low = 0 ↔ high = 0 ∧ low = 0) := by
  unfold QUERY
  bv_omega

theorem letter_bytes {high low : Byte} (lowGe : 10 ≤ low) (lowLe : low ≤ 15) :
    16 * high + low ≠ PERCENT ∧ 16 * high + low ≠ HASH ∧ ¬(high = 0 ∧ low = 0) := by
  unfold PERCENT HASH
  bv_omega

/-! ## The walk back -/

theorem walkBack_segment {before segment after : List Byte} (split : SLASH ∉ segment) :
    walkBack (before ++ SLASH :: (segment ++ after)) (before.length + 1 + segment.length) =
      some (before ++ [SLASH]) := by
  induction segment using reverseRecOn generalizing after with
  | nil => simp [walkBack, take_append]
  | append_singleton lower ch ih =>
    simp only [mem_append, mem_singleton, not_or] at split
    have place : (before ++ SLASH :: (lower ++ [ch] ++ after))[before.length + 1 + lower.length]? =
        some ch := by
      rw [getElem?_append_right (by omega)]
      have index : before.length + 1 + lower.length - before.length = lower.length + 1 := by omega
      rw [index]
      simp
    rw [length_append, length_singleton, ← Nat.add_assoc, walkBack, place,
      if_neg (by simpa using Ne.symm split.2), append_assoc]
    exact ih split.1

theorem parent_render {stack : List (List Byte)} (stackSplit : ∀ segment ∈ stack, SLASH ∉ segment) :
    parent (render signs stack [DOT, DOT]) =
      stack.tail?.map fun below => render signs below [] := by
  cases stack with
  | nil => rfl
  | cons segment below =>
    have split := stackSplit segment mem_cons_self
    -- what lies below the segment that is popped ends with a slash
    have ends : ∃ before, render signs below [] = before ++ [SLASH] := by
      cases below with
      | nil => exact ⟨[], rfl⟩
      | cons next lower => exact ⟨render signs lower next, rfl⟩
    rcases ends with ⟨before, ends⟩
    have whole : render signs (segment :: below) [DOT, DOT] =
        before ++ SLASH :: (segment ++ [SLASH, DOT, DOT]) := by
      have text := render_append signs below [] segment
      rw [ends, nil_append] at text
      rw [render, ← text]
      simp [signs]
    have places : (before ++ SLASH :: (segment ++ [SLASH, DOT, DOT])).length - 3 =
        before.length + 1 + segment.length := by
      simp
      omega
    rw [parent, whole, places, walkBack_segment split, tail?_cons, map_some, ends]

/-! ## One byte -/

/-- The segment at hand in a state. -/
def Segment : Sw → List Byte → Prop
  | .usual, current => current ≠ [] ∧ current ≠ [DOT] ∧ current ≠ [DOT, DOT]
  | .slash, current => current = []
  | .dot, current => current = [DOT]
  | .dotDot, current => current = [DOT, DOT]

/-- The parser has written the segments of a stack and a segment that goes on. -/
structure Stands (m : Machine) (sw : Sw) (stack : List (List Byte))
    (current : List Byte) : Prop where
  state : m.state = .plain sw
  text : m.u = render signs stack current
  stackSplit : ∀ segment ∈ stack, SLASH ∉ segment
  currentSplit : SLASH ∉ current
  segment : Segment sw current

section Steps

variable {mergeSlashes : Bool} {m : Machine} {sw : Sw} {stack : List (List Byte)}
  {current : List Byte} {ch : Byte}

theorem segment_usual (isSegment : Segment sw current) (notDot : ch ≠ DOT) :
    Segment .usual (current ++ [ch]) := by
  cases sw with
  | usual =>
    rcases isSegment with ⟨_, one, two⟩
    rcases current with _ | ⟨first, _ | ⟨second, rest⟩⟩ <;> simp_all [Segment]
  | slash | dot | dotDot =>
    simp only [Segment] at isSegment
    simp [isSegment, Segment, notDot]

theorem segment_dot (isSegment : Segment .usual current) : Segment .usual (current ++ [DOT]) := by
  rcases isSegment with ⟨_, one, two⟩
  rcases current with _ | ⟨first, _ | ⟨second, rest⟩⟩ <;> simp_all [Segment]

variable (stands : Stands m sw stack current)

include stands in
theorem Stands.letter {next : Machine} {nextSw : Sw} (isState : next.state = .plain nextSw)
    (isText : next.u = m.u ++ [ch]) (notSlash : ch ≠ SLASH)
    (isSegment : Segment nextSw (current ++ [ch])) :
    Stands next nextSw stack (current ++ [ch]) where
  __ := stands
  state := isState
  text := by rw [isText, stands.text, render_append]
  currentSplit := by simp [stands.currentSplit, Ne.symm notSlash]
  segment := isSegment

/-- The text when the path ends in a state. -/
def leave : Sw → List Byte → Option (List Byte)
  | .dot, u => some u.dropLast
  | .dotDot, u => parent u
  | _, u => some u

include stands in
theorem leave_stands :
    leave sw m.u = conclude signs stack current := by
  have isSegment := stands.segment
  rw [stands.text]
  cases sw with simp only [Segment] at isSegment
  | usual =>
    rcases isSegment with ⟨_, one, two⟩
    simp [leave, conclude, one, two]
  | slash =>
    subst isSegment
    rfl
  | dot =>
    subst isSegment
    have text := render_append signs stack [] [DOT]
    rw [nil_append] at text
    simp [leave, conclude, ← text]
  | dotDot =>
    subst isSegment
    rw [leave, parent_render stands.stackSplit]
    rfl

include stands in
theorem finish_stands :
    (finish m).map Parsed.uri = conclude signs stack current := by
  rw [← leave_stands stands, finish, stands.state]
  cases sw with
  | usual | slash | dot => rfl
  | dotDot =>
    simp only [leave, Option.map_map]
    exact Option.map_id'

theorem stepPlain_percent : stepPlain mergeSlashes sw m PERCENT = .next (m.quote sw) := by
  cases sw <;> rfl

theorem stepPlain_query :
    stepPlain mergeSlashes sw m QUERY = match leave sw m.u with
      | none => .invalid
      | some u => .args (m.back u) := by
  cases sw <;> rfl

theorem stepPlain_hash :
    stepPlain mergeSlashes sw m HASH = match leave sw m.u with
      | none => .invalid
      | some u => .done (m.back u) := by
  cases sw <;> rfl

include stands in
theorem stepPlain_slash :
    (close signs mergeSlashes stack current = none ∧ stepPlain mergeSlashes sw m SLASH = .invalid) ∨
    ∃ below next, close signs mergeSlashes stack current = some below ∧
      stepPlain mergeSlashes sw m SLASH = .next next ∧ Stands next .slash below [] := by
  have left := leave_stands stands
  have isSegment := stands.segment
  cases sw with simp only [Segment] at isSegment
  | usual =>
    rcases isSegment with ⟨some_letter, one, two⟩
    right
    refine ⟨current :: stack, ((m.write SLASH).turn .slash).clearExt, ?_, rfl, ?_⟩
    · simp [close, one, two, some_letter]
    · constructor
      · rfl
      · change m.u ++ [SLASH] = _
        rw [stands.text]
        exact render_push signs stack current
      · exact forall_mem_cons.mpr ⟨stands.currentSplit, stands.stackSplit⟩
      · simp
      · rfl
  | slash =>
    subst isSegment
    right
    cases mergeSlashes with
    | true => exact ⟨stack, m, by simp [close], rfl, stands⟩
    | false =>
      refine ⟨[] :: stack, m.write SLASH, by simp [close], rfl, ?_⟩
      constructor
      · exact stands.state
      · change m.u ++ [SLASH] = _
        rw [stands.text]
        exact render_push signs stack []
      · simpa using stands.stackSplit
      · simp
      · rfl
  | dot =>
    subst isSegment
    right
    refine ⟨stack, (m.back m.u.dropLast).turn .slash, by simp [close], rfl, ?_⟩
    constructor
    · rfl
    · simp only [leave, conclude, signs_dot, if_true, some.injEq] at left
      exact left
    · exact stands.stackSplit
    · simp
    · rfl
  | dotDot =>
    subst isSegment
    have closes : close signs mergeSlashes stack [DOT, DOT] = stack.tail? := by simp [close]
    have isParent := parent_render stands.stackSplit
    rw [← stands.text] at isParent
    have isStep : stepPlain mergeSlashes .dotDot m SLASH = match parent m.u with
        | none => .invalid
        | some u => .next ((m.back u).turn .slash) := rfl
    rw [closes, isStep, isParent]
    cases popped : stack.tail? with
    | none => exact .inl ⟨rfl, rfl⟩
    | some below =>
      refine .inr ⟨below, _, rfl, rfl, ?_⟩
      constructor
      · rfl
      · rfl
      · intro segment member
        apply stands.stackSplit segment
        cases stack with
        | nil => simp at popped
        | cons top lower =>
          simp only [tail?_cons, some.injEq] at popped
          exact mem_cons_of_mem top (popped ▸ member)
      · simp
      · rfl

theorem stepUsual_letter (m : Machine) (notSlash : ch ≠ SLASH) (notPercent : ch ≠ PERCENT)
    (notQuery : ch ≠ QUERY) (notHash : ch ≠ HASH) :
    ∃ next, stepUsual m ch = .next next ∧ next.state = m.state ∧ next.u = m.u ++ [ch] := by
  rw [stepUsual, if_neg notSlash, if_neg notPercent, if_neg notQuery, if_neg notHash]
  split_ifs
  · exact ⟨_, rfl, rfl, rfl⟩
  · exact ⟨_, rfl, rfl, rfl⟩
  · exact ⟨_, rfl, rfl, rfl⟩

include stands in
theorem stepPlain_letter (notSlash : ch ≠ SLASH) (notPercent : ch ≠ PERCENT)
    (notQuery : ch ≠ QUERY) (notHash : ch ≠ HASH) :
    ∃ next nextSw, stepPlain mergeSlashes sw m ch = .next next ∧
      Stands next nextSw stack (current ++ [ch]) := by
  have isSegment := stands.segment
  rcases eq_or_ne sw .usual with rfl | notUsual
  · obtain ⟨next, isStep, sameState, written⟩ :=
      stepUsual_letter m notSlash notPercent notQuery notHash
    refine ⟨next, .usual, isStep, stands.letter (sameState.trans stands.state) written notSlash ?_⟩
    by_cases isDot : ch = DOT
    · exact isDot ▸ segment_dot isSegment
    · exact segment_usual isSegment isDot
  by_cases isDot : ch = DOT
  · subst isDot
    cases sw with
    | usual => contradiction
    | slash =>
      simp only [Segment] at isSegment
      exact ⟨_, .dot, rfl, stands.letter rfl rfl notSlash (by simp [isSegment, Segment])⟩
    | dot =>
      simp only [Segment] at isSegment
      exact ⟨_, .dotDot, rfl, stands.letter rfl rfl notSlash (by simp [isSegment, Segment])⟩
    | dotDot =>
      simp only [Segment] at isSegment
      exact ⟨_, .usual, rfl, stands.letter rfl rfl notSlash (by simp [isSegment, Segment])⟩
  · have isNext := segment_usual isSegment isDot
    by_cases isUsualByte : isUsual ch = true
    · cases sw with
      | usual => contradiction
      | slash =>
        exact ⟨(m.write ch).turn .usual, .usual, by simp [stepPlain, stepSlash, isUsualByte],
          stands.letter rfl rfl notSlash isNext⟩
      | dot =>
        exact ⟨(m.write ch).turn .usual, .usual, by simp [stepPlain, stepDot, isUsualByte],
          stands.letter rfl rfl notSlash isNext⟩
      | dotDot =>
        exact ⟨(m.write ch).turn .usual, .usual, by simp [stepPlain, stepDotDot, isUsualByte],
          stands.letter rfl rfl notSlash isNext⟩
    · cases sw with
      | usual => contradiction
      | slash =>
        refine ⟨(m.other ch).turn .usual, .usual, ?_, stands.letter rfl rfl notSlash isNext⟩
        simp [stepPlain, stepSlash, isUsualByte, notSlash, notPercent, notQuery, notHash, isDot]
      | dot =>
        refine ⟨(m.other ch).turn .usual, .usual, ?_, stands.letter rfl rfl notSlash isNext⟩
        simp [stepPlain, stepDot, isUsualByte, notSlash, notPercent, notQuery, notHash, isDot]
      | dotDot =>
        refine ⟨(m.other ch).turn .usual, .usual, ?_, stands.letter rfl rfl notSlash isNext⟩
        simp [stepPlain, stepDotDot, isUsualByte, notSlash, notPercent, notQuery, notHash]

end Steps

/-! ## The loop -/

/-- What the loop does after a step. -/
def follow (mergeSlashes : Bool) (rest : List Byte) : Step → Option Parsed
  | .next m => loop mergeSlashes m rest
  | .args m => some (m.args rest)
  | .done m => some m.done
  | .invalid => none

theorem loop_cons (mergeSlashes : Bool) (m : Machine) (ch : Byte) (rest : List Byte) :
    loop mergeSlashes m (ch :: rest) = follow mergeSlashes rest (step mergeSlashes m ch) := by
  rw [loop]
  cases step mergeSlashes m ch <;> rfl

theorem args_uri (m : Machine) (rest : List Byte) : (m.args rest).uri = m.u := by
  unfold Machine.args
  split <;> rfl

/-- The bytes of an escape that are taken as they are. -/
def Literal (ch : Byte) : Prop :=
  ch = PERCENT ∨ ch = HASH ∨ ch = QUERY

section Loop

variable {mergeSlashes : Bool} {m : Machine} {sw : Sw} {stack : List (List Byte)}
  {current rest : List Byte}

/-- The loop resolves what a text stands for, from every state that it can be in. -/
def Reads (mergeSlashes : Bool) (rest : List Byte) : Prop :=
  ∀ (m : Machine) (sw : Sw) (stack : List (List Byte)) (current : List Byte),
    Stands m sw stack current → (loop mergeSlashes m rest).map Parsed.uri =
      (decodePath rest).bind (advance signs mergeSlashes stack current)

theorem advance_letter {ch : Byte} (notSlash : ch ≠ SLASH) :
    (((decodePath rest).map (ch :: ·)).bind (advance signs mergeSlashes stack current)) =
      (decodePath rest).bind (advance signs mergeSlashes stack (current ++ [ch])) := by
  cases decodePath rest with
  | none => rfl
  | some text => simp [advance, notSlash]

theorem follow_plain {ch : Byte} (reads : Reads mergeSlashes rest)
    (stands : Stands m sw stack current) (ordinary : ¬Literal ch) :
    (follow mergeSlashes rest (stepPlain mergeSlashes sw m ch)).map Parsed.uri =
      ((decodePath rest).map (ch :: ·)).bind (advance signs mergeSlashes stack current) := by
  simp only [Literal, not_or] at ordinary
  by_cases isSlash : ch = SLASH
  · subst isSlash
    have closing : ((decodePath rest).map (SLASH :: ·)).bind
          (advance signs mergeSlashes stack current) =
        (close signs mergeSlashes stack current).bind fun below =>
          (decodePath rest).bind (advance signs mergeSlashes below []) := by
      cases decodePath rest with
      | none => simp
      | some text => simp [advance]
    rw [closing]
    rcases stepPlain_slash stands with ⟨closes, isStep⟩ | ⟨below, next, closes, isStep, after⟩
    · rw [closes, isStep]
      rfl
    · rw [closes, isStep]
      exact reads next .slash below [] after
  · rw [advance_letter isSlash]
    rcases stepPlain_letter stands isSlash ordinary.1 ordinary.2.2 ordinary.2.1 with
      ⟨next, nextSw, isStep, after⟩
    rw [isStep]
    exact reads next nextSw stack _ after

theorem follow_leave (stands : Stands m sw stack current) :
    (follow mergeSlashes rest (stepPlain mergeSlashes sw m QUERY)).map Parsed.uri =
        conclude signs stack current ∧
      (follow mergeSlashes rest (stepPlain mergeSlashes sw m HASH)).map Parsed.uri =
        conclude signs stack current := by
  rw [stepPlain_query, stepPlain_hash, ← leave_stands stands]
  cases leave sw m.u with
  | none => exact ⟨rfl, rfl⟩
  | some u => exact ⟨congrArg some (args_uri (m.back u) rest), rfl⟩

theorem stepQuoted_spec (m : Machine) (ch : Byte) :
    (hexValue ch = none ∧ ∀ sw, stepQuoted sw (m.quote sw) ch = .invalid) ∨
    ∃ value, hexValue ch = some value ∧ value ≤ 15 ∧
      ∀ sw, stepQuoted sw (m.quote sw) ch = .next (m.firstDigit sw value) := by
  unfold stepQuoted
  by_cases isDigit : 0x30 ≤ ch ∧ ch ≤ 0x39
  · have ⟨isValue, small⟩ := hexValue_digit ch isDigit
    simp only [if_pos isDigit]
    exact .inr ⟨_, isValue, by bv_omega, fun _ => rfl⟩
  · simp only [if_neg isDigit]
    by_cases isLetter : 0x61 ≤ ch ||| 0x20 ∧ ch ||| 0x20 ≤ 0x66
    · have ⟨isValue, _, small⟩ := hexValue_letter ch isDigit isLetter
      simp only [if_pos isLetter]
      exact .inr ⟨_, isValue, small, fun _ => rfl⟩
    · simp only [if_neg isLetter]
      exact .inl ⟨hexValue_none ch isDigit isLetter, by simp⟩

/-- The flag for a `+` may be set before the byte goes through the state in which the
escape began. -/
theorem stepQuotedSecond_spec (mergeSlashes : Bool) (m : Machine) {high : Byte} (low : Byte)
    (highLe : high ≤ 15) :
    ((hexValue low).bind (joinDigits high) = none ∧
      ∀ sw, stepQuotedSecond mergeSlashes sw high m low = .invalid) ∨
    ∃ decoded, (hexValue low).bind (joinDigits high) = some decoded ∧
      ((Literal decoded ∧ ∀ sw, stepQuotedSecond mergeSlashes sw high m low =
          .next ((m.write decoded).turn .usual)) ∨
        (¬Literal decoded ∧ ∃ flagged : Machine, flagged.u = m.u ∧
          ∀ sw, stepQuotedSecond mergeSlashes sw high m low =
            stepPlain mergeSlashes sw (flagged.turn sw) decoded)) := by
  unfold stepQuotedSecond
  by_cases isDigit : 0x30 ≤ low ∧ low ≤ 0x39
  · have ⟨isValue, small⟩ := hexValue_digit low isDigit
    have ⟨notQuery, isNul⟩ := digit_bytes highLe small
    rw [isValue, shift_four, bind_some, joinDigits]
    simp only [if_pos isDigit, stepDigit]
    by_cases literal : 16 * high + (low - 0x30) = PERCENT ∨ 16 * high + (low - 0x30) = HASH
    · have notNul : ¬(high = 0 ∧ low - 0x30 = 0) := by
        rw [← isNul]
        rcases literal with equal | equal <;> rw [equal] <;> decide
      rw [if_neg notNul]
      simp only [if_pos literal]
      exact .inr ⟨_, rfl, .inl ⟨literal.imp_right .inl, fun _ => rfl⟩⟩
    · by_cases nul : 16 * high + (low - 0x30) = 0
      · rw [if_pos (isNul.mp nul)]
        simp only [if_neg literal, if_pos nul]
        exact .inl (by simp)
      · rw [if_neg (mt isNul.mpr nul)]
        simp only [if_neg literal, if_neg nul]
        simp only [not_or] at literal
        exact .inr ⟨_, rfl, .inr
          ⟨not_or.mpr ⟨literal.1, not_or.mpr ⟨literal.2, notQuery⟩⟩, m, rfl, fun _ => rfl⟩⟩
  · by_cases isLetter : 0x61 ≤ low ||| 0x20 ∧ low ||| 0x20 ≤ 0x66
    · have ⟨isValue, large, small⟩ := hexValue_letter low isDigit isLetter
      have ⟨notPercent, notHash, notNul⟩ := @letter_bytes high _ large small
      rw [isValue, shift_four, BitVec.add_assoc, bind_some, joinDigits, if_neg notNul]
      simp only [if_neg isDigit, if_pos isLetter, stepLetter]
      right
      refine ⟨_, rfl, ?_⟩
      by_cases query : 16 * high + ((low ||| 0x20) - 0x61 + 10) = QUERY
      · simp only [if_pos query]
        exact .inl ⟨.inr (.inr query), by simp⟩
      · simp only [if_neg query]
        exact .inr ⟨not_or.mpr ⟨notPercent, not_or.mpr ⟨notHash, query⟩⟩,
          { m with plusInUri := m.plusInUri || _ }, rfl, fun _ => rfl⟩
    · rw [hexValue_none low isDigit isLetter]
      simp only [if_neg isDigit, if_neg isLetter]
      exact .inl (by simp)

theorem loop_quoted (mergeSlashes : Bool) (m : Machine) (high low : Byte) (rest : List Byte) :
    (unescape high low = none ∧ ∀ sw, loop mergeSlashes (m.quote sw) (high :: low :: rest) = none) ∨
    ∃ decoded, ∃ read : Machine, unescape high low = some decoded ∧ read.u = m.u ∧
      ((Literal decoded ∧ ∀ sw, loop mergeSlashes (m.quote sw) (high :: low :: rest) =
          loop mergeSlashes ((read.write decoded).turn .usual) rest) ∨
        (¬Literal decoded ∧ ∀ sw, loop mergeSlashes (m.quote sw) (high :: low :: rest) =
          follow mergeSlashes rest (stepPlain mergeSlashes sw (read.turn sw) decoded))) := by
  have first (sw : Sw) : loop mergeSlashes (m.quote sw) (high :: low :: rest) =
      follow mergeSlashes (low :: rest) (stepQuoted sw (m.quote sw) high) :=
    loop_cons mergeSlashes (m.quote sw) high (low :: rest)
  rw [unescape]
  simp only [first]
  rcases stepQuoted_spec m high with ⟨noValue, isStep⟩ | ⟨value, isValue, small, isStep⟩
  · simp only [noValue, isStep]
    exact .inl ⟨rfl, fun _ => rfl⟩
  · have second (sw : Sw) : loop mergeSlashes (m.firstDigit sw value) (low :: rest) =
        follow mergeSlashes rest
          (stepQuotedSecond mergeSlashes sw value (m.firstDigit .usual value) low) :=
      loop_cons mergeSlashes (m.firstDigit sw value) low rest
    simp only [isValue, isStep, follow, second, bind_some]
    rcases stepQuotedSecond_spec mergeSlashes (m.firstDigit .usual value) low small with
      ⟨noByte, isSecond⟩ | ⟨decoded, isByte, ⟨literal, isSecond⟩ |
        ⟨ordinary, flagged, isText, isSecond⟩⟩
    · simp only [isSecond]
      exact .inl ⟨noByte, by simp⟩
    · simp only [isSecond]
      exact .inr ⟨decoded, m.firstDigit .usual value, isByte, rfl, .inl ⟨literal, fun _ => rfl⟩⟩
    · simp only [isSecond]
      exact .inr ⟨decoded, flagged, isByte, isText, .inr ⟨ordinary, fun _ => rfl⟩⟩

theorem loop_escape (high low : Byte) (reads : Reads mergeSlashes rest)
    (stands : Stands m sw stack current) :
    (loop mergeSlashes (m.quote sw) (high :: low :: rest)).map Parsed.uri =
      ((unescape high low).bind fun decoded => (decodePath rest).map (decoded :: ·)).bind
        (advance signs mergeSlashes stack current) := by
  rcases loop_quoted mergeSlashes m high low rest with
    ⟨noByte, isLoop⟩ | ⟨decoded, read, isByte, isText, kinds⟩
  · rw [noByte, isLoop]
    rfl
  · have readStands : Stands (read.turn sw) sw stack current :=
      ⟨rfl, isText.trans stands.text, stands.stackSplit, stands.currentSplit, stands.segment⟩
    rw [isByte, bind_some]
    rcases kinds with ⟨literal, isLoop⟩ | ⟨ordinary, isLoop⟩
    · rw [isLoop]
      have apart : decoded ≠ SLASH ∧ decoded ≠ DOT := by
        rcases literal with rfl | rfl | rfl <;> decide
      rw [advance_letter apart.1]
      apply reads _ .usual
      exact readStands.letter rfl rfl apart.1 (segment_usual readStands.segment apart.2)
    · rw [isLoop]
      exact follow_plain reads readStands ordinary

theorem loop_cut (mergeSlashes : Bool) (m : Machine) (sw : Sw) {rest : List Byte}
    (short : ∀ high low others, rest ≠ high :: low :: others) :
    loop mergeSlashes (m.quote sw) rest = none := by
  rcases rest with _ | ⟨high, _ | ⟨low, others⟩⟩
  · rfl
  · rw [loop_cons]
    change follow mergeSlashes [] (stepQuoted sw (m.quote sw) high) = none
    rcases stepQuoted_spec m high with ⟨_, isStep⟩ | ⟨value, _, _, isStep⟩ <;> rw [isStep] <;> rfl
  · exact absurd rfl (short high low others)

theorem loop_reads (mergeSlashes : Bool) (rest : List Byte) : Reads mergeSlashes rest := by
  induction rest using decodePath.induct with intro m sw stack current stands
  | case1 =>
    rw [loop, finish_stands stands]
    rfl
  | case2 ch rest leaves =>
    have ⟨query, hash⟩ := @follow_leave mergeSlashes m sw stack current rest stands
    rw [loop_cons, step, stands.state]
    unfold decodePath
    rw [if_pos leaves]
    rcases leaves with rfl | rfl
    · exact query
    · exact hash
  | case3 high low rest stays ih =>
    rw [loop_cons, step, stands.state]
    dsimp only
    rw [stepPlain_percent]
    exact loop_escape high low ih stands
  | case4 rest short stays =>
    rw [loop_cons, step, stands.state, decodePath_cut short]
    dsimp only
    rw [stepPlain_percent, follow, loop_cut mergeSlashes m sw short]
    rfl
  | case5 ch rest stays notPercent ih =>
    rw [loop_cons, step, stands.state, decodePath_letter rest stays notPercent]
    apply follow_plain ih stands
    simp only [not_or] at stays
    exact not_or.mpr ⟨notPercent, not_or.mpr ⟨stays.2, stays.1⟩⟩

end Loop

/-! ## The whole target -/

theorem loop_slash (mergeSlashes plusInUri quotedUri : Bool) (rest : List Byte) :
    (loop mergeSlashes ⟨.plain .slash, [SLASH], none, plusInUri, quotedUri⟩ rest).map Parsed.uri =
      (decodePath rest).bind (advance signs mergeSlashes [] []) := by
  apply loop_reads mergeSlashes rest _ .slash [] []
  constructor
  · rfl
  · rfl
  · simp
  · simp
  · rfl

/-- The first segment of a path has nothing to resolve: it is not made of one dot or of
two and, with merged slashes, not empty in front of a slash. -/
def StartsPlain (mergeSlashes : Bool) (path : List Byte) : Prop :=
  Named signs (path.takeWhile (· != SLASH)) ∧ (mergeSlashes = true → path.head? ≠ some SLASH)

/-- A target with a path of its own, or one for which the slash is written: the code is
then not in the state after a slash, and leaves the first segment as it is. -/
def Proper (mergeSlashes emptyPathInUri : Bool) (target : List Byte) : Prop :=
  if emptyPathInUri then ∀ path, decodePath target = some path → StartsPlain mergeSlashes path
  else target.head? = some SLASH

variable {mergeSlashes : Bool} {m : Machine} {current rest target : List Byte}

theorem takeWhile_segment (path : List Byte) (split : SLASH ∉ current) :
    (current ++ path).takeWhile (· != SLASH) = current ++ path.takeWhile (· != SLASH) := by
  apply takeWhile_append_of_pos
  intro ch member
  exact bne_iff_ne.mpr (ne_of_mem_of_not_mem member split)

theorem conclude_first (plain : StartsPlain mergeSlashes (current ++ []))
    (split : SLASH ∉ current) :
    conclude signs [] current = some (SLASH :: current) := by
  have named := plain.1
  rw [takeWhile_segment [] split, takeWhile_nil, append_nil] at named
  rw [conclude, if_neg named.1, if_neg named.2]
  rfl

theorem close_first {path : List Byte} (plain : StartsPlain mergeSlashes (current ++ SLASH :: path))
    (split : SLASH ∉ current) : close signs mergeSlashes [] current = some [current] := by
  obtain ⟨named, merged⟩ := plain
  rw [takeWhile_segment _ split, takeWhile_cons_of_neg (by simp), append_nil] at named
  rw [close, if_neg named.1, if_neg named.2, if_neg]
  intro empty
  rw [Bool.and_eq_true, List.isEmpty_iff] at empty
  rw [empty.2] at merged
  exact merged empty.1 rfl

/-- The loop on the first segment, in the state `sw_usual`. -/
def ReadsFirst (mergeSlashes : Bool) (rest : List Byte) : Prop :=
  ∀ (m : Machine) (current : List Byte), m.state = .plain .usual → m.u = SLASH :: current →
    SLASH ∉ current →
    (∀ path, decodePath rest = some path → StartsPlain mergeSlashes (current ++ path)) →
      (loop mergeSlashes m rest).map Parsed.uri =
        (decodePath rest).bind (advance signs mergeSlashes [] current)

theorem ReadsFirst.letter {ch : Byte} (reads : ReadsFirst mergeSlashes rest)
    (isState : m.state = .plain .usual) (isText : m.u = SLASH :: (current ++ [ch]))
    (split : SLASH ∉ current) (notSlash : ch ≠ SLASH)
    (plain : ∀ path, (decodePath rest).map (ch :: ·) = some path →
      StartsPlain mergeSlashes (current ++ path)) :
    (loop mergeSlashes m rest).map Parsed.uri =
      ((decodePath rest).map (ch :: ·)).bind (advance signs mergeSlashes [] current) := by
  rw [advance_letter notSlash]
  apply reads m (current ++ [ch]) isState isText
  · simp [split, Ne.symm notSlash]
  · intro path isPath
    rw [append_assoc]
    exact plain _ (by rw [isPath]; rfl)

theorem follow_first {ch : Byte} (reads : ReadsFirst mergeSlashes rest)
    (isState : m.state = .plain .usual) (isText : m.u = SLASH :: current) (split : SLASH ∉ current)
    (ordinary : ¬Literal ch)
    (plain : ∀ path, (decodePath rest).map (ch :: ·) = some path →
      StartsPlain mergeSlashes (current ++ path)) :
    (follow mergeSlashes rest (stepPlain mergeSlashes .usual m ch)).map Parsed.uri =
      ((decodePath rest).map (ch :: ·)).bind (advance signs mergeSlashes [] current) := by
  simp only [Literal, not_or] at ordinary
  by_cases isSlash : ch = SLASH
  · subst isSlash
    have stands : Stands ((m.write SLASH).turn .slash).clearExt .slash [current] [] := by
      refine ⟨rfl, ?_, by simpa using split, not_mem_nil, rfl⟩
      exact congrArg (· ++ [SLASH]) isText
    refine (loop_reads mergeSlashes rest _ _ _ _ stands).trans ?_
    cases isPath : decodePath rest with
    | none => rfl
    | some path =>
      rw [isPath] at plain
      simp [advance, close_first (plain _ rfl) split]
  · obtain ⟨next, isStep, sameState, written⟩ :=
      stepUsual_letter m isSlash ordinary.1 ordinary.2.2 ordinary.2.1
    rw [stepPlain, isStep]
    exact reads.letter (sameState.trans isState) (by rw [written, isText]; rfl) split isSlash plain

theorem loop_first (mergeSlashes : Bool) (rest : List Byte) : ReadsFirst mergeSlashes rest := by
  induction rest using decodePath.induct with intro m current isState isText split plain
  | case1 =>
    rw [loop, finish, isState]
    exact (congrArg some isText).trans (conclude_first (plain [] rfl) split).symm
  | case2 ch rest leaves =>
    unfold decodePath at plain ⊢
    rw [if_pos leaves] at plain ⊢
    refine .trans ?_ (conclude_first (plain [] rfl) split).symm
    rw [loop_cons, step, isState]
    rcases leaves with rfl | rfl
    · exact congrArg some ((args_uri m rest).trans isText)
    · exact congrArg some isText
  | case3 high low rest stays ih =>
    have isPath : decodePath (PERCENT :: high :: low :: rest) = (unescape high low).bind
      fun decoded => (decodePath rest).map (decoded :: ·) := rfl
    rw [isPath] at plain ⊢
    rw [loop_cons, step, isState]
    change (loop mergeSlashes (m.quote .usual) (high :: low :: rest)).map Parsed.uri = _
    rcases loop_quoted mergeSlashes m high low rest with
      ⟨noByte, isLoop⟩ | ⟨decoded, read, isByte, sameText, ⟨literal, isLoop⟩ | ⟨ordinary, isLoop⟩⟩
    · rw [noByte, isLoop]
      rfl
    · rw [isByte, bind_some] at plain ⊢
      rw [isLoop]
      apply ih.letter rfl _ split _ plain
      · exact congrArg (· ++ [decoded]) (sameText.trans isText)
      · rcases literal with rfl | rfl | rfl <;> decide
    · rw [isByte, bind_some] at plain ⊢
      rw [isLoop]
      exact follow_first ih rfl (sameText.trans isText) split ordinary plain
  | case4 rest short stays =>
    rw [loop_cons, step, isState, decodePath_cut short]
    exact congrArg (Option.map _) (loop_cut mergeSlashes m .usual short)
  | case5 ch rest stays notPercent ih =>
    rw [decodePath_letter rest stays notPercent] at plain ⊢
    rw [loop_cons, step, isState]
    apply follow_first ih isState isText split _ plain
    simp only [not_or] at stays
    exact not_or.mpr ⟨notPercent, not_or.mpr ⟨stays.2, stays.1⟩⟩

theorem resolvePath_eq_advance (mergeSlashes : Bool) (path : List Byte) :
    resolvePath mergeSlashes path = advance signs mergeSlashes [] [] path.tail := by
  have same (segments : List (List Byte)) :
      segments.modifyHead (([] : List Byte) ++ ·) = segments := by
    cases segments <;> rfl
  rw [advance_eq_resolve, same]
  rfl

/-- What the parser accepts is the path part of the target, decoded and resolved. -/
theorem parse_eq_resolve (mergeSlashes plusInUri quotedUri : Bool) {emptyPathInUri : Bool}
    (proper : Proper mergeSlashes emptyPathInUri target) :
    (parseComplexUri mergeSlashes emptyPathInUri plusInUri quotedUri target).map Parsed.uri =
      (pathPart emptyPathInUri target).bind (resolvePath mergeSlashes) := by
  have whole (text : Option (List Byte)) : (text.map (SLASH :: ·)).bind (resolvePath mergeSlashes) =
      text.bind (advance signs mergeSlashes [] []) := by
    cases text with
    | none => rfl
    | some text => exact resolvePath_eq_advance mergeSlashes (SLASH :: text)
  cases emptyPathInUri with
  | true =>
    exact (loop_first mergeSlashes target _ [] rfl rfl not_mem_nil proper).trans (whole _).symm
  | false =>
    cases target with
    | nil => cases proper
    | cons ch rest =>
      have isSlash : ch = SLASH := some.inj proper
      subst isSlash
      have isPath : pathPart false (SLASH :: rest) = (decodePath rest).map (SLASH :: ·) :=
        decodePath_letter rest (by decide) (by decide)
      rw [isPath, whole, parseComplexUri, loop_cons]
      exact loop_slash ..

/-- The path of an accepted target starts with a slash, has no segment of one dot or of
two and, with merged slashes, no empty one inside; it is the path part of the target,
decoded once and resolved on a stack.  A target is not accepted if an escape in its path
part is malformed or stands for `NUL`, or if a segment would be popped above the root. -/
theorem parseComplexUri_resolves (mergeSlashes emptyPathInUri plusInUri quotedUri : Bool)
    (target : List Byte) (proper : Proper mergeSlashes emptyPathInUri target) :
    (∀ parsed,
      parseComplexUri mergeSlashes emptyPathInUri plusInUri quotedUri target = some parsed →
        Resolved signs mergeSlashes parsed.uri ∧
        ∃ path, pathPart emptyPathInUri target = some path ∧
          resolvePath mergeSlashes path = some parsed.uri) ∧
    (pathPart emptyPathInUri target = none →
      parseComplexUri mergeSlashes emptyPathInUri plusInUri quotedUri target = none) ∧
    (∀ path, pathPart emptyPathInUri target = some path → resolvePath mergeSlashes path = none →
      parseComplexUri mergeSlashes emptyPathInUri plusInUri quotedUri target = none) := by
  have parses := parse_eq_resolve mergeSlashes plusInUri quotedUri proper
  refine ⟨?_, ?_, ?_⟩
  · intro parsed accepted
    rw [accepted, map_some] at parses
    rcases bind_eq_some_iff.mp parses.symm with ⟨path, isPath, resolves⟩
    refine ⟨?_, path, isPath, resolves⟩
    rw [resolvePath_eq_advance] at resolves
    exact advance_resolved (by simp [Kept]) (by simp) resolves
  · intro noPath
    rw [noPath] at parses
    exact map_eq_none_iff.mp parses
  · intro path isPath aboveRoot
    rw [isPath, bind_some, aboveRoot] at parses
    exact map_eq_none_iff.mp parses

/-- The target `/a/%2e./b?` -/
theorem parseComplexUri_resolves_parent :
    ∃ parsed, parseComplexUri true false false false
        [0x2f, 0x61, 0x2f, 0x25, 0x32, 0x65, 0x2e, 0x2f, 0x62, 0x3f] = some parsed ∧
      parsed.uri = [0x2f, 0x62] ∧ Resolved signs true parsed.uri :=
  ⟨_, rfl, by decide, ((parseComplexUri_resolves true false false false
    [0x2f, 0x61, 0x2f, 0x25, 0x32, 0x65, 0x2e, 0x2f, 0x62, 0x3f] rfl).1 _ rfl).1⟩

/-- With the slash written first, the dots of the target `..` are not resolved. -/
theorem parse_dots :
    ∃ parsed, parseComplexUri true true false false [DOT, DOT] = some parsed ∧
      parsed.uri = [SLASH, DOT, DOT] ∧ ¬Resolved signs true parsed.uri := by
  refine ⟨_, rfl, by decide, ?_⟩
  intro resolved
  exact (resolved.named [DOT, DOT] (by decide)).2 rfl

/-! ## Escaping a path -/

/-- The table `uri` of `ngx_escape_uri`. -/
def uriEscape : List (BitVec 32) :=
  0xffffffff :: 0xd000002d :: 0x50000000 :: 0xb8000001 :: replicate 4 0xffffffff

/-- `escape[ch >> 5] & (1U << (ch & 0x1f))` -/
def escapes (ch : Byte) : Bool :=
  uriEscape.getD (ch >>> 5).toNat 0 &&& (1#32 <<< (ch &&& 0x1f).toNat) != 0

/-- `hex[digit]` -/
def hex (digit : Byte) : Byte :=
  if digit ≤ 9 then 0x30 + digit else 0x37 + digit

/-- `ngx_escape_uri` with the type `NGX_ESCAPE_URI` and a `dst` -/
def escapeUri (src : List Byte) : List Byte :=
  src.flatMap fun ch => if escapes ch then [PERCENT, hex (ch >>> 4), hex (ch &&& 0xf)] else [ch]

theorem escapes_spec : ∀ ch : Byte,
    if escapes ch then
      unescape (hex (ch >>> 4)) (hex (ch &&& 0xf)) = if ch = 0 then none else some ch
    else ch ≠ 0 ∧ ch ≠ PERCENT ∧ ¬(ch = QUERY ∨ ch = HASH) := by
  decide +kernel

theorem decodePath_escapeUri (path : List Byte) :
    decodePath (escapeUri path) = if 0 ∈ path then none else some path := by
  induction path with
  | nil => rfl
  | cons ch rest ih =>
    have first : decodePath (escapeUri (ch :: rest)) =
        if ch = 0 then none else (decodePath (escapeUri rest)).map (ch :: ·) := by
      have spec := escapes_spec ch
      rw [escapeUri, flatMap_cons, ← escapeUri]
      split_ifs at spec ⊢ with escaped nul nul
      · exact congrArg (Option.bind · _) spec
      · exact congrArg (Option.bind · _) spec
      · exact absurd nul spec.1
      · exact decodePath_letter _ spec.2.2 spec.2.1
    rw [first, ih]
    by_cases nul : ch = 0
    · simp [nul]
    · simp only [if_neg nul, mem_cons, Ne.symm nul, false_or]
      split_ifs <;> rfl

/-- The path of an accepted target, escaped for another request and parsed again, is the same
path; only a `NUL`, which may stand in a target unescaped, is refused. -/
theorem parse_escapeUri (mergeSlashes emptyPathInUri plusInUri quotedUri : Bool)
    (target : List Byte) (proper : Proper mergeSlashes emptyPathInUri target) (parsed : Parsed)
    (accepted :
      parseComplexUri mergeSlashes emptyPathInUri plusInUri quotedUri target = some parsed)
    (merge plus quoted : Bool) (merges : merge = true → mergeSlashes = true) :
    (parseComplexUri merge false plus quoted (escapeUri parsed.uri)).map Parsed.uri =
      if 0 ∈ parsed.uri then none else some parsed.uri := by
  have parses := parse_eq_resolve mergeSlashes plusInUri quotedUri proper
  rw [accepted, map_some] at parses
  have ⟨path, _, resolves⟩ := bind_eq_some_iff.mp parses.symm
  rw [resolvePath_eq_advance] at resolves
  have ⟨starts, named, inner⟩ := advance_resolved (by simp [Kept]) (by simp) resolves
  have again : Proper merge false (escapeUri parsed.uri) := by
    rw [← cons_head?_tail starts]
    rfl
  rw [parse_eq_resolve merge plus quoted again, pathPart, if_neg (by simp), decodePath_escapeUri]
  split_ifs
  · rfl
  · exact Resolved.resolve_eq ⟨starts, named, fun isMerged => inner (merges isMerged)⟩

/-- The target `/a/../%25` -/
theorem parse_escapeUri_percent :
    (parseComplexUri true false false false (escapeUri [0x2f, 0x25])).map Parsed.uri =
      some [0x2f, 0x25] :=
  parse_escapeUri true false false false [0x2f, 0x61, 0x2f, 0x2e, 0x2e, 0x2f, 0x25, 0x32, 0x35]
    rfl _ rfl true false false id

end Skyc.Nginx.ComplexUri
