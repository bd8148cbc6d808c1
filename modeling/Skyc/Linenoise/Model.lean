import Skyc.Lib.CBuffer
import Skyc.Lib.CString

/-!
# The line editor of `linenoise.c`

A result is missing when the code has undefined behaviour, such as an access outside
the buffer, or waits for a byte that the terminal does not deliver.  The refresh
functions change nothing that is modelled here, but they have no result when the
part of the line they show lies outside the buffer.  The standard input is a
terminal and memory is never short.
-/

namespace Skyc.Linenoise

open Skyc.Lib
open Skyc.Lib.CBuffer Skyc.Lib.Memory

/-- A `read` of one byte from the terminal. -/
inductive Read
  | byte (c : UInt8)
  | endOfFile
  | error
deriving DecidableEq, Repr

/-- `enum KEY_ACTION` -/
inductive KeyAction
  | keyNull
  | ctrlA
  | ctrlB
  | ctrlC
  | ctrlD
  | ctrlE
  | ctrlF
  | ctrlH
  | tab
  | ctrlK
  | ctrlL
  | enter
  | ctrlN
  | ctrlP
  | ctrlT
  | ctrlU
  | ctrlW
  | esc
  | backspace
deriving DecidableEq, Repr

def KeyAction.code : KeyAction → UInt8
  | .keyNull => 0
  | .ctrlA => 1
  | .ctrlB => 2
  | .ctrlC => 3
  | .ctrlD => 4
  | .ctrlE => 5
  | .ctrlF => 6
  | .ctrlH => 8
  | .tab => 9
  | .ctrlK => 11
  | .ctrlL => 12
  | .enter => 13
  | .ctrlN => 14
  | .ctrlP => 16
  | .ctrlT => 20
  | .ctrlU => 21
  | .ctrlW => 23
  | .esc => 27
  | .backspace => 127

def KeyAction.all : List KeyAction :=
  [.keyNull, .ctrlA, .ctrlB, .ctrlC, .ctrlD, .ctrlE, .ctrlF, .ctrlH, .tab,
    .ctrlK, .ctrlL, .enter, .ctrlN, .ctrlP, .ctrlT, .ctrlU, .ctrlW, .esc, .backspace]

/-- The key of a byte that `enum KEY_ACTION` names. -/
def KeyAction.ofByte (c : UInt8) : Option KeyAction :=
  KeyAction.all.find? fun key => key.code == c

theorem KeyAction.code_of_ofByte {c : UInt8} {key : KeyAction}
    (named : KeyAction.ofByte c = some key) : key.code = c := by
  have found := List.find?_some named
  exact eq_of_beq found

/-- `struct linenoiseState` without the prompt's text and the rows that
`refreshMultiLine` has used. -/
structure LinenoiseState where
  inCompletion : Bool
  completionIdx : ℕ
  buf : Buffer
  buflen : ℕ
  plen : ℕ
  pos : ℕ
  len : ℕ
  cols : ℕ
  historyIndex : ℤ
deriving DecidableEq, Repr

/-- `history[0..history_len)` and `history_max_len`, which
`linenoiseHistorySetMaxLen` keeps positive. -/
structure History where
  maxLen : ℕ
  maxLen_pos : 0 < maxLen
  entries : List (List UInt8)
deriving DecidableEq, Repr

structure Session where
  l : LinenoiseState
  history : History
deriving DecidableEq, Repr

/-- What a call of `linenoiseEditFeed` finds: the modes, the callbacks, and whether it
can write a single character. -/
structure Environment where
  mlmode : Bool
  hintsCallback : Bool
  completionCallback : Option (List UInt8 → List CString)
  writes : Bool

inductive Errno
  | eagain
  | enoent
deriving DecidableEq, Repr

/-- The result of `linenoiseEditFeed`. -/
inductive Answer
  | editMore
  | line (text : List UInt8)
  | null (errno : Option Errno)
deriving DecidableEq, Repr

/-! ## Showing the line -/

/-- A `size_t` minus one. -/
def sizePred (size : ℕ) : ℕ :=
  (size + (2 ^ 64 - 1)) % 2 ^ 64

/-- The local variables `buf`, as an offset in the text, `len` and `pos`. -/
structure Window where
  offset : ℕ
  len : ℕ
  pos : ℕ

/-- `while((plen+pos) >= l->cols)`, for a number of turns. -/
def shiftLoop (plen cols : ℕ) : ℕ → Window → Option Window
  | 0, _ => none
  | turns + 1, window =>
    if cols ≤ (plen + window.pos) % 2 ^ 64 then
      shiftLoop plen cols turns ⟨window.offset + 1, sizePred window.len, sizePred window.pos⟩
    else
      some window

/-- `while (plen+len > l->cols)`, for a number of turns. -/
def cutLoop (plen cols : ℕ) : ℕ → Window → Option Window
  | 0, _ => none
  | turns + 1, window =>
    if cols < (plen + window.len) % 2 ^ 64 then
      cutLoop plen cols turns { window with len := sizePred window.len }
    else
      some window

/-- The two loops of `refreshSingleLine`. -/
def trimLine (plen cols turns len pos : ℕ) : Option Window := do
  let window ← shiftLoop plen cols turns ⟨0, len, pos⟩
  cutLoop plen cols turns window

/-- The window is copied from the buffer, and an `int` counts what is written. -/
def refreshSingleLine (l : LinenoiseState) : Option LinenoiseState := do
  let window ← trimLine l.plen l.cols (l.plen + l.len + 2) l.len l.pos
  let _ ← int (l.plen + window.len)
  if window.offset + window.len ≤ l.buf.length then return l else none

/-- The whole line is copied from the buffer; rows and columns are quotients and
remainders by `cols`. -/
def refreshMultiLine (l : LinenoiseState) : Option LinenoiseState := do
  let _ ← int (l.plen + l.len)
  let cols ← int l.cols
  if cols ≠ 0 ∧ l.len ≤ l.buf.length then return l else none

def refreshLine (env : Environment) (l : LinenoiseState) : Option LinenoiseState :=
  if env.mlmode then refreshMultiLine l else refreshSingleLine l

/-! ## The editing functions -/

/-- The result tells whether the character could be written. -/
def linenoiseEditInsert (env : Environment) (l : LinenoiseState)
    (c : UInt8) : Option (Bool × LinenoiseState) :=
  if l.len < l.buflen then
    if l.len = l.pos then do
      let buf ← put l.buf l.pos c
      let buf ← put buf (l.len + 1) 0
      let l := { l with buf := buf, pos := l.pos + 1, len := l.len + 1 }
      if !env.mlmode && decide (l.plen + l.len < l.cols) && !env.hintsCallback then
        return (env.writes, l)
      else
        let l ← refreshLine env l
        return (true, l)
    else do
      let buf ← memmove l.buf (l.pos + 1) l.pos (l.len - l.pos)
      let buf ← put buf l.pos c
      let buf ← put buf (l.len + 1) 0
      let l ← refreshLine env { l with buf := buf, len := l.len + 1, pos := l.pos + 1 }
      return (true, l)
  else
    some (true, l)

section

variable (env : Environment)

def linenoiseEditMoveLeft (l : LinenoiseState) : Option LinenoiseState :=
  if 0 < l.pos then refreshLine env { l with pos := l.pos - 1 } else some l

def linenoiseEditMoveRight (l : LinenoiseState) : Option LinenoiseState :=
  if l.pos ≠ l.len then refreshLine env { l with pos := l.pos + 1 } else some l

def linenoiseEditMoveHome (l : LinenoiseState) : Option LinenoiseState :=
  if l.pos ≠ 0 then refreshLine env { l with pos := 0 } else some l

def linenoiseEditMoveEnd (l : LinenoiseState) : Option LinenoiseState :=
  if l.pos ≠ l.len then refreshLine env { l with pos := l.len } else some l

def linenoiseEditDelete (l : LinenoiseState) : Option LinenoiseState :=
  if 0 < l.len ∧ l.pos < l.len then do
    let buf ← memmove l.buf l.pos (l.pos + 1) (l.len - l.pos - 1)
    let buf ← put buf (l.len - 1) 0
    refreshLine env { l with buf := buf, len := l.len - 1 }
  else
    some l

def linenoiseEditBackspace (l : LinenoiseState) : Option LinenoiseState :=
  if 0 < l.pos ∧ 0 < l.len then do
    let buf ← memmove l.buf (l.pos - 1) l.pos (l.len - l.pos)
    let buf ← put buf (l.len - 1) 0
    refreshLine env { l with buf := buf, pos := l.pos - 1, len := l.len - 1 }
  else
    some l

/-- `while (pos > 0 && accept(buf[pos-1])) pos--` -/
def skipBack (accept : UInt8 → Bool) (buf : Buffer) : ℕ → Option ℕ
  | 0 => some 0
  | pos + 1 => do
    let c ← buf[pos]?
    if accept c then skipBack accept buf pos else return pos + 1

def isBlank (c : UInt8) : Bool :=
  c == 32

def linenoiseEditDeletePrevWord (l : LinenoiseState) : Option LinenoiseState := do
  let oldPos := l.pos
  let pos ← skipBack isBlank l.buf l.pos
  let pos ← skipBack (fun c => !isBlank c) l.buf pos
  let diff := oldPos - pos
  let buf ← memmove l.buf pos oldPos (l.len - oldPos + 1)
  refreshLine env { l with buf := buf, pos := pos, len := l.len - diff }

/-- The case `CTRL_T` of `linenoiseEditFeed`. -/
def transpose (l : LinenoiseState) : Option LinenoiseState :=
  if 0 < l.pos ∧ l.pos < l.len then do
    let aux ← l.buf[l.pos - 1]?
    let c ← l.buf[l.pos]?
    let buf ← put l.buf (l.pos - 1) c
    let buf ← put buf l.pos aux
    refreshLine env { l with
      buf := buf
      pos := if l.pos ≠ l.len - 1 then l.pos + 1 else l.pos }
  else
    some l

/-- The case `CTRL_U` of `linenoiseEditFeed`. -/
def killLine (l : LinenoiseState) : Option LinenoiseState := do
  let buf ← put l.buf 0 0
  refreshLine env { l with buf := buf, pos := 0, len := 0 }

/-- The case `CTRL_K` of `linenoiseEditFeed`. -/
def killToEnd (l : LinenoiseState) : Option LinenoiseState := do
  let buf ← put l.buf l.pos 0
  refreshLine env { l with buf := buf, len := l.pos }

end

/-! ## History -/

/-- The result tells whether the line has been added. -/
def linenoiseHistoryAdd (history : History) (line : List UInt8) : Bool × History :=
  if history.maxLen = 0 then
    (false, history)
  else if history.entries.getLast? = some line then
    (false, history)
  else if history.entries.length = history.maxLen then
    (true, { history with entries := history.entries.tail ++ [line] })
  else
    (true, { history with entries := history.entries ++ [line] })

/-- `history_len--; free(history[history_len]);` -/
def History.removeLast (history : History) : Option History :=
  if history.entries = [] then none
  else some { history with entries := history.entries.dropLast }

inductive Direction
  | next
  | prev
deriving DecidableEq, Repr

/-- `strncpy(buf, text, n)` -/
def strncpy (buf : Buffer) (text : List UInt8) (n : ℕ) : Option Buffer :=
  if n ≤ buf.length then
    some (text.take n ++ (List.replicate (n - text.length) 0 ++ buf.drop n))
  else
    none

def History.place (history : History) (historyIndex : ℤ) : Option ℕ :=
  let place := (history.entries.length : ℤ) - 1 - historyIndex
  if 0 ≤ place ∧ place < history.entries.length then some place.toNat else none

def linenoiseEditHistoryNext (env : Environment) (session : Session) (dir : Direction) :
    Option Session :=
  if 1 < session.history.entries.length then do
    let l := session.l
    let place ← session.history.place l.historyIndex
    let history := { session.history with
      entries := session.history.entries.set place (cString l.buf) }
    let historyIndex := l.historyIndex + (if dir = .prev then 1 else -1)
    if historyIndex < 0 then
      return ⟨{ l with historyIndex := 0 }, history⟩
    else if history.entries.length ≤ historyIndex then
      return ⟨{ l with historyIndex := history.entries.length - 1 }, history⟩
    else
      let place ← history.place historyIndex
      let entry ← history.entries[place]?
      let buf ← strncpy l.buf entry l.buflen
      let buf ← if l.buflen = 0 then none else put buf (l.buflen - 1) 0
      let len := (cString buf).length
      let l ← refreshLine env { l with
        buf := buf
        historyIndex := historyIndex
        len := len
        pos := len }
      return ⟨l, history⟩
  else
    some session

/-! ## Completion -/

/-- `snprintf(buf, size, "%s", text)` -/
def snprintf (buf : Buffer) (size : ℕ) (text : List UInt8) : Option Buffer :=
  if size = 0 then
    some buf
  else
    let written := text.take (size - 1) ++ [0]
    if written.length ≤ buf.length then
      some (written ++ buf.drop written.length)
    else
      none

/-- The completion is shown instead of the line. -/
def refreshLineWithCompletion (env : Environment) (lc : List CString)
    (ls : LinenoiseState) : Option LinenoiseState :=
  match lc[ls.completionIdx]? with
  | some text => do
    let _ ← refreshLine env { ls with
      buf := text.bytes ++ [0]
      len := text.bytes.length
      pos := text.bytes.length }
    return ls
  | none => refreshLine env ls

/-- The completion takes the place of the line. -/
def acceptCompletion (lc : List CString) (ls : LinenoiseState) : Option LinenoiseState :=
  match lc[ls.completionIdx]? with
  | some text => do
    let buf ← snprintf ls.buf ls.buflen text.bytes
    return { ls with buf := buf, len := text.bytes.length, pos := text.bytes.length }
  | none => some ls

/-- The byte that is left to handle, and the state. -/
def completeLine (env : Environment) (callback : List UInt8 → List CString)
    (l : LinenoiseState) (c : UInt8) : Option (UInt8 × LinenoiseState) :=
  let lc := callback (cString l.buf)
  if lc.length = 0 then
    some (c, { l with inCompletion := false })
  else if c = 9 then do
    let l ← refreshLineWithCompletion env lc
      (if l.inCompletion = false then
        { l with inCompletion := true, completionIdx := 0 }
      else
        { l with completionIdx := (l.completionIdx + 1) % (lc.length + 1) })
    return (0, l)
  else if c = 27 then do
    let l ← (if l.completionIdx < lc.length then refreshLine env l else some l)
    let l ← refreshLine env { l with inCompletion := false }
    return (0, l)
  else do
    let l ← acceptCompletion lc l
    let l ← refreshLine env { l with inCompletion := false }
    return (c, l)

/-! ## Keys -/

/-- One byte of an escape sequence; an error ends the sequence. -/
def readSequence {α : Type} (input : List Read) (broken : List Read → α)
    (next : UInt8 → List Read → Option α) : Option α :=
  match input with
  | .byte c :: rest => next c rest
  | .error :: rest => some (broken rest)
  | _ => none

def setLine (session : Session) (l : LinenoiseState) : Session :=
  { session with l := l }

/-- The effect of a complete escape sequence of three bytes. -/
def escapeKey (env : Environment) (session : Session) (first second : UInt8) :
    Option Session :=
  let l := session.l
  if first = 91 then
    if second = 65 then linenoiseEditHistoryNext env session .prev
    else if second = 66 then linenoiseEditHistoryNext env session .next
    else if second = 67 then (linenoiseEditMoveRight env l).map (setLine session)
    else if second = 68 then (linenoiseEditMoveLeft env l).map (setLine session)
    else if second = 72 then (linenoiseEditMoveHome env l).map (setLine session)
    else if second = 70 then (linenoiseEditMoveEnd env l).map (setLine session)
    else some session
  else if first = 79 then
    if second = 72 then (linenoiseEditMoveHome env l).map (setLine session)
    else if second = 70 then (linenoiseEditMoveEnd env l).map (setLine session)
    else some session
  else
    some session

def isDigit (c : UInt8) : Bool :=
  decide (48 ≤ c) && decide (c ≤ 57)

/-- The case `ESC` of `linenoiseEditFeed`. -/
def escapeSequence (env : Environment) (input : List Read) (session : Session) :
    Option (List Read × Session) :=
  readSequence input (·, session) fun first input =>
  readSequence input (·, session) fun second input =>
    if first = 91 ∧ isDigit second then
      -- An extended sequence has a third byte.
      readSequence input (·, session) fun third input =>
        if third = 126 ∧ second = 51 then do
          let l ← linenoiseEditDelete env session.l
          return (input, setLine session l)
        else
          some (input, session)
    else do
      let session ← escapeKey env session first second
      return (input, session)

/-- A case of the switch that goes on with the line. -/
def more (session : Session) (l : Option LinenoiseState) : Option (Answer × Session) := do
  let l ← l
  return (.editMore, setLine session l)

/-- The switch of `linenoiseEditFeed` for all keys but `ESC`. -/
def handleKey (env : Environment) (c : UInt8) (session : Session) :
    Option (Answer × Session) :=
  let l := session.l
  match KeyAction.ofByte c with
  | some .enter => do
    let history ← session.history.removeLast
    let l ← (if env.mlmode then linenoiseEditMoveEnd env l else some l)
    let l ← (if env.hintsCallback then refreshLine env l else some l)
    return (.line (cString l.buf), ⟨l, history⟩)
  | some .ctrlC => some (.null (some .eagain), session)
  | some .backspace => more session (linenoiseEditBackspace env l)
  | some .ctrlH => more session (linenoiseEditBackspace env l)
  | some .ctrlD =>
    if 0 < l.len then
      more session (linenoiseEditDelete env l)
    else do
      let history ← session.history.removeLast
      return (.null (some .enoent), { session with history := history })
  | some .ctrlT => more session (transpose env l)
  | some .ctrlB => more session (linenoiseEditMoveLeft env l)
  | some .ctrlF => more session (linenoiseEditMoveRight env l)
  | some .ctrlP => do
    let session ← linenoiseEditHistoryNext env session .prev
    return (.editMore, session)
  | some .ctrlN => do
    let session ← linenoiseEditHistoryNext env session .next
    return (.editMore, session)
  | some .ctrlU => more session (killLine env l)
  | some .ctrlK => more session (killToEnd env l)
  | some .ctrlA => more session (linenoiseEditMoveHome env l)
  | some .ctrlE => more session (linenoiseEditMoveEnd env l)
  | some .ctrlL => more session (refreshLine env l)
  | some .ctrlW => more session (linenoiseEditDeletePrevWord env l)
  | _ => do
    let (written, l) ← linenoiseEditInsert env l c
    return (if written then .editMore else .null none, setLine session l)

/-- The switch of `linenoiseEditFeed`. -/
def dispatch (env : Environment) (c : UInt8) (input : List Read)
    (session : Session) : Option (Answer × List Read × Session) :=
  if KeyAction.ofByte c = some .esc then do
    let (input, session) ← escapeSequence env input session
    return (.editMore, input, session)
  else do
    let (answer, session) ← handleKey env c session
    return (answer, input, session)

def linenoiseEditFeed (env : Environment) (input : List Read)
    (session : Session) : Option (Answer × List Read × Session) :=
  match input with
  | [] => none
  | .endOfFile :: input => some (.null none, input, session)
  | .error :: input => some (.null none, input, session)
  | .byte c :: input =>
    match env.completionCallback with
    | none => dispatch env c input session
    | some callback =>
      if session.l.inCompletion ∨ c = 9 then do
        let (c, l) ← completeLine env callback session.l c
        let session := setLine session l
        -- `char` is signed.
        if 128 ≤ c then return (.null none, input, session)
        else if c = 0 then return (.editMore, input, session)
        else dispatch env c input session
      else
        dispatch env c input session

/-- `linenoiseEditStart` on a terminal that can be put in raw mode and written
to. -/
def linenoiseEditStart (history : History) (buf : Buffer)
    (buflen plen cols : ℕ) : Option Session := do
  let buf ← put buf 0 0
  return {
    l := {
      inCompletion := false
      completionIdx := 0
      buf := buf
      buflen := sizePred buflen
      plen := plen
      pos := 0
      len := 0
      cols := cols
      historyIndex := 0 }
    history := (linenoiseHistoryAdd history []).2 }

/-- Calls of `linenoiseEditFeed`, one for each environment, as long as the
answer is `linenoiseEditMore`: the loop of `linenoiseBlockingEdit`. -/
def feedAll : List Environment → List Read → Session → Option (List Answer × List Read × Session)
  | [], input, session => some ([], input, session)
  | env :: envs, input, session => do
    let (answer, input, session) ← linenoiseEditFeed env input session
    if answer = .editMore then
      let (answers, input, session) ← feedAll envs input session
      return (answer :: answers, input, session)
    else
      return ([answer], input, session)

end Skyc.Linenoise
