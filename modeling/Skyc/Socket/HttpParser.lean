import Skyc.Lib.CBuffer

/-!
# The HTTP request parser

`08.3.http_parsr.cpp` receives a request piece by piece into one buffer and parses
the lines that are complete, as C strings.  A result is missing when the code reads
or writes outside the buffer or a loop exceeds its bound.
-/

namespace Skyc.Socket.HttpParser

open Skyc.Lib Skyc.Lib.CBuffer List Option Nat

abbrev BUFFER_SIZE : ℕ := 4096

inductive CheckState
  | requestline
  | header
  | content
deriving DecidableEq, Repr

inductive LineStatus
  | ok
  | bad
  | opened
deriving DecidableEq, Repr

inductive HttpCode
  | noRequest
  | getRequest
  | badRequest
  | forbiddenRequest
  | internalError
  | closedConnection
deriving DecidableEq, Repr

abbrev carriageReturn : UInt8 := 13

abbrev lineFeed : UInt8 := 10

abbrev slash : UInt8 := 47

/-- `" \t"` -/
def blank (byte : UInt8) : Bool :=
  byte = 32 || byte = 9

/-- `"GET"` -/
def get : List UInt8 :=
  [71, 69, 84]

/-- `"HTTP/1.1"` -/
def version : List UInt8 :=
  [72, 84, 84, 80, 47, 49, 46, 49]

/-- `"http://"` -/
def scheme : List UInt8 :=
  [104, 116, 116, 112, 58, 47, 47]

/-- `"Host:"` -/
def host : List UInt8 :=
  [72, 111, 115, 116, 58]

/-! ## The functions -/

/-- The loop of `parse_line`; the first number is `read_index -
checked_index`. -/
def parseLineLoop (readIndex : ℕ) : ℕ → Buffer → ℕ → Option (LineStatus × Buffer × ℕ)
  | 0, buffer, checkedIndex => some (.opened, buffer, checkedIndex)
  | left + 1, buffer, checkedIndex => do
    let temp ← buffer[checkedIndex]?
    if temp = carriageReturn then
      if checkedIndex + 1 = readIndex then
        return (.opened, buffer, checkedIndex)
      else
        let next ← buffer[checkedIndex + 1]?
        if next = lineFeed then
          let buffer ← put buffer checkedIndex 0
          let buffer ← put buffer (checkedIndex + 1) 0
          return (.ok, buffer, checkedIndex + 2)
        else
          return (.bad, buffer, checkedIndex)
    else if temp = lineFeed then
      if checkedIndex > 1 then
        let previous ← buffer[checkedIndex - 1]?
        if previous = carriageReturn then
          let buffer ← put buffer (checkedIndex - 1) 0
          let buffer ← put buffer checkedIndex 0
          return (.ok, buffer, checkedIndex + 1)
        else
          return (.bad, buffer, checkedIndex)
      else
        return (.bad, buffer, checkedIndex)
    else
      parseLineLoop readIndex left buffer (checkedIndex + 1)

def parseLine (buffer : Buffer) (checkedIndex readIndex : ℕ) : Option (LineStatus × Buffer × ℕ) :=
  parseLineLoop readIndex (readIndex - checkedIndex) buffer checkedIndex

/-- The `http://` and the name of the host before the path are skipped. -/
def skipScheme (buffer : Buffer) (szURL : ℕ) : Option (Option ℕ) := do
  if ← strncasecmp buffer szURL scheme then
    strpbrk buffer (szURL + 7) (· = slash)
  else
    return some szURL

/-- The end of `parse_requestline`, from the comparison of the version on. -/
def parseTarget (buffer : Buffer) (szURL szVersion : ℕ)
    (checkstate : CheckState) : Option (HttpCode × Buffer × CheckState) := do
  if !(← strcasecmp buffer szVersion version) then
    return (.badRequest, buffer, checkstate)
  else
    match ← skipScheme buffer szURL with
    | none => return (.badRequest, buffer, checkstate)
    | some szURL =>
      let byte ← buffer[szURL]?
      if byte ≠ slash then
        return (.badRequest, buffer, checkstate)
      else
        return (.noRequest, buffer, .header)

def parseRequestline (buffer : Buffer) (szTemp : ℕ)
    (checkstate : CheckState) : Option (HttpCode × Buffer × CheckState) := do
  match ← strpbrk buffer szTemp blank with
  | none => return (.badRequest, buffer, checkstate)
  | some szURL =>
    let buffer ← put buffer szURL 0
    if !(← strcasecmp buffer szTemp get) then
      return (.badRequest, buffer, checkstate)
    else
      let szURL := szURL + 1 + (← strspn buffer (szURL + 1) blank)
      match ← strpbrk buffer szURL blank with
      | none => return (.badRequest, buffer, checkstate)
      | some szVersion =>
        let buffer ← put buffer szVersion 0
        let skipped ← strspn buffer (szVersion + 1) blank
        parseTarget buffer szURL (szVersion + 1 + skipped) checkstate

/-- `parse_headers`; what it prints does not change its result. -/
def parseHeaders (buffer : Buffer) (szTemp : ℕ) : Option HttpCode := do
  let byte ← buffer[szTemp]?
  if byte = 0 then
    return .getRequest
  else if ← strncasecmp buffer szTemp host then
    let _ ← strspn buffer (szTemp + 5) blank
    return .noRequest
  else
    return .noRequest

/-- The variables of `main`. -/
structure Request where
  buffer : Buffer
  readIndex : ℕ
  checkedIndex : ℕ
  startLine : ℕ
  checkstate : CheckState
deriving DecidableEq, Repr

/-- The body of the loop of `parse_content` for one complete line: the code
that it returns, or the next round. -/
def parseLineContent (request : Request) : Option (HttpCode × Request) := do
  let szTemp := request.startLine
  let request := { request with startLine := request.checkedIndex }
  match request.checkstate with
  | .requestline =>
    let (code, buffer, checkstate) ← parseRequestline request.buffer szTemp request.checkstate
    return (code, { request with buffer, checkstate })
  | .header =>
    let code ← parseHeaders request.buffer szTemp
    return (code, request)
  | .content => return (.internalError, request)

def parseContentLoop : ℕ → Request → Option (HttpCode × Request)
  | 0, _ => none
  | fuel + 1, request => do
    let (status, buffer, checkedIndex) ←
      parseLine request.buffer request.checkedIndex request.readIndex
    let request := { request with buffer, checkedIndex }
    match status with
    | .ok =>
      let (code, request) ← parseLineContent request
      if code = .noRequest then
        parseContentLoop fuel request
      else
        return (code, request)
    | .opened => return (.noRequest, request)
    | .bad => return (.badRequest, request)

/-- `parse_content`; every complete line moves `checked_index`. -/
def parseContent (request : Request) : Option (HttpCode × Request) :=
  parseContentLoop (request.readIndex - request.checkedIndex + 1) request

/-- The variables of `main` before the first `recv`. -/
def start : Request where
  buffer := replicate BUFFER_SIZE 0
  readIndex := 0
  checkedIndex := 0
  startLine := 0
  checkstate := .requestline

/-- `recv`: a piece is written behind what has been received. -/
def receive (request : Request) (chunk : List UInt8) : Option Request :=
  if chunk.length ≤ BUFFER_SIZE - request.readIndex then
    some { request with
      buffer := request.buffer.take request.readIndex ++ chunk ++
        request.buffer.drop (request.readIndex + chunk.length)
      readIndex := request.readIndex + chunk.length }
  else
    none

/-- The loop of `main`: pieces are received until `parse_content` returns
something else than `NO_REQUEST`. -/
def drive : Request → List (List UInt8) → Option HttpCode
  | _, [] => some .noRequest
  | request, chunk :: rest => do
    let request ← receive request chunk
    let (code, request) ← parseContent request
    if code = .noRequest then
      drive request rest
    else
      return code

/-! ## A line is parsed inside the front -/

variable {front : Buffer} {szTemp szURL szVersion checkedIndex : ℕ} {checkstate : CheckState}

variable {i : ℕ}

theorem getElem?_front (inside : i < front.length) (tail : Buffer) :
    (front ++ tail)[i]? = some front[i] := by
  rw [getElem?_append_left inside, getElem?_eq_getElem inside]

def HttpCode.OfLine (code : HttpCode) : Prop :=
  code = .badRequest ∨ code = .noRequest

theorem skipScheme_front (urlEnds : Terminated front szURL) :
    ∃ target, (∀ tail, skipScheme (front ++ tail) szURL = some target) ∧
      ∀ i, target = some i → i < front.length := by
  obtain ⟨hasScheme, compared, behind⟩ :=
    strncasecmp_spec urlEnds (show (0 : UInt8) ∉ scheme by decide)
  cases hasScheme with
  | false =>
    refine ⟨some szURL, ?_, ?_⟩
    · intro tail
      simp [skipScheme, compared tail]
    · intro i isTarget
      cases isTarget
      exact urlEnds.lt
  | true =>
    obtain ⟨found, searched, inside⟩ := strpbrk_spec (behind rfl) (· = slash)
    refine ⟨found, ?_, ?_⟩
    · intro tail
      simp only [skipScheme, compared tail, some_bind, if_true]
      exact searched tail
    · intro i isFound
      exact lt_of_succ_lt (inside i isFound).2.lt

theorem parseTarget_front (checkstate : CheckState) (urlEnds : Terminated front szURL)
    (versionEnds : Terminated front szVersion) :
    ∃ code result, code.OfLine ∧ ∀ tail, parseTarget (front ++ tail) szURL szVersion checkstate =
      some (code, front ++ tail, result) := by
  obtain ⟨isVersion, compared⟩ := strcasecmp_spec versionEnds (show (0 : UInt8) ∉ version by decide)
  obtain ⟨target, skipped, inside⟩ := skipScheme_front urlEnds
  cases isVersion with
  | false =>
    refine ⟨.badRequest, checkstate, .inl rfl, ?_⟩
    intro tail
    simp [parseTarget, compared tail]
  | true =>
    cases target with
    | none =>
      refine ⟨.badRequest, checkstate, .inl rfl, ?_⟩
      intro tail
      simp [parseTarget, compared tail, skipped tail]
    | some path =>
      have insidePath := inside path rfl
      by_cases isSlash : front[path] = slash
      · refine ⟨.noRequest, .header, .inr rfl, ?_⟩
        intro tail
        simp [parseTarget, compared tail, skipped tail, getElem?_front insidePath, isSlash]
      · refine ⟨.badRequest, checkstate, .inl rfl, ?_⟩
        intro tail
        simp [parseTarget, compared tail, skipped tail, getElem?_front insidePath, isSlash]

theorem parseRequestline_front (checkstate : CheckState) (ends : Terminated front szTemp) :
    ∃ code parsed result, code.OfLine ∧ parsed.length = front.length ∧
      ∀ tail, parseRequestline (front ++ tail) szTemp checkstate =
        some (code, parsed ++ tail, result) := by
  obtain ⟨url, foundUrl, insideUrl⟩ := strpbrk_spec ends blank
  cases url with
  | none =>
    refine ⟨.badRequest, front, checkstate, .inl rfl, rfl, ?_⟩
    intro tail
    simp [parseRequestline, foundUrl tail]
  | some szURL =>
    have behindUrl := (insideUrl szURL rfl).2
    have urlEnds := behindUrl.set szURL
    have putUrl := put_append 0 (lt_of_succ_lt behindUrl.lt)
    obtain ⟨isGet, compared⟩ := strcasecmp_spec (ends.set szURL) (show (0 : UInt8) ∉ get by decide)
    obtain ⟨blanks, skipped, targetEnds⟩ := strspn_spec urlEnds blank
    obtain ⟨version, foundVersion, insideVersion⟩ := strpbrk_spec targetEnds blank
    cases isGet with
    | false =>
      refine ⟨.badRequest, front.set szURL 0, checkstate, .inl rfl, length_set, ?_⟩
      intro tail
      simp [parseRequestline, foundUrl tail, putUrl tail, compared tail]
    | true =>
      cases version with
      | none =>
        refine ⟨.badRequest, front.set szURL 0, checkstate, .inl rfl, length_set, ?_⟩
        intro tail
        simp [parseRequestline, foundUrl tail, putUrl tail,
          compared tail, skipped tail, foundVersion tail]
      | some szVersion =>
        obtain ⟨notBefore, behindVersion⟩ := insideVersion szVersion rfl
        have putVersion := put_append 0 (lt_of_succ_lt behindVersion.lt)
        obtain ⟨moreBlanks, skippedMore, versionEnds⟩ :=
          strspn_spec (behindVersion.set szVersion) blank
        obtain ⟨code, result, ofLine, parsed⟩ :=
          parseTarget_front checkstate (targetEnds.set szVersion) versionEnds
        refine ⟨code, (front.set szURL 0).set szVersion 0, result,
          ofLine, length_set.trans length_set, ?_⟩
        intro tail
        simp [parseRequestline, foundUrl tail, putUrl tail,
          compared tail, skipped tail, foundVersion tail,
          putVersion tail, skippedMore tail, parsed tail]

theorem parseHeaders_front (ends : Terminated front szTemp) :
    ∃ code, ∀ tail, parseHeaders (front ++ tail) szTemp = some code := by
  have inside := ends.lt
  by_cases isEmpty : front[szTemp] = 0
  · refine ⟨.getRequest, ?_⟩
    intro tail
    simp [parseHeaders, getElem?_front inside, isEmpty]
  · obtain ⟨isHost, compared, behind⟩ := strncasecmp_spec ends (show (0 : UInt8) ∉ host by decide)
    cases isHost with
    | false =>
      refine ⟨.noRequest, ?_⟩
      intro tail
      simp [parseHeaders, getElem?_front inside, isEmpty, compared tail]
    | true =>
      obtain ⟨blanks, skipped, -⟩ := strspn_spec (behind rfl) blank
      have skippedHost : ∀ tail, strspn (front ++ tail) (szTemp + 5) blank = some blanks := skipped
      refine ⟨.noRequest, ?_⟩
      intro tail
      simp [parseHeaders, getElem?_front inside, isEmpty, compared tail, skippedHost tail]

theorem parseLineContent_front {startLine : ℕ} (checkedIndex : ℕ)
    (checkstate : CheckState) (ends : Terminated front startLine) :
    ∃ code parsed result, parsed.length = front.length ∧
      ∀ tail readIndex, parseLineContent ⟨front ++ tail, readIndex, checkedIndex, startLine,
        checkstate⟩ = some (code, ⟨parsed ++ tail, readIndex, checkedIndex,
        checkedIndex, result⟩) := by
  cases checkstate with
  | requestline =>
    obtain ⟨code, parsed, result, -, length, same⟩ := parseRequestline_front .requestline ends
    refine ⟨code, parsed, result, length, ?_⟩
    intro tail readIndex
    simp [parseLineContent, same tail]
  | header =>
    obtain ⟨code, same⟩ := parseHeaders_front ends
    refine ⟨code, front, .header, rfl, ?_⟩
    intro tail readIndex
    simp [parseLineContent, same tail]
  | content => exact ⟨.internalError, front, .content, rfl, fun _ _ => rfl⟩

/-! ## Looking for the end of a line -/

/-- What `parse_line` finds in the front of a buffer, in a form that also
says what it finds once more has been received. -/
inductive LineOutcome (front : Buffer) (checkedIndex : ℕ) : Prop
  | ok (parsed : Buffer) (next : ℕ) (length : parsed.length = front.length)
    (progress : checkedIndex < next) (inside : next ≤ front.length)
    (ended : parsed[next - 1]? = some 0) (found : ∀ tail readIndex, front.length ≤ readIndex →
      parseLine (front ++ tail) checkedIndex readIndex = some (.ok, parsed ++ tail, next))
  | bad (next : ℕ) (found : ∀ tail readIndex, front.length ≤ readIndex →
    parseLine (front ++ tail) checkedIndex readIndex = some (.bad, front ++ tail, next))
  | opened (next : ℕ) (notBefore : checkedIndex ≤ next) (inside : next ≤ front.length)
    (waits : ∀ tail, parseLine (front ++ tail) checkedIndex front.length =
      some (.opened, front ++ tail, next))
    (resumes : ∀ tail readIndex, front.length ≤ readIndex →
      parseLine (front ++ tail) checkedIndex readIndex = parseLine (front ++ tail) next readIndex)

variable {buffer : Buffer} {readIndex : ℕ}

theorem parseLine_succ (unread : checkedIndex < readIndex) :
    parseLine buffer checkedIndex readIndex =
      parseLineLoop readIndex (readIndex - (checkedIndex + 1) + 1) buffer checkedIndex := by
  rw [parseLine]
  congr 1
  omega

theorem put_put_front (inside : i + 1 < front.length) (tail : Buffer) :
    ((put (front ++ tail) i 0).bind fun buffer => put buffer (i + 1) 0) =
      some ((front.set i 0).set (i + 1) 0 ++ tail) := by
  have insideSet : i + 1 < (front.set i 0).length := by
    rw [length_set]
    exact inside
  rw [put_append 0 (lt_of_succ_lt inside), bind_some, put_append 0 insideSet]

theorem lineBreak_length (i : ℕ) :
    ((front.set i 0).set (i + 1) 0).length = front.length := length_set.trans length_set

theorem lineBreak_ends (inside : i + 1 < front.length) :
    ((front.set i 0).set (i + 1) 0)[i + 1]? = some 0 := by
  apply getElem?_set_self
  rw [length_set]
  exact inside

section Outcome

variable (before : checkedIndex < front.length)

include before

theorem outcome_return (isReturn : front[checkedIndex] = carriageReturn) :
    LineOutcome front checkedIndex := by
  have read := getElem?_front before
  by_cases isLast : checkedIndex + 1 = front.length
  · refine .opened checkedIndex (le_refl _) before.le ?_ fun _ _ _ => rfl
    intro tail
    rw [parseLine_succ before, parseLineLoop, read tail]
    simp [isReturn, isLast]
  · have nextBefore : checkedIndex + 1 < front.length := by omega
    have readNext := getElem?_front nextBefore
    by_cases isFeed : front[checkedIndex + 1] = lineFeed
    · refine .ok ((front.set checkedIndex 0).set (checkedIndex + 1) 0)
        (checkedIndex + 2) (lineBreak_length checkedIndex) (by omega)
        nextBefore (lineBreak_ends nextBefore) ?_
      intro tail readIndex received
      have notLast : ¬ (checkedIndex + 1 = readIndex) := by omega
      obtain ⟨buffer, putFirst, putSecond⟩ := bind_eq_some_iff.mp (put_put_front nextBefore tail)
      rw [parseLine_succ (before.trans_le received), parseLineLoop, read tail]
      simp [isReturn, notLast, readNext tail, isFeed, putFirst, putSecond]
    · refine .bad checkedIndex ?_
      intro tail readIndex received
      have notLast : ¬ (checkedIndex + 1 = readIndex) := by omega
      rw [parseLine_succ (before.trans_le received), parseLineLoop, read tail]
      simp [isReturn, notLast, readNext tail, isFeed]

theorem outcome_feed (isFeed : front[checkedIndex] = lineFeed) :
    LineOutcome front checkedIndex := by
  have read := getElem?_front before
  have notReturn : ¬ (lineFeed = carriageReturn) := by decide
  by_cases late : checkedIndex > 1
  · obtain ⟨previous, rfl⟩ : ∃ previous, checkedIndex = previous + 1 :=
      Nat.exists_eq_add_one_of_ne_zero (by omega)
    have readPrevious := getElem?_front (Nat.lt_of_succ_lt before)
    by_cases isReturn : front[previous] = carriageReturn
    · refine .ok ((front.set previous 0).set (previous + 1) 0) (previous + 2)
        (lineBreak_length previous) (by omega) before (lineBreak_ends before) ?_
      intro tail readIndex received
      obtain ⟨buffer, putFirst, putSecond⟩ := bind_eq_some_iff.mp (put_put_front before tail)
      rw [parseLine_succ (before.trans_le received), parseLineLoop, read tail]
      simp only [isFeed, notReturn, late, Nat.add_sub_cancel,
        readPrevious tail, isReturn, putFirst, putSecond, if_true, if_false,
        some_bind, Option.pure_def]
    · refine .bad (previous + 1) ?_
      intro tail readIndex received
      rw [parseLine_succ (before.trans_le received), parseLineLoop, read tail]
      simp only [isFeed, notReturn, late, Nat.add_sub_cancel,
        readPrevious tail, isReturn, if_true, if_false, some_bind, Option.pure_def]
  · refine .bad checkedIndex ?_
    intro tail readIndex received
    rw [parseLine_succ (before.trans_le received), parseLineLoop, read tail]
    simp only [isFeed, notReturn, late, if_true, if_false, some_bind, Option.pure_def]

theorem outcome_other (notReturn : front[checkedIndex] ≠ carriageReturn)
    (notFeed : front[checkedIndex] ≠ lineFeed) (outcome : LineOutcome front (checkedIndex + 1)) :
    LineOutcome front checkedIndex := by
  have skips : ∀ tail readIndex, front.length ≤ readIndex →
      parseLine (front ++ tail) checkedIndex readIndex =
        parseLine (front ++ tail) (checkedIndex + 1) readIndex := by
    intro tail readIndex received
    rw [parseLine_succ (before.trans_le received), parseLineLoop, getElem?_front before tail]
    simp only [notReturn, notFeed, if_false, some_bind]
    rfl
  cases outcome with
  | ok parsed next length progress inside ended found =>
    refine .ok parsed next length (lt_of_succ_lt progress) inside ended ?_
    intro tail readIndex received
    rw [skips tail readIndex received, found tail readIndex received]
  | bad next found =>
    refine .bad next ?_
    intro tail readIndex received
    rw [skips tail readIndex received, found tail readIndex received]
  | opened next notBefore inside waits resumes =>
    refine .opened next (le_of_succ_le notBefore) inside ?_ ?_
    · intro tail
      rw [skips tail _ (le_refl _), waits tail]
    · intro tail readIndex received
      rw [skips tail readIndex received, resumes tail readIndex received]

end Outcome

theorem parseLine_outcome (inside : checkedIndex ≤ front.length) :
    LineOutcome front checkedIndex := by
  induction left : front.length - checkedIndex generalizing checkedIndex with
  | zero =>
    refine .opened checkedIndex (le_refl _) inside ?_ fun _ _ _ => rfl
    intro tail
    rw [parseLine, left]
    rfl
  | succ left ih =>
    have before : checkedIndex < front.length := by omega
    by_cases isReturn : front[checkedIndex] = carriageReturn
    · exact outcome_return before isReturn
    · by_cases isFeed : front[checkedIndex] = lineFeed
      · exact outcome_feed before isFeed
      · exact outcome_other before isReturn isFeed (ih before (by omega))

/-! ## Parsing the complete lines -/

theorem parseLineLoop_progress {left next : ℕ} {parsed : Buffer}
    (found : parseLineLoop readIndex left buffer checkedIndex = some (.ok, parsed, next)) :
    0 < left ∧ checkedIndex < next := by
  induction left generalizing checkedIndex with
  | zero => cases found
  | succ left ih =>
    refine ⟨succ_pos left, ?_⟩
    simp only [parseLineLoop, bind_eq_bind, bind_eq_some_iff] at found
    obtain ⟨temp, -, found⟩ := found
    split at found
    · split at found
      · cases found
      · obtain ⟨next, -, found⟩ := bind_eq_some_iff.mp found
        split at found
        · obtain ⟨_, -, found⟩ := bind_eq_some_iff.mp found
          obtain ⟨_, -, found⟩ := bind_eq_some_iff.mp found
          cases found
          omega
        · cases found
    · split at found
      · split at found
        · obtain ⟨previous, -, found⟩ := bind_eq_some_iff.mp found
          split at found
          · obtain ⟨_, -, found⟩ := bind_eq_some_iff.mp found
            obtain ⟨_, -, found⟩ := bind_eq_some_iff.mp found
            cases found
            omega
          · cases found
        · cases found
      · have later := (ih found).2
        omega

variable {request : Request} {code : HttpCode}

theorem parseLineContent_keeps {after : Request}
    (parsed : parseLineContent request = some (code, after)) :
    after.readIndex = request.readIndex ∧ after.checkedIndex = request.checkedIndex := by
  rw [parseLineContent] at parsed
  split at parsed
  · obtain ⟨line, -, parsed⟩ := bind_eq_some_iff.mp parsed
    cases parsed
    exact ⟨rfl, rfl⟩
  · obtain ⟨line, -, parsed⟩ := bind_eq_some_iff.mp parsed
    cases parsed
    exact ⟨rfl, rfl⟩
  · cases parsed
    exact ⟨rfl, rfl⟩

theorem unread_lt {after : Request} {next : ℕ}
    (line : parseLine request.buffer request.checkedIndex request.readIndex =
      some (.ok, buffer, next)) (content : parseLineContent
      { request with buffer, checkedIndex := next } = some (code, after)) :
    after.readIndex - after.checkedIndex < request.readIndex - request.checkedIndex := by
  obtain ⟨unread, progress⟩ := parseLineLoop_progress line
  obtain ⟨sameRead, sameChecked⟩ := parseLineContent_keeps content
  have read : after.readIndex = request.readIndex := sameRead
  have checked : after.checkedIndex = next := sameChecked
  rw [read, checked]
  omega

theorem parseContentLoop_fuel {fuel more : ℕ}
    (enough : request.readIndex - request.checkedIndex < fuel)
    (alsoEnough : request.readIndex - request.checkedIndex < more) :
    parseContentLoop fuel request = parseContentLoop more request := by
  induction fuel generalizing request more with
  | zero => cases enough
  | succ fuel ih =>
    obtain ⟨more, rfl⟩ : ∃ smaller, more = smaller + 1 :=
      exists_eq_add_one_of_ne_zero (ne_zero_of_lt alsoEnough)
    rw [parseContentLoop, parseContentLoop]
    cases line : parseLine request.buffer request.checkedIndex request.readIndex with
    | none => rfl
    | some found =>
      obtain ⟨status, buffer, next⟩ := found
      cases status with
      | opened | bad => rfl
      | ok =>
        simp only [bind_eq_bind, bind_some]
        cases content : parseLineContent { request with buffer, checkedIndex := next } with
        | none => rfl
        | some result =>
          obtain ⟨code, after⟩ := result
          have shorter := unread_lt line content
          simp only [bind_some]
          split
          · exact ih (by omega) (by omega)
          · rfl

theorem parseContent_eq (request : Request) :
    parseContent request = (parseLine request.buffer request.checkedIndex
          request.readIndex).bind fun (status, buffer, checkedIndex) =>
        match status with
        | .ok =>
          (parseLineContent { request with buffer, checkedIndex }).bind fun (code, after) =>
            if code = .noRequest then parseContent after
            else some (code, after)
        | .opened => some (.noRequest, { request with buffer, checkedIndex })
        | .bad => some (.badRequest, { request with buffer, checkedIndex }) := by
  rw [parseContent, parseContentLoop]
  cases line : parseLine request.buffer request.checkedIndex request.readIndex with
  | none => rfl
  | some found =>
    obtain ⟨status, buffer, next⟩ := found
    cases status with
    | opened | bad => rfl
    | ok =>
      simp only [bind_eq_bind, bind_some]
      cases content : parseLineContent { request with buffer, checkedIndex := next } with
      | none => rfl
      | some result =>
        obtain ⟨code, after⟩ := result
        simp only [bind_some]
        split
        · exact parseContentLoop_fuel (unread_lt line content) (lt_succ_self _)
        · rfl

/-- What `parse_content` decides about the front of a buffer, and how it
goes on when more has been received. -/
inductive ContentOutcome (front : Buffer) (checkedIndex startLine : ℕ)
    (checkstate : CheckState) : Prop
  | final (code : HttpCode) (isFinal : code ≠ .noRequest)
    (decided : ∀ tail readIndex, front.length ≤ readIndex →
      ∃ after, parseContent ⟨front ++ tail, readIndex, checkedIndex,
        startLine, checkstate⟩ = some (code, after))
  | more (parsed : Buffer) (next line : ℕ) (state : CheckState)
    (length : parsed.length = front.length) (inside : next ≤ front.length)
    (notAfter : line ≤ next) (waits : ∀ tail,
      parseContent ⟨front ++ tail, front.length, checkedIndex, startLine, checkstate⟩ =
        some (.noRequest, ⟨parsed ++ tail, front.length, next, line, state⟩))
    (resumes : ∀ tail readIndex, front.length ≤ readIndex →
      parseContent ⟨front ++ tail, readIndex, checkedIndex, startLine, checkstate⟩ =
        parseContent ⟨parsed ++ tail, readIndex, next, line, state⟩)

theorem parseContent_outcome {startLine : ℕ} (checkstate : CheckState)
    (inside : checkedIndex ≤ front.length) (notAfter : startLine ≤ checkedIndex) :
    ContentOutcome front checkedIndex startLine checkstate := by
  induction isUnread : front.length - checkedIndex using Nat.strongRecOn
    generalizing front checkedIndex startLine checkstate with
  | ind unread ih =>
    cases parseLine_outcome inside with
    | bad next found =>
      refine .final .badRequest (by decide) ?_
      intro tail readIndex received
      rw [parseContent_eq]
      simp only [found tail readIndex received, bind_some]
      exact ⟨_, rfl⟩
    | opened next notBefore insideNext waits resumes =>
      refine .more front next startLine checkstate rfl insideNext (notAfter.trans notBefore) ?_ ?_
      · intro tail
        rw [parseContent_eq]
        simp only [waits tail, bind_some]
      · intro tail readIndex received
        rw [parseContent_eq, parseContent_eq]
        simp only [resumes tail readIndex received]
    | ok parsed next length progress insideNext ended found =>
      have ends : Terminated parsed startLine := terminated_of_getElem? ended (by omega)
      obtain ⟨code, parsedLine, state, lineLength, content⟩ :=
        parseLineContent_front next checkstate ends
      by_cases goesOn : code = .noRequest
      · subst goesOn
        have sameLength : parsedLine.length = front.length := lineLength.trans length
        have shorter : parsedLine.length - next < unread := by omega
        have continues : ∀ tail readIndex, front.length ≤ readIndex →
            parseContent ⟨front ++ tail, readIndex, checkedIndex, startLine, checkstate⟩ =
              parseContent ⟨parsedLine ++ tail, readIndex, next, next, state⟩ := by
          intro tail readIndex received
          rw [parseContent_eq]
          simp only [found tail readIndex received, bind_some, content tail readIndex, if_true]
        have insideLine : next ≤ parsedLine.length := by omega
        cases ih (parsedLine.length - next) shorter state insideLine (le_refl next) rfl with
        | final code isFinal decided =>
          refine .final code isFinal ?_
          intro tail readIndex received
          rw [continues tail readIndex received]
          exact decided tail readIndex (by omega)
        | more rest restNext line restState restLength restInside restNotAfter waits resumes =>
          rw [sameLength] at restLength restInside waits resumes
          refine .more rest restNext line restState restLength restInside restNotAfter ?_ ?_
          · intro tail
            rw [continues tail _ (le_refl _), waits tail]
          · intro tail readIndex received
            rw [continues tail readIndex received, resumes tail readIndex received]
      · refine .final code goesOn ?_
        intro tail readIndex received
        rw [parseContent_eq]
        simp only [found tail readIndex received, bind_some, content tail readIndex, if_neg goesOn]
        exact ⟨_, rfl⟩

/-! ## Receiving -/

section Receiving

variable {startLine : ℕ} {tail chunk : Buffer}

theorem receive_eq (fits : chunk.length ≤ BUFFER_SIZE - front.length) :
    receive ⟨front ++ tail, front.length, checkedIndex, startLine, checkstate⟩ chunk =
      some ⟨(front ++ chunk) ++ tail.drop chunk.length,
        (front ++ chunk).length, checkedIndex, startLine, checkstate⟩ := by
  rw [receive, if_pos fits, length_append]
  simp only [take_left, drop_length_add_append]

/-- The code for a stream that arrives in one piece. -/
def driveWhole (request : Request) (stream : List UInt8) : Option HttpCode :=
  drive request (if stream = [] then [] else [stream])

theorem driveWhole_of_ne_nil {received : Request} {stream : List UInt8} (nonempty : stream ≠ [])
    (isReceived : receive request stream = some received) :
    driveWhole request stream = (parseContent received).map Prod.fst := by
  rw [driveWhole, if_neg nonempty, drive, isReceived]
  simp only [bind_eq_bind, bind_some]
  cases parsed : parseContent received with
  | none => rfl
  | some result =>
    obtain ⟨code, after⟩ := result
    simp only [bind_some]
    split
    · rename_i goesOn
      rw [goesOn]
      rfl
    · rfl

/-- A stream that arrives in pieces gives the same code as in one piece. -/
theorem drive_eq_driveWhole (tail : Buffer) (checkstate : CheckState)
    {chunks : List (List UInt8)} (inside : checkedIndex ≤ front.length)
    (notAfter : startLine ≤ checkedIndex) (nonempty : ∀ chunk ∈ chunks, chunk ≠ [])
    (fits : front.length + chunks.flatten.length ≤ BUFFER_SIZE) :
    ∃ code, drive ⟨front ++ tail, front.length, checkedIndex, startLine,
          checkstate⟩ chunks = some code ∧
        driveWhole ⟨front ++ tail, front.length, checkedIndex, startLine,
          checkstate⟩ chunks.flatten = some code := by
  induction chunks generalizing front tail checkedIndex startLine checkstate with
  | nil => exact ⟨.noRequest, rfl, rfl⟩
  | cons chunk rest ih =>
    rw [flatten_cons, length_append] at fits
    have chunkNonempty := nonempty chunk mem_cons_self
    have bothNonempty : chunk ++ rest.flatten ≠ [] := by simp [chunkNonempty]
    have fitsChunk : chunk.length ≤ BUFFER_SIZE - front.length := by omega
    have fitsBoth : (chunk ++ rest.flatten).length ≤ BUFFER_SIZE - front.length := by
      rw [length_append]
      omega
    rw [flatten_cons, driveWhole_of_ne_nil bothNonempty (receive_eq fitsBoth), drive,
      receive_eq fitsChunk]
    have insideChunk : checkedIndex ≤ (front ++ chunk).length := by
      rw [length_append]
      omega
    have regroup : ∀ back, (front ++ (chunk ++ rest.flatten)) ++ back =
        (front ++ chunk) ++ (rest.flatten ++ back) := by
      intro back
      simp only [append_assoc]
    have sameRead : (front ++ (chunk ++ rest.flatten)).length =
        (front ++ chunk).length + rest.flatten.length := by
      simp only [length_append, add_assoc]
    simp only [bind_eq_bind, bind_some]
    cases parseContent_outcome checkstate insideChunk notAfter with
    | final code isFinal decided =>
      obtain ⟨after, parsedChunk⟩ := decided (tail.drop chunk.length) _ (le_refl _)
      obtain ⟨afterBoth, parsedBoth⟩ :=
        decided (rest.flatten ++ tail.drop (chunk ++ rest.flatten).length)
          (front ++ (chunk ++ rest.flatten)).length (by omega)
      refine ⟨code, ?_, ?_⟩
      · simp only [parsedChunk, bind_some, if_neg isFinal]
        rfl
      · rw [regroup, parsedBoth]
        rfl
    | more parsed next line state length insideNext notAfterNext waits resumes =>
      rw [← length] at insideNext
      have fitsRest : parsed.length + rest.flatten.length ≤ BUFFER_SIZE := by
        rw [length, length_append]
        omega
      obtain ⟨code, droveRest, droveWhole⟩ :=
        ih (tail.drop chunk.length) state insideNext notAfterNext (forall_mem_cons.mp nonempty).2
          fitsRest
      refine ⟨code, ?_, ?_⟩
      · rw [waits, ← length]
        exact droveRest
      · by_cases isLast : rest.flatten = []
        · rw [isLast] at droveWhole ⊢
          cases droveWhole
          simp only [append_nil, waits]
          rfl
        · have fitsTail : rest.flatten.length ≤ BUFFER_SIZE - parsed.length := by omega
          rw [driveWhole_of_ne_nil isLast (receive_eq fitsTail),
            append_assoc, drop_drop, length_append] at droveWhole
          rw [regroup, resumes _ _ (by omega), sameRead, ← length, length_append]
          exact droveWhole

end Receiving

/-- Any two ways of cutting a stream into pieces give the same code. -/
theorem drive_independent_of_cuts (first second : List (List UInt8))
    (sameStream : first.flatten = second.flatten) (fits : first.flatten.length ≤ BUFFER_SIZE)
    (firstNonempty : ∀ chunk ∈ first, chunk ≠ []) (secondNonempty : ∀ chunk ∈ second, chunk ≠ []) :
    ∃ code, drive start first = some code ∧ drive start second = some code := by
  have fitsFirst : ([] : Buffer).length + first.flatten.length ≤ BUFFER_SIZE := by
    rw [length_nil, zero_add]
    exact fits
  obtain ⟨code, droveFirst, wholeFirst⟩ :=
    drive_eq_driveWhole (replicate BUFFER_SIZE 0) .requestline
      (le_refl 0) (le_refl 0) firstNonempty fitsFirst
  rw [sameStream] at fitsFirst wholeFirst
  obtain ⟨secondCode, droveSecond, wholeSecond⟩ :=
    drive_eq_driveWhole (replicate BUFFER_SIZE 0) .requestline
      (le_refl 0) (le_refl 0) secondNonempty fitsFirst
  have sameCode : code = secondCode := some.inj (wholeFirst.symm.trans wholeSecond)
  refine ⟨code, droveFirst, ?_⟩
  rw [sameCode]
  exact droveSecond

/-- `GET / HTTP/1.1` and an empty line, in one piece and cut inside both line
breaks. -/
theorem drive_independent_of_cuts_getRequest :
    drive start [[71, 69, 84, 32, 47, 32, 72, 84, 84, 80, 47, 49, 46, 49, 13, 10, 13,
        10]] = some .getRequest ∧
      drive start [[71, 69, 84, 32, 47, 32, 72, 84, 84, 80, 47, 49, 46, 49, 13],
        [10, 13], [10]] = some .getRequest := by
  obtain ⟨code, whole, cut⟩ := drive_independent_of_cuts
    [[71, 69, 84, 32, 47, 32, 72, 84, 84, 80, 47, 49, 46, 49, 13, 10, 13, 10]]
    [[71, 69, 84, 32, 47, 32, 72, 84, 84, 80, 47, 49, 46, 49, 13], [10, 13], [10]]
    (by decide) (by decide) (by decide) (by decide)
  have accepted : drive start [[71, 69, 84, 32, 47, 32, 72, 84, 84, 80, 47, 49, 46, 49, 13, 10, 13,
      10]] = some .getRequest := by
    decide +kernel
  have isGet : code = .getRequest := some.inj (whole.symm.trans accepted)
  rw [isGet] at whole cut
  exact ⟨whole, cut⟩

end Skyc.Socket.HttpParser
