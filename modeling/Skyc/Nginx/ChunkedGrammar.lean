import Skyc.Nginx.Chunked

/-!
# What a chunked encoding is

The grammar of a chunked body, and that the bytes which the parser has consumed
when it is done are a sentence of it.
-/

namespace Skyc.Nginx.Chunked

open List

/-! ## The grammar -/

/-- The end of a line: `CR LF` or `LF`. -/
inductive LineEnd : List Byte → Prop
  | lf : LineEnd [LF]
  | crlf : LineEnd [CR, LF]

def Plain (text : List Byte) : Prop :=
  ∀ b ∈ text, b ≠ CR ∧ b ≠ LF

def IsHex (b : Byte) (digit : ℕ) : Prop :=
  digit < 10 ∧ b = 0x30 + BitVec.ofNat 8 digit ∨
    10 ≤ digit ∧ digit < 16 ∧ (b = 0x61 + BitVec.ofNat 8 (digit - 10) ∨
      b = 0x41 + BitVec.ofNat 8 (digit - 10))

instance (b : Byte) (digit : ℕ) : Decidable (IsHex b digit) :=
  inferInstanceAs (Decidable (_ ∨ _))

/-- Digits that make the second number of the first one. -/
inductive Digits : ℕ → List Byte → ℕ → Prop
  | nil (number : ℕ) : Digits number [] number
  | cons {number digit result : ℕ} {b : Byte} {rest : List Byte}
    (isHex : IsHex b digit) (later : Digits (number * 16 + digit) rest result) :
    Digits number (b :: rest) result

def Size (digits : List Byte) (number : ℕ) : Prop :=
  digits ≠ [] ∧ Digits 0 digits number

/-- What may follow the size of a chunk in its line. -/
def Extension (text : List Byte) : Prop :=
  text = [] ∨ ∃ first rest, startsExtension first ∧ Plain rest ∧ text = first :: rest

inductive Trailers : List Byte → Prop
  | nil : Trailers []
  | cons {line lineEnd rest : List Byte} (notEmpty : line ≠ [])
    (plain : Plain line) (isEnd : LineEnd lineEnd) (later : Trailers rest) :
    Trailers (line ++ (lineEnd ++ rest))

inductive Encoding : List Byte → List Byte → Prop
  | last {digits extension lineEnd lines final : List Byte}
    (size : Size digits 0) (isExtension : Extension extension)
    (isEnd : LineEnd lineEnd) (trailers : Trailers lines) (isFinal : LineEnd final) :
    Encoding (digits ++ (extension ++ (lineEnd ++ (lines ++ final)))) []
  | chunk {digits extension lineEnd data dataEnd rest body : List Byte}
    (size : Size digits data.length) (notEmpty : data ≠ [])
    (isExtension : Extension extension) (isEnd : LineEnd lineEnd)
    (isDataEnd : LineEnd dataEnd) (later : Encoding rest body) : Encoding
      (digits ++ (extension ++ (lineEnd ++ (data ++ (dataEnd ++ rest))))) (data ++ body)

/-! ## What may follow -/

/-- Sentences of a part of the grammar, with their bodies. -/
abbrev Language := List Byte → List Byte → Prop

variable {language : Language} {ch : Byte} {rest bytes body : List Byte}

def Data (size : ℕ) : Language := fun bytes body =>
  ∃ data dataEnd rest more, data.length = size ∧ LineEnd dataEnd ∧
    Encoding rest more ∧ bytes = data ++ (dataEnd ++ rest) ∧ body = data ++ more

def Trailer : Language := fun bytes body =>
  ∃ lines final, Trailers lines ∧ LineEnd final ∧ bytes = lines ++ final ∧ body = []

def Tail (size : ℕ) : Language :=
  if size = 0 then Trailer else Data size

/-- The `LF` of a line that ends with `CR LF`. -/
def AfterLf (language : Language) : Language := fun bytes body =>
  ∃ rest, language rest body ∧ bytes = LF :: rest

def AfterEnd (language : Language) : Language := fun bytes body =>
  ∃ lineEnd rest, LineEnd lineEnd ∧ language rest body ∧ bytes = lineEnd ++ rest

def AfterLine (language : Language) : Language := fun bytes body =>
  ∃ text rest, Plain text ∧ AfterEnd language rest body ∧ bytes = text ++ rest

theorem afterEnd_cr (later : AfterLf language rest body) : AfterEnd language (CR :: rest) body := by
  obtain ⟨following, isSentence, isRest⟩ := later
  exact ⟨[CR, LF], following, LineEnd.crlf, isSentence, by rw [isRest]; rfl⟩

theorem afterEnd_lf (later : language rest body) :
    AfterEnd language (LF :: rest) body := ⟨[LF], rest, LineEnd.lf, later, rfl⟩

theorem afterLine_end (later : AfterEnd language bytes body) : AfterLine language bytes body := by
  refine ⟨[], bytes, ?_, later, rfl⟩
  exact nofun

theorem afterLine_cons (notCr : ch ≠ CR) (notLf : ch ≠ LF) (later : AfterLine language rest body) :
    AfterLine language (ch :: rest) body := by
  obtain ⟨text, following, plain, isEnd, isRest⟩ := later
  refine ⟨ch :: text, following, ?_, isEnd, by rw [isRest]; rfl⟩
  exact forall_mem_cons.mpr ⟨⟨notCr, notLf⟩, plain⟩

/-- What may follow the size of a chunk in its line, and the end of the line. -/
def AfterSize (language : Language) : Language := fun bytes body =>
  ∃ extension rest, Extension extension ∧ AfterEnd language rest body ∧ bytes = extension ++ rest

theorem afterSize_end (later : AfterEnd language bytes body) :
    AfterSize language bytes body := ⟨[], bytes, Or.inl rfl, later, rfl⟩

theorem afterSize_line (starts : startsExtension ch) (later : AfterLine language rest body) :
    AfterSize language (ch :: rest) body := by
  obtain ⟨text, following, plain, isEnd, isRest⟩ := later
  exact ⟨ch :: text, following, Or.inr ⟨ch, text, starts, plain, rfl⟩, isEnd, by rw [isRest]; rfl⟩

/-- The digits of a size that go on from a number, and what follows them. -/
def AfterDigits (number : ℕ) : Language := fun bytes body =>
  ∃ digits rest result, Digits number digits result ∧
    AfterSize (Tail result) rest body ∧ bytes = digits ++ rest

/-- What may follow in a state. -/
def Remains : State → ℕ → Language
  | .chunkStart, _ => Encoding
  | .chunkSize, size => AfterDigits size
  | .chunkExtension, size => AfterLine (Data size)
  | .chunkExtensionAlmostDone, size => AfterLf (Data size)
  | .chunkData, size => Data size
  | .afterData, _ => AfterEnd Encoding
  | .afterDataAlmostDone, _ => AfterLf Encoding
  | .lastChunkExtension, _ => AfterLine Trailer
  | .lastChunkExtensionAlmostDone, _ => AfterLf Trailer
  | .trailer, _ => Trailer
  | .trailerAlmostDone, _ => fun bytes body => bytes = [LF] ∧ body = []
  | .trailerHeader, _ => AfterLine Trailer
  | .trailerHeaderAlmostDone, _ => AfterLf Trailer

/-! ## Single bytes -/

theorem isHex_of_hexDigit : ∀ (ch : Byte), ∀ digit ∈ hexDigit ch, IsHex ch digit := by
  decide +kernel

theorem encoding_cons {digit : ℕ} (isHex : IsHex ch digit)
    (later : AfterDigits digit rest body) : Encoding (ch :: rest) body := by
  obtain ⟨digits, following, result, isDigits, afterSize, isRest⟩ := later
  obtain ⟨extension, afterExtension, isExtension, afterEnd, isFollowing⟩ := afterSize
  obtain ⟨lineEnd, tail, isEnd, isTail, isAfter⟩ := afterEnd
  have size : Size (ch :: digits) result := by
    refine ⟨cons_ne_nil ch digits, Digits.cons isHex ?_⟩
    rw [zero_mul, zero_add]
    exact isDigits
  rw [isRest, isFollowing, isAfter, ← cons_append]
  rw [Tail] at isTail
  by_cases isZero : result = 0
  · rw [if_pos isZero] at isTail
    obtain ⟨lines, final, trailers, isFinal, isBytes, isBody⟩ := isTail
    rw [isBytes, isBody]
    rw [isZero] at size
    exact Encoding.last size isExtension isEnd trailers isFinal
  · rw [if_neg isZero] at isTail
    obtain ⟨data, dataEnd, others, more, isLength, isDataEnd, isEncoding, isBytes, isBody⟩ := isTail
    rw [isBytes, isBody]
    rw [← isLength] at size isZero
    refine Encoding.chunk size ?_ isExtension isEnd isDataEnd isEncoding
    intro isNil
    rw [isNil] at isZero
    exact isZero rfl

variable {size : ℕ}

theorem data_cons (later : Data size rest body) : Data (size + 1) (ch :: rest) (ch :: body) := by
  obtain ⟨data, dataEnd, others, more, isLength, isDataEnd, isEncoding, isBytes, isBody⟩ := later
  exact ⟨ch :: data, dataEnd, others, more, by rw [length_cons, isLength],
    isDataEnd, isEncoding, by rw [isBytes]; rfl, by rw [isBody]; rfl⟩

theorem trailer_line (notCr : ch ≠ CR) (notLf : ch ≠ LF)
    (later : AfterLine Trailer rest body) : Trailer (ch :: rest) body := by
  obtain ⟨text, following, plain, ⟨lineEnd, tail, isEnd, isTail, isAfter⟩, isRest⟩ := later
  obtain ⟨lines, final, trailers, isFinal, isBytes, isBody⟩ := isTail
  have plainLine : Plain (ch :: text) := by
    exact forall_mem_cons.mpr ⟨⟨notCr, notLf⟩, plain⟩
  refine ⟨(ch :: text) ++ (lineEnd ++ lines), final,
    Trailers.cons (cons_ne_nil ch text) plainLine isEnd trailers, isFinal, ?_, isBody⟩
  rw [isRest, isAfter, isBytes]
  simp

variable {state : State}

theorem remains_entry (remains : Remains (entry state size) size bytes body) :
    Remains state size bytes body := by
  rw [entry] at remains
  by_cases isEntry : state = .chunkData ∧ size = 0
  · rw [if_pos isEntry] at remains
    obtain ⟨isData, isZero⟩ := isEntry
    subst isData
    subst isZero
    obtain ⟨lineEnd, rest, isEnd, isEncoding, isBytes⟩ := remains
    exact ⟨[], lineEnd, rest, body, rfl, isEnd, isEncoding, isBytes, rfl⟩
  · rw [if_neg isEntry] at remains
    exact remains

theorem remains_done (isDone : step state size ch = .done) : Remains state size [ch] [] := by
  cases state with
  | trailer =>
    simp only [step] at isDone
    split at isDone
    · cases isDone
    · split at isDone
      · rename_i isLf
        rw [isLf]
        exact ⟨[], [LF], Trailers.nil, LineEnd.lf, rfl, rfl⟩
      · cases isDone
  | trailerAlmostDone =>
    simp only [step] at isDone
    split at isDone
    · rename_i isLf
      rw [isLf]
      exact ⟨rfl, rfl⟩
    · cases isDone
  | chunkData => cases isDone
  | _ =>
    simp only [step] at isDone
    repeat' split at isDone
    all_goals cases isDone

variable {next following : State} {nextSize : ℕ}

section

variable (remains : Remains next nextSize rest body)
  (isFollowing : Remains following size = language)

include remains isFollowing

/-- A line that goes on, ends with this byte, or will end with the next one. -/
theorem afterLine_step {almostDone : State} (isNext : (if ch = CR then Move.next almostDone size
      else if ch = LF then Move.next following size
      else Move.next state size) = Move.next next nextSize)
    (isAlmost : Remains almostDone size = AfterLf language)
    (isState : Remains state size = AfterLine language) :
    AfterLine language (ch :: rest) body := by
  split at isNext
  · rename_i isCr
    cases isNext
    rw [isCr]
    rw [isAlmost] at remains
    exact afterLine_end (afterEnd_cr remains)
  · rename_i notCr
    split at isNext
    · rename_i isLf
      cases isNext
      rw [isLf]
      rw [isFollowing] at remains
      exact afterLine_end (afterEnd_lf remains)
    · rename_i notLf
      cases isNext
      rw [isState] at remains
      exact afterLine_cons notCr notLf remains

theorem afterLf_step (isNext : (if ch = LF then Move.next following size else Move.invalid) =
      Move.next next nextSize) :
    AfterLf language (ch :: rest) body := by
  split at isNext
  · rename_i isLf
    cases isNext
    rw [isLf]
    rw [isFollowing] at remains
    exact ⟨rest, remains, rfl⟩
  · cases isNext

theorem afterSize_step {almostDone extension : State}
    (isNext : (if ch = CR then Move.next almostDone size
      else if ch = LF then Move.next following size
      else if startsExtension ch then Move.next extension size
      else Move.invalid) = Move.next next nextSize)
    (isAlmost : Remains almostDone size = AfterLf language)
    (isExtension : Remains extension size = AfterLine language) :
    AfterSize language (ch :: rest) body := by
  split at isNext
  · rename_i isCr
    cases isNext
    rw [isCr]
    rw [isAlmost] at remains
    exact afterSize_end (afterEnd_cr remains)
  · split at isNext
    · rename_i isLf
      cases isNext
      rw [isLf]
      rw [isFollowing] at remains
      exact afterSize_end (afterEnd_lf remains)
    · split at isNext
      · rename_i starts
        cases isNext
        rw [isExtension] at remains
        exact afterSize_line starts remains
      · cases isNext

end

theorem afterDigits_step (isNext : step .chunkSize size ch = .next next nextSize)
    (remains : Remains next nextSize rest body) : AfterDigits size (ch :: rest) body := by
  simp only [step] at isNext
  split at isNext
  · cases isNext
  · split at isNext
    · rename_i digit isDigit
      cases isNext
      obtain ⟨digits, following, result, isDigits, afterSize, isRest⟩ := remains
      have isHex := isHex_of_hexDigit ch digit isDigit
      exact ⟨ch :: digits, following, result, Digits.cons isHex isDigits,
        afterSize, by rw [isRest]; rfl⟩
    · refine ⟨[], ch :: rest, size, Digits.nil size, ?_, rfl⟩
      rw [Tail]
      by_cases isZero : size = 0
      · rw [if_pos isZero] at isNext ⊢
        exact afterSize_step remains rfl isNext rfl rfl
      · rw [if_neg isZero] at isNext ⊢
        exact afterSize_step remains rfl isNext rfl rfl

/-- A byte from one state to another is the first of what may follow in the
former. -/
theorem remains_step (isNext : step state size ch = .next next nextSize)
    (remains : Remains next nextSize rest body) : Remains state size (ch :: rest) body := by
  cases state with
  | chunkStart =>
    simp only [step] at isNext
    split at isNext
    · rename_i isDigit
      cases isNext
      exact encoding_cons (isHex_of_hexDigit ch _ isDigit) remains
    · cases isNext
  | chunkSize => exact afterDigits_step isNext remains
  | chunkExtension =>
    exact afterLine_step remains rfl isNext rfl rfl
  | chunkExtensionAlmostDone =>
    exact afterLf_step remains rfl isNext
  | chunkData => cases isNext
  | afterData =>
    simp only [step] at isNext
    split at isNext
    · rename_i isCr
      cases isNext
      rw [isCr]
      exact afterEnd_cr remains
    · split at isNext
      · rename_i isLf
        cases isNext
        rw [isLf]
        exact afterEnd_lf remains
      · cases isNext
  | afterDataAlmostDone =>
    exact afterLf_step remains rfl isNext
  | lastChunkExtension =>
    exact afterLine_step remains rfl isNext rfl rfl
  | lastChunkExtensionAlmostDone | trailerHeaderAlmostDone =>
    exact afterLf_step remains rfl isNext
  | trailer =>
    simp only [step] at isNext
    split at isNext
    · rename_i isCr
      cases isNext
      obtain ⟨isRest, isBody⟩ := remains
      rw [isCr, isRest, isBody]
      exact ⟨[], [CR, LF], Trailers.nil, LineEnd.crlf, rfl, rfl⟩
    · rename_i notCr
      split at isNext
      · cases isNext
      · rename_i notLf
        cases isNext
        exact trailer_line notCr notLf remains
  | trailerAlmostDone =>
    simp only [step] at isNext
    split at isNext
    · cases isNext
    · cases isNext
  | trailerHeader =>
    exact afterLine_step remains rfl isNext rfl rfl

/-! ## Streams -/

theorem drive_remains {stream : List Byte} (isDone : (drive state size stream).verdict = .done) :
    Remains state size (stream.take (drive state size stream).consumed)
      (drive state size stream).body := by
  induction stream generalizing state size with
  | nil =>
    rw [drive] at isDone
    split_ifs at isDone
  | cons ch rest ih =>
    rw [drive] at isDone ⊢
    by_cases isData : state = .chunkData ∧ size ≠ 0
    · rw [if_pos isData] at isDone ⊢
      obtain ⟨isState, notZero⟩ := isData
      subst isState
      have later : Data _ (ch :: _) (ch :: _) := data_cons (ih isDone)
      rw [Nat.sub_add_cancel (Nat.pos_of_ne_zero notZero)] at later
      change Data size ((ch :: rest).take (1 + _)) _
      rw [add_comm, take_succ_cons]
      exact later
    · rw [if_neg isData] at isDone ⊢
      apply remains_entry
      cases isStep : step (entry state size) size ch with
      | next nextState nextSize =>
        rw [isStep] at isDone
        have later := ih isDone
        change Remains _ _ ((ch :: rest).take (1 + _)) _
        rw [add_comm, take_succ_cons]
        exact remains_step isStep later
      | data | invalid =>
        rw [isStep] at isDone
        cases isDone
      | done => exact remains_done isStep

/-- However a stream is cut into buffers, the verdict, the body and, when it is
done, the number of bytes that were consumed are the same; and these bytes are
then a chunked encoding of the body. -/
theorem feed_cut (first second : List (List Byte)) (sameStream : first.flatten = second.flatten) :
    ∃ reading other, feed zeroed first = some reading ∧
      feed zeroed second = some other ∧ reading.verdict = other.verdict ∧
      reading.body = other.body ∧
      (reading.verdict = .done → reading.consumed = other.consumed ∧
        Encoding (first.flatten.take reading.consumed) reading.body) := by
  have reachable := Reached.start.reachable
  have small : zeroed.size ≤ maxOff - 5 := Nat.zero_le _
  obtain ⟨reading, isReading, verdict, body, consumed⟩ := feed_eq_drive reachable small first
  obtain ⟨other, isOther, otherVerdict, otherBody, otherConsumed⟩ :=
    feed_eq_drive reachable small second
  rw [← sameStream] at otherVerdict otherBody otherConsumed
  refine ⟨reading, other, isReading, isOther, verdict.trans otherVerdict.symm,
    body.trans otherBody.symm, ?_⟩
  intro isDone
  have otherDone : other.verdict = .done := by
    rw [otherVerdict, ← verdict]
    exact isDone
  refine ⟨(consumed isDone).trans (otherConsumed otherDone).symm, ?_⟩
  rw [consumed isDone, body]
  have streamDone : (drive zeroed.state zeroed.size first.flatten).verdict = .done := by
    rw [← verdict]
    exact isDone
  exact drive_remains streamDone

theorem feed_cut_oneChunk :
    ∃ reading other, feed zeroed [[0x31, 0x0a, 0x78, 0x0a, 0x30, 0x0a, 0x0a]] = some reading ∧
      feed zeroed [[0x31, 0x0a], [0x78], [0x0a, 0x30, 0x0a, 0x0a]] = some other ∧
      reading.verdict = other.verdict ∧ reading.body = other.body := by
  obtain ⟨reading, other, isReading, isOther, verdict, body, _⟩ :=
    feed_cut [[0x31, 0x0a, 0x78, 0x0a, 0x30, 0x0a, 0x0a]]
      [[0x31, 0x0a], [0x78], [0x0a, 0x30, 0x0a, 0x0a]] rfl
  exact ⟨reading, other, isReading, isOther, verdict, body⟩

example : feed zeroed [[0x31, 0x0a], [0x78], [0x0a, 0x30, 0x0a, 0x0a]] =
    some ⟨.done, [0x78], 7⟩ := by
  decide +kernel

end Skyc.Nginx.Chunked
