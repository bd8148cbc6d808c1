import Skyc.Lib.Zipper
import Skyc.Linenoise.Refresh

/-!
# The line editor refines a zipper

A buffer shows a zipper when the text before the cursor stands at its start,
the text after the cursor follows, and a zero byte closes the line.
-/

namespace Skyc.Linenoise

open Skyc.Lib List Nat Option KeyAction
open Skyc.Lib.CBuffer

/-- The texts `buf[0..pos)` and `buf[pos..len)`. -/
def LinenoiseState.zipper (l : LinenoiseState) : Zipper UInt8 :=
  ⟨l.buf.take l.pos, (l.buf.drop l.pos).take (l.len - l.pos)⟩

/-- The buffer of a state holds a line that has a place in the frame. -/
structure Shows (frame : Frame) (l : LinenoiseState) (line : Zipper UInt8) : Prop where
  isFrame : ⟨l.buflen, l.plen, l.cols⟩ = frame
  inside : frame.capacity < l.buf.length
  fits : line.length ≤ frame.capacity
  pos : l.pos = line.before.length
  len : l.len = line.length
  text : ∃ rest, l.buf = line.before ++ (line.after ++ 0 :: rest)

/-- A result is a state that shows the edited line. -/
def Performs (frame : Frame) (line : Zipper UInt8) (edit : Edit UInt8)
    (result : Option LinenoiseState) : Prop :=
  ∃ l, result = some l ∧ Shows frame l (line.edit isBlank frame.capacity edit)

variable {frame : Frame} {l : LinenoiseState} {line : Zipper UInt8} {env : Environment}
  {edit : Edit UInt8}

section

variable (shows : Shows frame l line)
include shows

theorem Shows.buflen : l.buflen = frame.capacity :=
  congrArg Frame.capacity shows.isFrame

theorem Shows.zipper_eq : l.zipper = line := by
  obtain ⟨rest, text⟩ := shows.text
  have afterLength : l.len - l.pos = line.after.length := by
    rw [shows.len, shows.pos, Zipper.length]
    omega
  rw [LinenoiseState.zipper, afterLength, text, shows.pos, take_left, drop_left, take_left]

theorem Shows.terminated : l.buf[l.len]? = some 0 := by
  obtain ⟨rest, text⟩ := shows.text
  have lineLength : l.len = (line.before ++ line.after).length := by
    rw [shows.len, Zipper.length, length_append]
  rw [text, lineLength, ← append_assoc]
  simp

theorem Shows.rewrite (newLine : Zipper UInt8) (rest : Buffer) {pos len : ℕ} (sameLength :
      (newLine.before ++ (newLine.after ++ 0 :: rest)).length = l.buf.length)
    (fits : newLine.length ≤ frame.capacity) (position : pos = newLine.before.length)
    (lineLength : len = newLine.length) :
    Shows frame { l with
      buf := newLine.before ++ (newLine.after ++ 0 :: rest)
      pos := pos
      len := len } newLine where
  __ := shows
  inside := sameLength ▸ shows.inside
  fits := fits
  pos := position
  len := lineLength
  text := ⟨rest, rfl⟩

theorem Shows.refreshLine_eq (draws : env.Draws frame) :
    refreshLine env l = some l := by
  have fits := shows.fits
  have inside := shows.inside
  have buflen := shows.buflen
  have lineLength := shows.len
  apply Linenoise.refreshLine_eq
  · rw [shows.isFrame]
    exact draws
  · rw [shows.pos, lineLength, Zipper.length]
    omega
  · omega
  · omega

end

theorem Performs.ofRefresh (draws : env.Draws frame)
    (shows : Shows frame l (line.edit isBlank frame.capacity edit)) :
    Performs frame line edit (refreshLine env l) :=
  ⟨l, shows.refreshLine_eq draws, shows⟩

/-! ## Moving the cursor -/

section

variable (draws : env.Draws frame) (shows : Shows frame l line)
include shows

theorem Shows.move (pos : ℕ) {before after : List UInt8}
    (same : before ++ after = line.before ++ line.after) (position : pos = before.length) :
    Shows frame { l with pos := pos } ⟨before, after⟩ := by
  obtain ⟨rest, text⟩ := shows.text
  have sameLength : (⟨before, after⟩ : Zipper UInt8).length = line.length := by
    have lengths := congrArg length same
    rw [length_append, length_append] at lengths
    exact lengths
  refine ⟨shows.isFrame, shows.inside, ?_, position, ?_, rest, ?_⟩
  · rw [sameLength]
    exact shows.fits
  · rw [sameLength]
    exact shows.len
  · rw [text, ← append_assoc, ← append_assoc, same]

include draws

theorem performs_moveLeft : Performs frame line .left (linenoiseEditMoveLeft env l) := by
  obtain ⟨before, after⟩ := line
  have position := shows.pos
  rcases eq_nil_or_concat before with rfl | ⟨front, char, rfl⟩
  · rw [linenoiseEditMoveLeft, if_neg (by simp [position])]
    exact ⟨l, rfl, shows⟩
  · rw [concat_eq_append] at shows position ⊢
    rw [linenoiseEditMoveLeft, if_pos (by simp [position])]
    apply Performs.ofRefresh draws
    rw [Zipper.edit, Zipper.left_concat]
    apply shows.move
    · simp
    · simp [position]

theorem performs_moveRight : Performs frame line .right (linenoiseEditMoveRight env l) := by
  obtain ⟨before, after⟩ := line
  have position := shows.pos
  have lineLength := shows.len
  cases after with
  | nil =>
    rw [linenoiseEditMoveRight, if_neg (by simp [position, lineLength, Zipper.length])]
    exact ⟨l, rfl, shows⟩
  | cons char after =>
    rw [linenoiseEditMoveRight, if_pos (by simp [position, lineLength, Zipper.length])]
    apply Performs.ofRefresh draws
    apply shows.move
    · simp
    · simp [position]

theorem performs_moveHome : Performs frame line .home (linenoiseEditMoveHome env l) := by
  by_cases atHome : l.pos = 0
  · rw [linenoiseEditMoveHome, if_neg (not_not_intro atHome)]
    exact ⟨l, rfl, shows.move l.pos rfl atHome⟩
  · rw [linenoiseEditMoveHome, if_pos atHome]
    exact .ofRefresh draws (shows.move 0 rfl rfl)

theorem performs_moveEnd : Performs frame line .toEnd (linenoiseEditMoveEnd env l) := by
  have lineLength : l.len = (line.before ++ line.after).length := by
    rw [shows.len, Zipper.length, length_append]
  by_cases atEnd : l.pos = l.len
  · rw [linenoiseEditMoveEnd, if_neg (not_not_intro atEnd)]
    exact ⟨l, rfl, shows.move l.pos (append_nil _) (atEnd.trans lineLength)⟩
  · rw [linenoiseEditMoveEnd, if_pos atEnd]
    exact .ofRefresh draws (shows.move l.len (append_nil _) lineLength)

end

/-! ## Removing text -/

theorem memmove_closeGap (before gap after rest : Buffer) :
    memmove (before ++ (gap ++ (after ++ rest))) before.length
        (before.length + gap.length) after.length =
      some (before ++ (after ++ (gap ++ (after ++ rest)).drop after.length)) := by
  have moved := memmove_append (before ++ gap) after rest before.length (by simp; omega)
  rw [length_append, append_assoc] at moved
  rw [moved, take_left, drop_append, drop_eq_nil_of_le (by omega),
    nil_append, Nat.add_sub_cancel_left]

theorem closeGap (before after rest : Buffer) {gap : Buffer} (nonempty : gap ≠ []) :
    ∃ moved rest', memmove (before ++ (gap ++ (after ++ 0 :: rest))) before.length
          (before.length + gap.length) after.length = some moved ∧
        put moved (before.length + after.length) 0 = some (before ++ (after ++ 0 :: rest')) ∧
        (before ++ (after ++ 0 :: rest')).length =
          (before ++ (gap ++ (after ++ 0 :: rest))).length := by
  have gapLength := length_pos_iff.mpr nonempty
  refine ⟨_, ((gap ++ (after ++ 0 :: rest)).drop after.length).tail,
    memmove_closeGap before gap after (0 :: rest), ?_, ?_⟩
  · obtain ⟨old, back, split⟩ : ∃ old back, (gap ++ (after ++ 0 :: rest)).drop after.length =
        old :: back := by
      apply exists_cons_of_length_pos
      simp
      omega
    rw [split, ← append_assoc, ← length_append, put_length_append, append_assoc, tail_cons]
  · simp
    omega

theorem closeGap_terminated (before gap after rest : Buffer) :
    ∃ rest', memmove (before ++ (gap ++ (after ++ 0 :: rest))) before.length
          (before.length + gap.length) (after.length + 1) = some (before ++ (after ++ 0 :: rest')) ∧
        (before ++ (after ++ 0 :: rest')).length =
          (before ++ (gap ++ (after ++ 0 :: rest))).length := by
  have moves := memmove_closeGap before gap (after ++ [0]) rest
  simp only [length_append, length_singleton, append_assoc, singleton_append] at moves
  refine ⟨_, moves, ?_⟩
  simp
  omega

section

variable (draws : env.Draws frame) (shows : Shows frame l line)

include draws shows in
theorem performs_delete : Performs frame line .delete (linenoiseEditDelete env l) := by
  obtain ⟨before, after⟩ := line
  have ⟨_, _, fits, position, lineLength, rest, text⟩ := shows
  cases after with
  | nil =>
    refine ⟨l, ?_, shows⟩
    rw [linenoiseEditDelete, if_neg (by simp [position, lineLength, Zipper.length])]
  | cons char after =>
    simp only [Zipper.length, length_cons] at position lineLength fits
    obtain ⟨moved, rest', moves, closes, sameLength⟩ :=
      closeGap before after rest (cons_ne_nil char [])
    rw [singleton_append, ← cons_append, ← text] at moves sameLength
    rw [length_singleton, ← position] at moves
    have count : l.len - l.pos - 1 = after.length := by omega
    have closed : l.len - 1 = before.length + after.length := by omega
    rw [linenoiseEditDelete, if_pos (by omega), count, moves]
    simp only [some_bind, closed, closes]
    apply Performs.ofRefresh draws
    apply shows.rewrite ⟨before, after⟩ rest' sameLength ?_ position rfl
    simp only [Zipper.length]
    omega

include draws shows in
theorem performs_backspace : Performs frame line .backspace (linenoiseEditBackspace env l) := by
  obtain ⟨before, after⟩ := line
  have ⟨_, _, fits, position, lineLength, rest, text⟩ := shows
  rcases eq_nil_or_concat before with rfl | ⟨front, char, rfl⟩
  · refine ⟨l, ?_, shows⟩
    rw [linenoiseEditBackspace, if_neg (by simp [position])]
  · simp only [concat_eq_append, Zipper.length, length_append,
      length_singleton, append_assoc] at text position lineLength fits
    obtain ⟨moved, rest', moves, closes, sameLength⟩ :=
      closeGap front after rest (cons_ne_nil char [])
    rw [← text] at moves sameLength
    rw [length_singleton, ← position] at moves
    have count : l.len - l.pos = after.length := by omega
    have target : l.pos - 1 = front.length := by omega
    have closed : l.len - 1 = front.length + after.length := by omega
    rw [linenoiseEditBackspace, if_pos (by omega), count, target, moves]
    simp only [some_bind, closed, closes]
    apply Performs.ofRefresh draws
    rw [Zipper.edit, concat_eq_append, dropLast_concat]
    apply shows.rewrite ⟨front, after⟩ rest' sameLength ?_ rfl rfl
    simp only [Zipper.length]
    omega

theorem skipBack_eq (accept : UInt8 → Bool) (before back : Buffer) :
    skipBack accept (before ++ back) before.length = some (before.rdropWhile accept).length := by
  -- The loop takes the text before the cursor from its end.
  induction before using reverseRecOn generalizing back with
  | nil => rfl
  | append_singleton front char ih =>
    have here : (front ++ ([char] ++ back))[front.length]? = some char := by simp
    rw [length_append, length_singleton, append_assoc, skipBack, here, rdropWhile_concat]
    simp only [some_bind]
    by_cases accepted : accept char = true
    · rw [if_pos accepted, if_pos accepted, ih]
    · rw [if_neg accepted, if_neg accepted]
      simp

/-- The two loops of `linenoiseEditDeletePrevWord` stop where the text that
stays ends. -/
theorem skipWord_eq (before back : Buffer) :
    ∃ kept gap, before = kept ++ gap ∧
      (before.rdropWhile isBlank).rdropWhile (fun c => !isBlank c) = kept ∧
      (do
        let pos ← skipBack isBlank (before ++ back) before.length
        skipBack (fun c => !isBlank c) (before ++ back) pos) = some kept.length := by
  obtain ⟨blanks, splitBlanks⟩ := rdropWhile_prefix isBlank before
  obtain ⟨word, splitWord⟩ := rdropWhile_prefix (fun c => !isBlank c) (before.rdropWhile isBlank)
  refine ⟨_, word ++ blanks, ?_, rfl, ?_⟩
  · rw [← append_assoc, splitWord, splitBlanks]
  · have skipWord := skipBack_eq (fun c => !isBlank c) (before.rdropWhile isBlank) (blanks ++ back)
    rw [← append_assoc, splitBlanks] at skipWord
    rw [skipBack_eq, some_bind, skipWord]

include draws shows in
theorem performs_deletePrevWord :
    Performs frame line .deletePrevWord (linenoiseEditDeletePrevWord env l) := by
  obtain ⟨before, after⟩ := line
  have ⟨_, _, fits, position, lineLength, rest, text⟩ := shows
  simp only [Zipper.length] at text position lineLength fits
  obtain ⟨kept, gap, splitBefore, isKept, skips⟩ := skipWord_eq before (after ++ 0 :: rest)
  rw [← text, ← position] at skips
  obtain ⟨afterBlanks, skipsBlanks, skipsWord⟩ := bind_eq_some_iff.mp skips
  obtain ⟨rest', moves, sameLength⟩ := closeGap_terminated kept gap after rest
  rw [← append_assoc kept gap, ← splitBefore, ← text] at moves sameLength
  have oldPosition : kept.length + gap.length = l.pos := by
    rw [position, splitBefore, length_append]
  have count : after.length + 1 = l.len - l.pos + 1 := by omega
  rw [oldPosition, count] at moves
  rw [linenoiseEditDeletePrevWord, skipsBlanks]
  simp only [some_bind, skipsWord, moves]
  apply Performs.ofRefresh draws
  simp only [Zipper.edit, Zipper.deletePrevWord, isKept]
  apply shows.rewrite ⟨kept, after⟩ rest' sameLength ?_ rfl ?_
  · simp only [Zipper.length]
    omega
  · simp only [Zipper.length]
    omega

include draws shows in
theorem performs_killToEnd : Performs frame line .killToEnd (killToEnd env l) := by
  obtain ⟨before, after⟩ := line
  obtain ⟨rest, text⟩ := shows.text
  have fits := shows.fits
  obtain ⟨old, back, split⟩ : ∃ old back, after ++ 0 :: rest = old :: back := by
    apply exists_cons_of_length_pos
    rw [length_append, length_cons]
    omega
  simp only [Zipper.length] at fits
  simp only [split] at text
  rw [killToEnd, text, shows.pos, put_length_append, some_bind]
  apply Performs.ofRefresh draws
  apply shows.rewrite ⟨before, []⟩ back ?_ ?_ rfl rfl
  · rw [text]
    simp
  · simp only [Zipper.length, length_nil]
    omega

include draws shows in
theorem performs_killLine : Performs frame line .killLine (killLine env l) := by
  obtain ⟨old, back, split⟩ : ∃ old back, l.buf = old :: back := by
    apply exists_cons_of_length_pos
    exact lt_of_le_of_lt (zero_le _) shows.inside
  have writes : put (old :: back) 0 0 = some (0 :: back) := put_length_append [] old 0 back
  rw [killLine, split, writes, some_bind]
  apply Performs.ofRefresh draws
  apply shows.rewrite Zipper.empty back ?_ (zero_le _) rfl rfl
  rw [split]
  simp [Zipper.empty]

/-! ## Changing text -/

theorem transpose_eq {front back : Buffer} {char next : UInt8}
    (text : l.buf = front ++ (char :: next :: back))
    (position : l.pos = front.length + 1) (inside : l.pos < l.len) :
    transpose env l = refreshLine env { l with
      buf := front ++ (next :: char :: back)
      pos := if l.pos ≠ l.len - 1 then l.pos + 1 else l.pos } := by
  have aux : l.buf[l.pos - 1]? = some char := by simp [text, position]
  have here : l.buf[l.pos]? = some next := by simp [text, position]
  have writesFirst : put l.buf (l.pos - 1) next = some (front ++ (next :: next :: back)) := by
    rw [text, position]
    exact put_length_append front char next (next :: back)
  have writesSecond : put (front ++ (next :: next :: back)) l.pos char =
      some (front ++ (next :: char :: back)) := by
    have writes := put_length_append (front ++ [next]) next char back
    rw [append_assoc, append_assoc, length_append] at writes
    rw [position]
    exact writes
  rw [transpose, if_pos (by omega), aux, here]
  simp only [some_bind, writesFirst, writesSecond]

include draws shows in
theorem performs_transpose : Performs frame line .transpose (transpose env l) := by
  obtain ⟨before, after⟩ := line
  have ⟨_, _, fits, position, lineLength, rest, text⟩ := shows
  rcases eq_nil_or_concat before with rfl | ⟨front, char, rfl⟩
  · refine ⟨l, ?_, shows⟩
    rw [transpose, if_neg (by simp [position])]
  · rw [concat_eq_append] at shows text position lineLength fits ⊢
    rcases after with _ | ⟨next, after⟩
    · refine ⟨l, ?_, ?_⟩
      · rw [transpose, if_neg (by simp [position, lineLength, Zipper.length])]
      · rw [Zipper.edit, Zipper.transpose_end]
        exact shows
    · simp only [append_assoc, cons_append, Zipper.length,
        length_append, length_cons] at text position lineLength fits
      have transposed : transpose env l = _ := transpose_eq text position (by omega)
      have sameLength : (front ++ (next :: char :: (after ++ 0 :: rest))).length =
          l.buf.length := by
        rw [text]
        simp
      rcases after with _ | ⟨following, after⟩
      · rw [transposed, if_neg (by simp [position, lineLength])]
        apply Performs.ofRefresh draws
        rw [Zipper.edit, Zipper.transpose_last]
        have rewritten := shows.rewrite ⟨front ++ [next], [char]⟩ rest
          (by simpa using sameLength) (by simpa [Zipper.length] using fits)
          (by simpa using position) (by simpa [Zipper.length] using lineLength)
        simpa using rewritten
      · rw [transposed, if_pos (by simp [position, lineLength])]
        apply Performs.ofRefresh draws
        rw [Zipper.edit, Zipper.transpose_concat]
        have rewritten := @Shows.rewrite _ _ _ shows
          ⟨front ++ [next, char], following :: after⟩ rest (l.pos + 1) l.len
          (by simpa using sameLength)
          (by simp only [Zipper.length, length_append, length_cons, length_nil] at fits ⊢
              omega) (by simpa using position)
          (by simp only [Zipper.length, length_append, length_cons, length_nil] at lineLength ⊢
              omega)
        simpa using rewritten

theorem memmove_openGap (before after back : Buffer) (next : UInt8) :
    memmove (before ++ (next :: after ++ 0 :: back)) (before.length + 1)
      before.length (after.length + 1) = some (before ++ (next :: (next :: after ++ back))) := by
  have moved := memmove_append before (next :: after) (0 :: back)
    (before.length + 1) (by simp; omega)
  have front : before ++ (next :: after ++ 0 :: back) =
      (before ++ [next]) ++ (after ++ 0 :: back) := by
    simp
  have behind : before ++ (next :: after ++ 0 :: back) =
      (before ++ (next :: after ++ [0])) ++ back := by
    simp
  rw [length_cons] at moved
  rw [moved]
  congr 1
  nth_rewrite 1 [front]
  rw [behind, take_left' (by simp), drop_left' (by simp; omega), append_assoc, singleton_append]

/-- The buffer after a character has been put in front of the text that
follows the cursor. -/
theorem insert_eq (c : UInt8) {before after rest : Buffer} {old : UInt8} {inserted : LinenoiseState}
    (text : l.buf = before ++ (after ++ 0 :: old :: rest)) (position : l.pos = before.length)
    (lineLength : l.len = before.length + after.length) (room : l.len < l.buflen)
    (isInserted : { l with
      buf := before ++ (c :: (after ++ 0 :: rest))
      pos := l.pos + 1
      len := l.len + 1 } = inserted)
    (refreshes : refreshLine env inserted = some inserted) :
    ∃ written, linenoiseEditInsert env l c = some (written, inserted) ∧
      (written = false → env.writes = false) := by
  have closes : put (before ++ (c :: (after ++ old :: rest))) (l.len + 1) 0 =
      some (before ++ (c :: (after ++ 0 :: rest))) := by
    have writes := put_length_append (before ++ (c :: after)) old 0 rest
    rw [append_assoc, append_assoc, length_append, length_cons, ← add_assoc, ← lineLength] at writes
    exact writes
  rw [linenoiseEditInsert, if_pos room]
  rcases after with _ | ⟨next, after⟩
  · have writes : put l.buf l.pos c = some (before ++ (c :: old :: rest)) := by
      rw [text, position]
      exact put_length_append before 0 c (old :: rest)
    rw [if_pos (by simp [position, lineLength])]
    rw [nil_append] at closes
    simp only [some_bind, writes, closes, isInserted, refreshes]
    split
    · exact ⟨env.writes, rfl, id⟩
    · exact ⟨true, rfl, nofun⟩
  · have count : l.len - l.pos = after.length + 1 := by
      rw [lineLength, position, length_cons]
      omega
    have moves := memmove_openGap before after (old :: rest) next
    rw [← text, ← position, ← count] at moves
    have writes : put (before ++ (next :: (next :: after ++ old :: rest))) l.pos c =
        some (before ++ (c :: (next :: after ++ old :: rest))) := by
      rw [position]
      exact put_length_append before next c _
    rw [if_neg (by simp [position, lineLength]), moves]
    simp only [some_bind, writes, closes, isInserted, refreshes]
    exact ⟨true, rfl, nofun⟩

include draws shows in
theorem performs_insert (c : UInt8) :
    ∃ written l', linenoiseEditInsert env l c = some (written, l') ∧
      (written = false → env.writes = false) ∧
      Shows frame l' (line.edit isBlank frame.capacity (.insert c)) := by
  obtain ⟨rest, text⟩ := shows.text
  have inside := shows.inside
  have lineLength := shows.len
  have buflen := shows.buflen
  have position := shows.pos
  rw [Zipper.edit]
  by_cases room : line.length < frame.capacity
  · rw [if_pos room]
    obtain ⟨old, back, rfl⟩ : ∃ old back, rest = old :: back := by
      apply exists_cons_of_length_pos
      rw [text] at inside
      simp only [length_append, length_cons, Zipper.length] at inside room
      omega
    have rewritten := @Shows.rewrite _ _ _ shows
      ⟨line.before ++ [c], line.after⟩ back (l.pos + 1) (l.len + 1) (by rw [text]; simp; omega)
      (by simp only [Zipper.length, length_append, length_cons, length_nil] at room ⊢
          omega) (by simp [position])
      (by simp only [Zipper.length, length_append, length_cons, length_nil] at lineLength ⊢
          omega)
    obtain ⟨written, inserts, fails⟩ := insert_eq c text position lineLength (by omega)
      (by simp) (rewritten.refreshLine_eq draws)
    exact ⟨written, _, inserts, fails, rewritten⟩
  · rw [if_neg room]
    refine ⟨true, l, ?_, nofun, shows⟩
    rw [linenoiseEditInsert, if_neg (by omega)]

end

/-! ## Keys -/

/-- What a key of one byte asks for.  The keys that leave the line or replace
it by one of the history ask for nothing that a zipper can do. -/
def byteCommand (c : UInt8) : Option (Edit UInt8) :=
  match KeyAction.ofByte c with
  | some .enter => none
  | some .ctrlC => none
  | some .ctrlP => none
  | some .ctrlN => none
  | some .esc => none
  | some .backspace => some .backspace
  | some .ctrlH => some .backspace
  | some .ctrlD => some .delete
  | some .ctrlT => some .transpose
  | some .ctrlB => some .left
  | some .ctrlF => some .right
  | some .ctrlU => some .killLine
  | some .ctrlK => some .killToEnd
  | some .ctrlA => some .home
  | some .ctrlE => some .toEnd
  | some .ctrlL => some .nothing
  | some .ctrlW => some .deletePrevWord
  | some .keyNull => some (.insert c)
  | some .tab => some (.insert c)
  | none => some (.insert c)

/-- What a key that sends an escape sequence of three bytes asks for. -/
def escapeCommand (first second : UInt8) : Option (Edit UInt8) :=
  if first = 91 then
    if isDigit second then none
    else if second = 65 then none
    else if second = 66 then none
    else if second = 67 then some .right
    else if second = 68 then some .left
    else if second = 72 then some .home
    else if second = 70 then some .toEnd
    else some .nothing
  else if first = 79 then
    if second = 72 then some .home
    else if second = 70 then some .toEnd
    else some .nothing
  else
    some .nothing

def keyCommand : List UInt8 → Option (Edit UInt8)
  | [c] => byteCommand c
  | [c, first, second] => if c = 27 then escapeCommand first second else none
  | [c, first, second, third] =>
    if c = 27 ∧ first = 91 ∧ isDigit second then
      if third = 126 ∧ second = 51 then some .delete else some .nothing
    else
      none
  | _ => none

structure Follows (frame : Frame) (line : Zipper UInt8) (edit : Edit UInt8)
    (env : Environment) (key : List UInt8) (session : Session)
    (answer : Answer) (after : Session) : Prop where
  shows : Shows frame after.l (line.edit isBlank frame.capacity edit)
  answers : answer = .editMore ∧ after.history = session.history ∨
    answer = .null none ∧ env.writes = false ∨
    answer = .null (some .enoent) ∧ key = [4] ∧ edit = .delete ∧ line = .empty

variable {session : Session} {key : List UInt8}

theorem Performs.follows {result : Option LinenoiseState}
    (performs : Performs frame line edit result) :
    ∃ answer after, more session result = some (answer, after) ∧
      Follows frame line edit env key session answer after := by
  obtain ⟨l, isResult, shows⟩ := performs
  refine ⟨.editMore, setLine session l, ?_, shows, .inl ⟨rfl, rfl⟩⟩
  rw [isResult]
  rfl

theorem Shows.eq_empty (shows : Shows frame l line) (noText : l.len = 0) : line = .empty := by
  have lineLength := shows.len
  rw [noText, Zipper.length] at lineLength
  apply Zipper.ext
  · exact length_eq_zero_iff.mp (by omega)
  · exact length_eq_zero_iff.mp (by omega)

section

variable (draws : env.Draws frame) (shows : Shows frame session.l line)
include draws shows

theorem follows_ctrlD {c : UInt8} (isKey : KeyAction.ofByte c = some .ctrlD)
    (entries : session.history.entries ≠ []) :
    ∃ answer after, handleKey env c session = some (answer, after) ∧
      Follows frame line .delete env [c] session answer after := by
  have isFour : ctrlD.code = c := code_of_ofByte isKey
  simp only [handleKey, isKey]
  by_cases text : 0 < session.l.len
  · rw [if_pos text]
    exact (performs_delete draws shows).follows
  · have isEmpty := shows.eq_empty (Nat.eq_zero_of_not_pos text)
    rw [if_neg text, History.removeLast, if_neg entries]
    refine ⟨_, _, rfl, ?_, .inr (.inr ⟨rfl, ?_, rfl, isEmpty⟩)⟩
    · rw [isEmpty] at shows ⊢
      exact shows
    · rw [← isFour]
      rfl

theorem follows_insert (c : UInt8) :
    ∃ answer after, (do
      let (written, l) ← linenoiseEditInsert env session.l c
      return (if written then Answer.editMore else .null none,
        setLine session l)) = some (answer, after) ∧
      Follows frame line (.insert c) env key session answer after := by
  obtain ⟨written, l, inserts, fails, showsAfter⟩ := performs_insert draws shows c
  rw [inserts]
  refine ⟨_, _, rfl, showsAfter, ?_⟩
  cases written with
  | true => exact .inl ⟨rfl, rfl⟩
  | false => exact .inr (.inl ⟨rfl, fails rfl⟩)

theorem follows_byte {c : UInt8} (entries : session.history.entries ≠ [])
    (command : byteCommand c = some edit) :
    ∃ answer after, handleKey env c session = some (answer, after) ∧
      Follows frame line edit env [c] session answer after := by
  cases isKey : ofByte c with
  | none =>
    simp only [byteCommand, isKey] at command
    cases command
    simp only [handleKey, isKey]
    exact follows_insert draws shows c
  | some key =>
    simp only [byteCommand, isKey] at command
    cases key <;> simp only [reduceCtorEq, some.injEq] at command <;> subst command
    case ctrlD => exact follows_ctrlD draws shows isKey entries
    all_goals simp only [handleKey, isKey]
    case keyNull => exact follows_insert draws shows c
    case tab => exact follows_insert draws shows c
    case ctrlA => exact (performs_moveHome draws shows).follows
    case ctrlB => exact (performs_moveLeft draws shows).follows
    case ctrlE => exact (performs_moveEnd draws shows).follows
    case ctrlF => exact (performs_moveRight draws shows).follows
    case ctrlH => exact (performs_backspace draws shows).follows
    case ctrlK => exact (performs_killToEnd draws shows).follows
    case ctrlL => exact (Performs.ofRefresh draws shows).follows
    case ctrlT => exact (performs_transpose draws shows).follows
    case ctrlU => exact (performs_killLine draws shows).follows
    case ctrlW => exact (performs_deletePrevWord draws shows).follows
    case backspace => exact (performs_backspace draws shows).follows

omit draws shows in
theorem Performs.escape {result : Option LinenoiseState}
    (performs : Performs frame line edit result) (session : Session) :
    ∃ after, result.map (setLine session) = some after ∧ after.history = session.history ∧
      Shows frame after.l (line.edit isBlank frame.capacity edit) := by
  obtain ⟨l, rfl, shows⟩ := performs
  exact ⟨_, rfl, rfl, shows⟩

theorem escapeKey_spec {first second : UInt8} (command : escapeCommand first second = some edit) :
    ∃ after, escapeKey env session first second = some after ∧ after.history = session.history ∧
      Shows frame after.l (line.edit isBlank frame.capacity edit) := by
  have home := (performs_moveHome draws shows).escape session
  have toEnd := (performs_moveEnd draws shows).escape session
  simp only [escapeCommand] at command
  simp only [escapeKey]
  split_ifs at command ⊢ <;> cases command
  · exact (performs_moveRight draws shows).escape session
  · exact (performs_moveLeft draws shows).escape session
  · exact home
  · exact toEnd
  · exact ⟨session, rfl, rfl, shows⟩
  · exact home
  · exact toEnd
  · exact ⟨session, rfl, rfl, shows⟩
  · exact ⟨session, rfl, rfl, shows⟩

end

theorem notDigit_of_escapeCommand {first second : UInt8}
    (command : escapeCommand first second = some edit) : ¬ (first = 91 ∧ isDigit second) := by
  rintro ⟨isBracket, digit⟩
  rw [escapeCommand, if_pos isBracket, if_pos digit] at command
  cases command

theorem feed_escape (noCompletion : env.completionCallback = none) {input rest : List Read}
    {after : Session} (sequence : escapeSequence env input session = some (rest, after)) :
    linenoiseEditFeed env (.byte 27 :: input) session = some (.editMore, rest, after) := by
  simp only [linenoiseEditFeed, noCompletion]
  rw [dispatch, if_pos (by decide), sequence]
  rfl

theorem linenoiseEditFeed_spec (rest : List Read)
    (noCompletion : env.completionCallback = none) (draws : env.Draws frame)
    (shows : Shows frame session.l line) (entries : session.history.entries ≠ [])
    (command : keyCommand key = some edit) :
    ∃ answer after, linenoiseEditFeed env (key.map .byte ++ rest) session =
      some (answer, rest, after) ∧
      Follows frame line edit env key session answer after := by
  match key, command with
  | [c], command =>
    have notEscape : ofByte c ≠ some .esc := by
      intro isEscape
      simp only [keyCommand, byteCommand, isEscape] at command
      cases command
    obtain ⟨answer, after, handles, follows⟩ := follows_byte draws shows entries command
    refine ⟨answer, after, ?_, follows⟩
    simp only [map_cons, map_nil, singleton_append, linenoiseEditFeed, noCompletion]
    rw [dispatch, if_neg notEscape, handles]
    rfl
  | [c, first, second], command =>
    simp only [keyCommand] at command
    split_ifs at command with isEscape
    subst isEscape
    obtain ⟨after, handles, sameHistory, showsAfter⟩ := escapeKey_spec draws shows command
    refine ⟨.editMore, after, feed_escape noCompletion ?_, showsAfter, .inl ⟨rfl, sameHistory⟩⟩
    refine (if_neg (notDigit_of_escapeCommand command)).trans ?_
    rw [handles]
    rfl
  | [c, first, second, third], command =>
    simp only [keyCommand] at command
    split_ifs at command with isExtended isDelete
    · obtain ⟨rfl, extended⟩ := isExtended
      obtain rfl := some.inj command
      obtain ⟨l, deletes, showsAfter⟩ := performs_delete draws shows
      refine ⟨.editMore, setLine session l, feed_escape noCompletion ?_, showsAfter,
        .inl ⟨rfl, rfl⟩⟩
      refine (if_pos extended).trans ((if_pos isDelete).trans ?_)
      rw [deletes]
      rfl
    · obtain ⟨rfl, extended⟩ := isExtended
      obtain rfl := some.inj command
      refine ⟨.editMore, session, feed_escape noCompletion ?_, shows, .inl ⟨rfl, rfl⟩⟩
      exact (if_pos extended).trans (if_neg isDelete)

/-! ## Sessions -/

/-- The terminal could not be written to, or `CTRL_D` was pressed on an empty line. -/
def StopsEarly (envs : List Environment) (keys : List (List UInt8))
    (answers : List Answer) (final : Session) : Prop :=
  answers.getLast? = some (.null none) ∧ (∃ env ∈ envs, env.writes = false) ∨
    answers.getLast? = some (.null (some .enoent)) ∧ [4] ∈ keys ∧ final.l.zipper = .empty

theorem StopsEarly.cons {envs : List Environment}
    {keys : List (List UInt8)} {answers : List Answer} {final : Session}
    (stops : StopsEarly envs keys answers final) (env : Environment) (key : List UInt8) :
    StopsEarly (env :: envs) (key :: keys) (.editMore :: answers) final := by
  have nonempty : answers ≠ [] := by
    rintro rfl
    rcases stops with ⟨isLast, _⟩ | ⟨isLast, _⟩
    · cases isLast
    · cases isLast
  have sameLast : (Answer.editMore :: answers).getLast? = answers.getLast? := by
    obtain ⟨first, others, rfl⟩ := exists_cons_of_ne_nil nonempty
    rfl
  rcases stops with ⟨isLast, other, member, fails⟩ | ⟨isLast, pressed, isEmpty⟩
  · exact .inl ⟨sameLast.trans isLast, other, mem_cons_of_mem env member, fails⟩
  · exact .inr ⟨sameLast.trans isLast, mem_cons_of_mem key pressed, isEmpty⟩

theorem feedAll_spec (rest : List Read) :
    ∀ (envs : List Environment) (keys : List (List UInt8))
      (edits : List (Edit UInt8)) (session : Session) (line : Zipper UInt8),
      (∀ env ∈ envs, env.completionCallback = none) →
      (∀ env ∈ envs, env.Draws frame) →
      keys.map keyCommand = edits.map some →
      envs.length = keys.length →
      session.history.entries ≠ [] →
      Shows frame session.l line →
      ∃ answers input final, feedAll envs (keys.flatten.map .byte ++ rest) session =
        some (answers, input, final) ∧
        Shows frame final.l ((edits.take answers.length).foldl
          (Zipper.edit isBlank frame.capacity) line) ∧
        (answers.length = keys.length ∨ StopsEarly envs keys answers final) := by
  intro envs
  induction envs with
  | nil =>
    intro keys edits session line _ _ commands sameLength _ shows
    obtain rfl : keys = [] := length_eq_zero_iff.mp sameLength.symm
    exact ⟨[], rest, session, rfl, shows, .inl rfl⟩
  | cons env envs ih =>
    intro keys edits session line noCompletion draws commands sameLength entries shows
    rcases keys with _ | ⟨key, keys⟩
    · cases sameLength
    rcases edits with _ | ⟨edit, edits⟩
    · cases commands
    simp only [map_cons, cons.injEq] at commands
    simp only [length_cons, add_right_cancel_iff] at sameLength
    obtain ⟨answer, after, feeds, follows⟩ :=
      linenoiseEditFeed_spec (keys.flatten.map .byte ++ rest)
        (noCompletion env mem_cons_self) (draws env mem_cons_self) shows entries
        commands.1
    rw [flatten_cons, map_append, append_assoc, feedAll, feeds]
    simp only [some_bind]
    rcases follows.answers with
      ⟨rfl, sameHistory⟩ | ⟨rfl, fails⟩ | ⟨rfl, isKey, isDelete, isEmpty⟩
    · obtain ⟨answers, input, final, feedsAll, showsFinal, stops⟩ :=
        ih keys edits after _ (fun other member => noCompletion other (mem_cons_of_mem _ member))
          (fun other member => draws other (mem_cons_of_mem _ member))
          commands.2 sameLength (sameHistory ▸ entries) follows.shows
      rw [if_pos rfl, feedsAll]
      refine ⟨_, input, final, rfl, showsFinal, ?_⟩
      rcases stops with all | stops
      · left
        rw [length_cons, length_cons, all]
      · exact .inr (stops.cons env key)
    · rw [if_neg (by decide)]
      refine ⟨_, _, after, rfl, follows.shows, .inr (.inl ⟨rfl, ?_⟩)⟩
      exact ⟨env, mem_cons_self, fails⟩
    · rw [if_neg (by decide)]
      refine ⟨_, _, after, rfl, follows.shows, .inr (.inr ⟨rfl, ?_, ?_⟩)⟩
      · rw [isKey]
        exact mem_cons_self
      · have showsEmpty := follows.shows
        rw [isDelete, isEmpty] at showsEmpty
        exact showsEmpty.zipper_eq

theorem linenoiseEditStart_spec (history : History) {buf : Buffer}
    {buflen : ℕ} (plen cols : ℕ) (positive : 0 < buflen)
    (isSize : buflen < 2 ^ 64) (allocated : buflen ≤ buf.length) :
    ∃ session, linenoiseEditStart history buf buflen plen cols = some session ∧
      session.history.entries ≠ [] ∧ Shows ⟨buflen - 1, plen, cols⟩ session.l .empty := by
  obtain ⟨old, rest, rfl⟩ := exists_cons_of_length_pos (positive.trans_le allocated)
  have writes : put (old :: rest) 0 0 = some (0 :: rest) := put_length_append [] old 0 rest
  have pred := sizePred_eq positive isSize
  refine ⟨_, congrArg (· >>= _) writes, ?_, by rw [← pred], ?_, zero_le _, rfl, rfl, rest, rfl⟩
  · have notZero : history.maxLen ≠ 0 := history.maxLen_pos.ne'
    simp only [linenoiseHistoryAdd, if_neg notZero]
    split
    · rename_i isLast
      intro isEmpty
      rw [isEmpty] at isLast
      cases isLast
    · split
      · exact append_ne_nil_of_right_ne_nil _ (cons_ne_nil _ _)
      · exact append_ne_nil_of_right_ne_nil _ (cons_ne_nil _ _)
  · simp only [length_cons] at allocated ⊢
    omega

/-- A session without completion on a terminal that is wide enough for the
prompt, whose keys neither leave the line nor fetch one of the history, follows
the zipper key by key: after every key, the texts on both sides of the cursor
are those of the zipper, and the line is closed inside the buffer. -/
theorem linenoiseEditFeed_refines_zipper (history : History) (buf : Buffer)
    (buflen plen cols : ℕ) (positive : 0 < buflen) (isSize : buflen < 2 ^ 64)
    (allocated : buflen ≤ buf.length) (envs : List Environment)
    (noCompletion : ∀ env ∈ envs, env.completionCallback = none)
    (draws : ∀ env ∈ envs, env.Draws ⟨buflen - 1, plen, cols⟩) (keys : List (List UInt8))
    (edits : List (Edit UInt8)) (commands : keys.map keyCommand = edits.map some)
    (oneCallEach : envs.length = keys.length) (rest : List Read) :
    ∃ session answers input final, linenoiseEditStart history buf buflen plen cols = some session ∧
      feedAll envs (keys.flatten.map .byte ++ rest) session = some (answers, input, final) ∧
      final.l.zipper = (edits.take answers.length).foldl (Zipper.edit isBlank (buflen - 1)) .empty ∧
      final.l.buflen = buflen - 1 ∧
      final.l.pos ≤ final.l.len ∧
      final.l.len ≤ final.l.buflen ∧
      final.l.buf[final.l.len]? = some 0 ∧
      (answers.length = keys.length ∨ StopsEarly envs keys answers final) := by
  obtain ⟨session, starts, entries, shows⟩ :=
    linenoiseEditStart_spec history plen cols positive isSize allocated
  obtain ⟨answers, input, final, feeds, showsFinal, stops⟩ :=
    feedAll_spec rest envs keys edits session .empty noCompletion draws
      commands oneCallEach entries shows
  refine ⟨session, answers, input, final, starts, feeds,
    showsFinal.zipper_eq, showsFinal.buflen, ?_, ?_, showsFinal.terminated, stops⟩
  · rw [showsFinal.pos, showsFinal.len, Zipper.length]
    omega
  · rw [showsFinal.len, showsFinal.buflen]
    exact showsFinal.fits

/-- `a`, `b`, left, `CTRL_T`, blank, delete, `CTRL_W` in a buffer of four
bytes. -/
theorem linenoiseEditFeed_refines_zipper_sevenKeys :
    ∃ session answers input final, linenoiseEditStart ⟨100, by decide, []⟩ [7, 7, 7, 7] 4 2 80 =
        some session ∧
        feedAll (replicate 7 ⟨false, false, none, true⟩)
          (([[97], [98], [27, 91, 68], [20], [32], [27, 91, 51, 126], [23]] :
            List (List UInt8)).flatten.map .byte ++ []) session = some (answers, input, final) ∧
        final.l.zipper = (([.insert 97, .insert 98, .left, .transpose,
          .insert 32, .delete, .deletePrevWord] :
            List (Edit UInt8)).take answers.length).foldl (Zipper.edit isBlank 3) .empty ∧
        final.l.buflen = 3 ∧
        final.l.pos ≤ final.l.len ∧
        final.l.len ≤ final.l.buflen ∧
        final.l.buf[final.l.len]? = some 0 ∧
        (answers.length = 7 ∨ StopsEarly (replicate 7 ⟨false, false, none, true⟩)
          [[97], [98], [27, 91, 68], [20], [32], [27, 91, 51, 126], [23]] answers final) :=
  linenoiseEditFeed_refines_zipper ⟨100, by decide, []⟩ [7, 7, 7, 7] 4 2 80
    (by decide) (by decide) (by decide) (replicate 7 ⟨false, false, none, true⟩) (by
      intro env member
      rw [eq_of_mem_replicate member]) (by
      intro env member
      rw [eq_of_mem_replicate member]
      exact ⟨by decide, by decide⟩)
    [[97], [98], [27, 91, 68], [20], [32], [27, 91, 51, 126], [23]]
    [.insert 97, .insert 98, .left, .transpose, .insert 32, .delete, .deletePrevWord]
    (by decide) rfl []

/-- The first key `a` on a terminal of 80 columns, behind a prompt of 80: the window starts behind
the text and its length is below zero. -/
theorem linenoiseEditFeed_widePrompt :
    ∃ session, linenoiseEditStart ⟨100, by decide, []⟩ [7, 7] 2 80 80 = some session ∧
      feedAll [⟨false, false, none, true⟩] [.byte 97] session = none :=
  ⟨_, rfl, by decide +kernel⟩

end Skyc.Linenoise
