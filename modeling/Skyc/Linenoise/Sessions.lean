import Skyc.Linenoise.Editing

/-!
# The history over whole sessions

`linenoiseEditStart` adds an empty entry to the history and the end of a session
takes the last entry away.  Between them only the keys that move in the history
write to it.
-/

namespace Skyc.Linenoise

open Skyc.Lib List Option
open Skyc.Lib.CBuffer

variable {env : Environment} {session after : Session} {answer : Answer} {c : UInt8}
  {input rest : List Read}

theorem readSequence_cases {α : Type} {broken : List Read → α}
    {next : UInt8 → List Read → Option α} {result : α}
    (reads : readSequence input broken next = some result) :
    (∃ rest, result = broken rest) ∨
      ∃ c rest, input = .byte c :: rest ∧ next c rest = some result := by
  unfold readSequence at reads
  split at reads
  · exact .inr ⟨_, _, rfl, reads⟩
  · exact .inl ⟨_, (some.inj reads).symm⟩
  · cases reads

/-- The input starts with a key that moves in the history. -/
def Navigates : List Read → Prop
  | .byte c :: input =>
    KeyAction.ofByte c = some .ctrlP ∨ KeyAction.ofByte c = some .ctrlN ∨
      KeyAction.ofByte c = some .esc ∧
        ∃ rest, input = .byte 91 :: .byte 65 :: rest ∨ input = .byte 91 :: .byte 66 :: rest
  | _ => False

/-- No call of the session starts with a key that moves in the history. -/
def Quiet : List Environment → List Read → Session → Prop
  | [], _, _ => True
  | env :: envs, input, session =>
    ¬ Navigates input ∧ ∀ answer rest after,
      linenoiseEditFeed env input session = some (answer, rest, after) →
      Quiet envs rest after

/-- What a call that has this answer does to the history. -/
def Answer.Leaves (history after : History) : Answer → Prop
  | .editMore => after = history
  | .line _ => history.removeLast = some after
  | .null _ => True

theorem more_leaves {l : Option LinenoiseState} (result : more session l = some (answer, after)) :
    answer.Leaves session.history after.history := by
  cases l with
  | none => cases result
  | some l =>
    cases result
    rfl

theorem handleKey_leaves (notPrev : KeyAction.ofByte c ≠ some .ctrlP)
    (notNext : KeyAction.ofByte c ≠ some .ctrlN)
    (result : handleKey env c session = some (answer, after)) :
    answer.Leaves session.history after.history := by
  simp only [handleKey] at result
  split at result
  case h_1 =>
    rcases bind_eq_some_iff.mp result with ⟨history, removes, moves⟩
    rcases bind_eq_some_iff.mp moves with ⟨moved, _, shows⟩
    rcases bind_eq_some_iff.mp shows with ⟨shown, _, same⟩
    cases same
    exact removes
  case h_2 =>
    cases result
    trivial
  case h_5 =>
    split at result
    · exact more_leaves result
    · rcases bind_eq_some_iff.mp result with ⟨history, removes, same⟩
      cases same
      trivial
  case h_9 isPrev => exact absurd isPrev notPrev
  case h_10 isNext => exact absurd isNext notNext
  case h_17 =>
    rcases bind_eq_some_iff.mp result with ⟨⟨written, l⟩, inserts, same⟩
    cases same
    cases written with
    | true => rfl
    | false => trivial
  all_goals exact more_leaves result

theorem escapeSequence_history (notNavigation : ∀ rest, input ≠ .byte 91 :: .byte 65 :: rest ∧
      input ≠ .byte 91 :: .byte 66 :: rest)
    (result : escapeSequence env input session = some (rest, after)) :
    after.history = session.history := by
  rcases readSequence_cases result with ⟨_, same⟩ | ⟨first, tail, isFirst, readsFirst⟩
  · cases same
    rfl
  rcases readSequence_cases readsFirst with ⟨_, same⟩ | ⟨second, behind, isSecond, reads⟩
  · cases same
    rfl
  subst isFirst isSecond
  split at reads
  · rcases readSequence_cases reads with ⟨_, same⟩ | ⟨third, last, isThird, readsThird⟩
    · cases same
      rfl
    split at readsThird
    · rcases bind_eq_some_iff.mp readsThird with ⟨l, deletes, same⟩
      cases same
      rfl
    · cases readsThird
      rfl
  · rcases bind_eq_some_iff.mp reads with ⟨moved, moves, same⟩
    cases same
    simp only [escapeKey] at moves
    split_ifs at moves with isBracket isUp isDown
    · rw [isBracket, isUp] at notNavigation
      exact absurd rfl (notNavigation _).1
    · rw [isBracket, isDown] at notNavigation
      exact absurd rfl (notNavigation _).2
    all_goals first
      | cases moves
        rfl
      | rcases map_eq_some_iff.mp moves with ⟨l, _, rfl⟩
        rfl

theorem dispatch_leaves (notNavigation : ¬ Navigates (.byte c :: input))
    (result : dispatch env c input session = some (answer, rest, after)) :
    answer.Leaves session.history after.history := by
  simp only [Navigates, not_or, not_and, not_exists] at notNavigation
  rw [dispatch] at result
  split at result
  · rename_i isEscape
    rcases bind_eq_some_iff.mp result with ⟨⟨behind, moved⟩, reads, same⟩
    cases same
    exact escapeSequence_history (notNavigation.2.2 isEscape) reads
  · rcases bind_eq_some_iff.mp result with ⟨⟨replied, moved⟩, handles, same⟩
    cases same
    exact handleKey_leaves notNavigation.1 notNavigation.2.1 handles

theorem completeLine_byte {callback : List UInt8 → List CString} {l next : LinenoiseState}
    {left : UInt8} (completes : completeLine env callback l c = some (left, next)) :
    left = c ∨ left = 0 := by
  simp only [completeLine] at completes
  split at completes
  · cases completes
    exact .inl rfl
  split at completes
  · rcases bind_eq_some_iff.mp completes with ⟨shown, _, same⟩
    cases same
    exact .inr rfl
  split at completes
  · rcases bind_eq_some_iff.mp completes with ⟨shown, _, shows⟩
    rcases bind_eq_some_iff.mp shows with ⟨shown, _, same⟩
    cases same
    exact .inr rfl
  · rcases bind_eq_some_iff.mp completes with ⟨completed, _, shows⟩
    rcases bind_eq_some_iff.mp shows with ⟨shown, _, same⟩
    cases same
    exact .inl rfl

theorem linenoiseEditFeed_leaves (notNavigation : ¬ Navigates input)
    (result : linenoiseEditFeed env input session = some (answer, rest, after)) :
    answer.Leaves session.history after.history := by
  unfold linenoiseEditFeed at result
  split at result
  · cases result
  · cases result
    trivial
  · cases result
    trivial
  · split at result
    · exact dispatch_leaves notNavigation result
    · split at result
      · rcases bind_eq_some_iff.mp result with ⟨⟨left, l⟩, completes, remains⟩
        simp only at remains
        split_ifs at remains with isHigh isZero
        · cases remains
          trivial
        · cases remains
          rfl
        · cases (completeLine_byte completes).resolve_right isZero
          have leaves := dispatch_leaves notNavigation remains
          exact leaves
      · exact dispatch_leaves notNavigation result

theorem feedAll_history {envs : List Environment} {answers : List Answer} {final : Session}
    {text : List UInt8} (quiet : Quiet envs input session)
    (feeds : feedAll envs input session = some (answers, rest, final))
    (entered : answers.getLast? = some (.line text)) :
    session.history.removeLast = some final.history := by
  induction envs generalizing input session answers with
  | nil =>
    cases feeds
    cases entered
  | cons env envs ih =>
    rcases bind_eq_some_iff.mp feeds with ⟨⟨answer, behind, after⟩, result, remains⟩
    have leaves := linenoiseEditFeed_leaves quiet.1 result
    simp only at remains
    split_ifs at remains with isMore
    · rcases bind_eq_some_iff.mp remains with ⟨⟨later, behindAll, last⟩, feedsRest, same⟩
      cases same
      rw [isMore] at leaves
      have same : after.history = session.history := leaves
      rw [← same]
      cases later with
      | nil => cases isMore; cases entered
      | cons head tail => exact ih (quiet.2 _ _ _ result) feedsRest entered
    · cases remains
      cases entered
      exact leaves

theorem History.removeLast_entries {history after : History}
    (removes : history.removeLast = some after) : after.entries = history.entries.dropLast := by
  rw [History.removeLast] at removes
  split_ifs at removes
  cases removes
  rfl

/-- What ENTER has taken away is the placeholder that `linenoiseEditStart` has added. -/
def FreesPlaceholder (history : History) (session final : Session) : Prop :=
  (linenoiseHistoryAdd history []).1 = true ∧
    session.history.entries = final.history.entries ++ [[]]

/-- A session that ENTER ends leaves the history as it was, or without its oldest entry when it
was full, and takes no entry of the user away: always but for a history whose last entry is empty,
to which no placeholder is added. -/
theorem session_keeps_history_iff (history : History) (buf : Buffer) (buflen plen cols : ℕ)
    (session final : Session) (envs : List Environment) (input rest : List Read)
    (answers : List Answer) (text : List UInt8)
    (starts : linenoiseEditStart history buf buflen plen cols = some session)
    (quiet : Quiet envs input session)
    (feeds : feedAll envs input session = some (answers, rest, final))
    (entered : answers.getLast? = some (.line text)) :
    ((final.history.entries = history.entries ∨ history.entries.length = history.maxLen ∧
      final.history.entries = history.entries.tail) ∧
      FreesPlaceholder history session final) ↔ history.entries.getLast? ≠ some [] := by
  rcases bind_eq_some_iff.mp starts with ⟨started, _, same⟩
  cases same
  have removed := History.removeLast_entries (feedAll_history quiet feeds entered)
  have notZero : history.maxLen ≠ 0 := history.maxLen_pos.ne'
  simp only [linenoiseHistoryAdd, FreesPlaceholder, if_neg notZero] at removed ⊢
  by_cases isEmpty : history.entries.getLast? = some []
  · rw [if_pos isEmpty]
    exact iff_of_false (fun kept => absurd kept.2.1 Bool.false_ne_true) (not_not_intro isEmpty)
  · rw [if_neg isEmpty] at removed ⊢
    refine iff_of_true ?_ isEmpty
    split_ifs at removed ⊢ with full
    · rw [dropLast_concat] at removed
      exact ⟨.inr ⟨full, removed⟩, rfl, congrArg (· ++ [[]]) removed.symm⟩
    · rw [dropLast_concat] at removed
      exact ⟨.inl removed, rfl, congrArg (· ++ [[]]) removed.symm⟩

/-- ENTER alone, with one entry in the history. -/
theorem session_keeps_history_iff_enter :
    ∃ session final, linenoiseEditStart ⟨100, by decide, [[108]]⟩ [7, 7] 2 0 80 = some session ∧
      feedAll [⟨false, false, none, true⟩] [.byte 13] session = some ([.line []], [], final) ∧
      (final.history.entries = [[108]] ∨ 1 = 100 ∧ final.history.entries = []) ∧
      FreesPlaceholder ⟨100, by decide, [[108]]⟩ session final := by
  refine ⟨_, _, rfl, rfl, ?_⟩
  have notNavigation : ¬ Navigates [.byte 13] :=
    not_or.mpr ⟨by decide, not_or.mpr ⟨by decide, fun isEscape => absurd isEscape.1 (by decide)⟩⟩
  exact (session_keeps_history_iff ⟨100, by decide, [[108]]⟩ [7, 7] 2 0 80 _ _
    [⟨false, false, none, true⟩] [.byte 13] [] [.line []] [] rfl
    ⟨notNavigation, fun _ _ _ _ => trivial⟩ rfl rfl).mpr (by decide)

/-- ENTER alone, with an empty last entry in the history. -/
theorem session_loses_entry :
    ∃ session final, linenoiseEditStart ⟨100, by decide, [[108], []]⟩ [7, 7] 2 0 80 = some session ∧
      feedAll [⟨false, false, none, true⟩] [.byte 13] session = some ([.line []], [], final) ∧
      final.history.entries = [[108]] := ⟨_, _, rfl, rfl, rfl⟩

end Skyc.Linenoise
