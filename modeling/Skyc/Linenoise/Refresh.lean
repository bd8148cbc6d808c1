import Skyc.Linenoise.Model

/-!
# The part of the line that is shown

Two loops of `refreshSingleLine` cut the text until the prompt, the text and the
cursor have a place in the columns of the terminal.  Their variables are of type
`size_t`.
-/

namespace Skyc.Linenoise

open Skyc.Lib Skyc.Lib.Memory Nat Option

theorem sizePred_eq {size : ℕ} (positive : 0 < size) (isSize : size < 2 ^ 64) :
    sizePred size = size - 1 := by
  rw [sizePred]
  omega

section

variable {plen cols turns offset len pos : ℕ} (narrow : plen < cols) (isLen : len < 2 ^ 64)
include narrow isLen

/-- The first loop takes away what stands in front of the columns. -/
theorem shiftLoop_eq (inside : pos ≤ len) (isSum : plen + pos < 2 ^ 64)
    (enough : plen + pos + 1 - cols < turns) :
    shiftLoop plen cols turns ⟨offset, len, pos⟩ = some ⟨offset + (plen + pos + 1 - cols),
      len - (plen + pos + 1 - cols), pos - (plen + pos + 1 - cols)⟩ := by
  induction turns generalizing offset len pos with
  | zero => exact absurd enough (not_lt_zero _)
  | succ turns ih =>
    rw [shiftLoop, mod_eq_of_lt isSum]
    by_cases outside : cols ≤ plen + pos
    · rw [if_pos outside]
      simp only [sizePred_eq (show 0 < len by omega) isLen,
        sizePred_eq (show 0 < pos by omega) (by omega)]
      rw [ih (by omega) (by omega) (by omega) (by omega)]
      simp only [some.injEq, Window.mk.injEq]
      omega
    · rw [if_neg outside, show plen + pos + 1 - cols = 0 by omega]
      rfl

/-- The second loop takes away what stands behind the columns. -/
theorem cutLoop_eq (isSum : plen + len < 2 ^ 64) (enough : plen + len - cols < turns) :
    cutLoop plen cols turns ⟨offset, len, pos⟩ = some ⟨offset, len - (plen + len - cols), pos⟩ := by
  induction turns generalizing len with
  | zero => exact absurd enough (not_lt_zero _)
  | succ turns ih =>
    rw [cutLoop, mod_eq_of_lt isSum]
    by_cases outside : cols < plen + len
    · rw [if_pos outside]
      simp only [sizePred_eq (show 0 < len by omega) isLen]
      rw [ih (by omega) (by omega) (by omega)]
      simp only [some.injEq, Window.mk.injEq, true_and, and_true]
      omega
    · rw [if_neg outside, show plen + len - cols = 0 by omega]
      rfl

theorem trimLine_eq (inside : pos ≤ len) (isSum : plen + pos < 2 ^ 64)
    (isRest : plen + (len - (plen + pos + 1 - cols)) < 2 ^ 64) (enough : len < turns) :
    trimLine plen cols turns len pos = some ⟨plen + pos + 1 - cols,
      len - (plen + pos + 1 - cols) - (plen + (len - (plen + pos + 1 - cols)) - cols),
      pos - (plen + pos + 1 - cols)⟩ := by
  rw [trimLine, shiftLoop_eq narrow isLen inside isSum (by omega), zero_add]
  exact cutLoop_eq narrow (by omega) isRest (by omega)

end

/-- A window in the text that contains the cursor and has a place in the columns. -/
structure Window.Fits (window : Window) (plen cols len pos : ℕ) : Prop where
  cursor : window.offset + window.pos = pos
  contains : window.pos ≤ window.len
  inside : window.offset + window.len ≤ len
  column : plen + window.pos < cols
  width : plen + window.len ≤ cols

/-! A sum that is no `size_t` comes out below `plen`, and the loop does not run. -/

section

variable {plen cols turns : ℕ} (narrow : plen < cols) {window : Window}
include narrow

theorem cutLoop_of_wrap (isLen : window.len < 2 ^ 64) (wraps : 2 ^ 64 ≤ plen + window.len) :
    cutLoop plen cols (turns + 1) window = some window := by
  rw [cutLoop, if_neg (by omega)]

end

/-- The loops end with such a window exactly when the prompt is shorter than the terminal is
wide and the sums of the loops have a place in a `size_t`. -/
theorem trimLine_fits_iff (plen cols len pos : ℕ) (_positive : 1 ≤ cols) (isCols : cols < 2 ^ 64)
    (isLen : len < 2 ^ 64) (inside : pos ≤ len) :
    (∃ window, (∀ turns, len < turns → trimLine plen cols turns len pos = some window) ∧
      window.Fits plen cols len pos) ↔ plen < cols ∧ plen + pos < 2 ^ 64 ∧
        plen + (len - (plen + pos + 1 - cols)) < 2 ^ 64 := by
  constructor
  · rintro ⟨window, ends, fits⟩
    have column := fits.column
    have narrow : plen < cols := by omega
    have ended := ends (len + 1) (lt_succ_self len)
    rw [trimLine] at ended
    have isSum : plen + pos < 2 ^ 64 := by
      by_contra wraps
      rw [shiftLoop, if_neg (by simp only; omega)] at ended
      have wrapsLen : 2 ^ 64 ≤ plen + len := by omega
      cases (cutLoop_of_wrap narrow isLen wrapsLen).symm.trans ended
      have width : plen + len ≤ cols := fits.width
      omega
    refine ⟨narrow, isSum, ?_⟩
    rw [shiftLoop_eq narrow isLen inside isSum (by omega)] at ended
    by_contra wraps
    have rest : len - (plen + pos + 1 - cols) < 2 ^ 64 := by omega
    cases (cutLoop_of_wrap narrow rest (not_lt.mp wraps)).symm.trans ended
    have width : plen + (len - (plen + pos + 1 - cols)) ≤ cols := fits.width
    omega
  · rintro ⟨narrow, isSum, isRest⟩
    refine ⟨_, fun turns enough => trimLine_eq narrow isLen inside isSum isRest enough, ?_⟩
    constructor <;> simp only <;> omega

/-- Ten characters and the cursor behind them, on twelve columns with a prompt of five. -/
theorem trimLine_fits_iff_tenCharacters :
    ∃ window, (∀ turns, 10 < turns → trimLine 5 12 turns 10 10 = some window) ∧
      window.Fits 5 12 10 10 :=
  (trimLine_fits_iff 5 12 10 10 (by decide) (by decide) (by decide) (by decide)).mpr (by decide)

/-- A prompt of two characters on one column: `len` and `pos` go below zero, and the window
starts behind the text. -/
theorem trimLine_widePrompt :
    trimLine 2 1 4 0 0 = some ⟨2, 2 ^ 64 - 2, 2 ^ 64 - 2⟩ := rfl

/-! ## Refreshing -/

/-- `buflen`, `plen` and `cols`, which no key changes. -/
structure Frame where
  capacity : ℕ
  plen : ℕ
  cols : ℕ

/-- The terminal has a column for the prompt and one more, in multi-line mode any column.  A
refresh writes at most ten bytes for a character, nine of them to clear its row, and some 120
more, so that the `int` which counts them does not overflow. -/
def Environment.Draws (env : Environment) (frame : Frame) : Prop :=
  10 * (frame.plen + frame.capacity) + frame.cols + 128 < 2 ^ 31 ∧
    if env.mlmode then 0 < frame.cols else frame.plen < frame.cols

theorem refreshLine_eq {env : Environment} {l : LinenoiseState}
    (draws : env.Draws ⟨l.buflen, l.plen, l.cols⟩) (cursor : l.pos ≤ l.len)
    (fits : l.len ≤ l.buflen) (inside : l.len ≤ l.buf.length) :
    refreshLine env l = some l := by
  obtain ⟨small, columns⟩ := draws
  have bound : (intMax : ℤ) = 2 ^ 31 - 1 := rfl
  simp only at small columns
  rw [refreshLine]
  split_ifs at columns ⊢
  · rw [refreshMultiLine, int_eq_some (by omega) (by omega), int_eq_some (by omega) (by omega)]
    exact if_pos ⟨by omega, inside⟩
  · rw [refreshSingleLine, trimLine_eq columns (by omega) cursor (by omega) (by omega) (by omega)]
    simp only [some_bind]
    rw [int_eq_some (by omega) (by omega)]
    exact if_pos (by omega)

end Skyc.Linenoise
