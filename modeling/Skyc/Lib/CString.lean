import Mathlib

/-!
# C strings

Strings without their terminating zero byte, and the functions of
`string.h` that the models below use.
-/

namespace Skyc.Lib

open List

/-- A C string without its terminating zero byte. -/
@[ext]
structure CString where
  bytes : List UInt8
  noNul : (0 : UInt8) ∉ bytes
deriving DecidableEq, Repr

def cString (buffer : List UInt8) : List UInt8 :=
  buffer.takeWhile (· ≠ 0)

/-- `strchr`: what stands before and after the first `char`. -/
def strchr (text : List UInt8) (char : UInt8) : Option (List UInt8 × List UInt8) :=
  match text.dropWhile (· ≠ char) with
  | [] => none
  | _ :: after => some (text.takeWhile (· ≠ char), after)

theorem cString_of_notMem {text : List UInt8} (noNul : (0 : UInt8) ∉ text) :
    cString text = text := by
  apply takeWhile_eq_self_iff.mpr
  intro char member
  have nonzero : char ≠ 0 := by
    rintro rfl
    exact noNul member
  simpa using nonzero

theorem strchr_append {before after : List UInt8} {char : UInt8} (first : char ∉ before) :
    strchr (before ++ char :: after) char = some (before, after) := by
  have different : ∀ other ∈ before, decide (other ≠ char) = true := by
    intro other member
    have apart : other ≠ char := by
      rintro rfl
      exact first member
    simpa using apart
  rw [strchr, dropWhile_append_of_pos different, takeWhile_append_of_pos different]
  simp

theorem strchr_of_notMem {text : List UInt8} {char : UInt8} (absent : char ∉ text) :
    strchr text char = none := by
  have skipped : text.dropWhile (· ≠ char) = [] := by
    rw [dropWhile_eq_nil_iff]
    intro other member
    have apart : other ≠ char := by
      rintro rfl
      exact absent member
    simpa using apart
  rw [strchr, skipped]

end Skyc.Lib
