import Mathlib

/-!
# A line of text with a cursor

The text before the cursor and the text after it, both in reading order, and
the commands of a line editor on this pair.
-/

namespace Skyc.Lib

universe u

@[ext]
structure Zipper (α : Type u) where
  before : List α
  after : List α
deriving DecidableEq, Repr

inductive Edit (α : Type u)
  | insert (char : α)
  | backspace
  | delete
  | transpose
  | left
  | right
  | home
  | toEnd
  | killToEnd
  | killLine
  | deletePrevWord
  | nothing
deriving DecidableEq, Repr

namespace Zipper

variable {α : Type u}

def empty : Zipper α :=
  ⟨[], []⟩

def length (line : Zipper α) : ℕ :=
  line.before.length + line.after.length

def left (line : Zipper α) : Zipper α :=
  match line.before.getLast? with
  | none => line
  | some char => ⟨line.before.dropLast, char :: line.after⟩

def right (line : Zipper α) : Zipper α :=
  match line.after with
  | [] => line
  | char :: after => ⟨line.before ++ [char], after⟩

/-- The two characters around the cursor change places, and the cursor moves
behind them unless the line ends there. -/
def transpose (line : Zipper α) : Zipper α :=
  match line.before.getLast?, line.after with
  | some char, [next] => ⟨line.before.dropLast ++ [next], [char]⟩
  | some char, next :: after => ⟨line.before.dropLast ++ [next, char], after⟩
  | _, _ => line

/-- The blanks before the cursor and the word before them go away. -/
def deletePrevWord (blank : α → Bool) (line : Zipper α) : Zipper α :=
  ⟨(line.before.rdropWhile blank).rdropWhile fun char => !blank char, line.after⟩

/-- What a command does to a line of at most `capacity` characters. -/
def edit (blank : α → Bool) (capacity : ℕ) (line : Zipper α) : Edit α → Zipper α
  | .insert char =>
    if line.length < capacity then ⟨line.before ++ [char], line.after⟩
    else line
  | .backspace => ⟨line.before.dropLast, line.after⟩
  | .delete => ⟨line.before, line.after.tail⟩
  | .transpose => line.transpose
  | .left => line.left
  | .right => line.right
  | .home => ⟨[], line.before ++ line.after⟩
  | .toEnd => ⟨line.before ++ line.after, []⟩
  | .killToEnd => ⟨line.before, []⟩
  | .killLine => empty
  | .deletePrevWord => line.deletePrevWord blank
  | .nothing => line

/-! ## The character before the cursor -/

@[simp]
theorem left_concat (before after : List α) (char : α) :
    left ⟨before ++ [char], after⟩ = ⟨before, char :: after⟩ := by
  simp [left]

@[simp]
theorem transpose_end (before : List α) : transpose ⟨before, []⟩ = ⟨before, []⟩ := by
  unfold transpose
  split
  · simp_all
  · simp_all
  · rfl

@[simp]
theorem transpose_last (before : List α) (char next : α) :
    transpose ⟨before ++ [char], [next]⟩ = ⟨before ++ [next], [char]⟩ := by
  simp [transpose]

@[simp]
theorem transpose_concat (before after : List α) (char next following : α) :
    transpose ⟨before ++ [char], next :: following :: after⟩ =
      ⟨before ++ [next, char], following :: after⟩ := by
  simp [transpose]

end Zipper

end Skyc.Lib
