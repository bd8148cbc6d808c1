import Skyc.Lib.FileProgram

/-!
# Files made of tiles

A record file is a sequence of encoded records without gaps.  `layout` lists
the bytes of such a file and `tileAt` finds the record that starts at an
offset.
-/

namespace Skyc.Lib

open Function List

variable {Tile : Type} (encode : Tile → List UInt8)

def layout (tiles : List Tile) : List UInt8 :=
  tiles.flatMap encode

def tileAt : List Tile → ℕ → Option Tile
  | [], _ => none
  | tile :: tiles, offset =>
    if offset = 0 then
      some tile
    else if offset < (encode tile).length then
      none
    else
      tileAt tiles (offset - (encode tile).length)

@[simp]
theorem layout_nil : layout encode [] = [] := rfl

@[simp]
theorem layout_cons (tile : Tile) (tiles : List Tile) :
    layout encode (tile :: tiles) = encode tile ++ layout encode tiles := rfl

@[simp]
theorem layout_append (first second : List Tile) :
    layout encode (first ++ second) = layout encode first ++ layout encode second := flatMap_append

/-! ## Reading and writing parts of a file -/

theorem readAt_append_middle (before middle after : List UInt8)
    {skip count : ℕ} (inside : skip + count ≤ middle.length) :
    readAt (before ++ (middle ++ after)) (before.length + skip) count =
      readAt middle skip count := by
  simp only [readAt, ← drop_drop, drop_left]
  rw [drop_append_of_le_length (by omega), take_append_of_le_length (by simp; omega)]

theorem writeAt_append_middle (before middle after new : List UInt8)
    {skip : ℕ} (inside : skip + new.length ≤ middle.length) :
    writeAt (before ++ (middle ++ after)) (before.length + skip) new =
      before ++ (writeAt middle skip new ++ after) := by
  have noGap : before.length + skip - (before ++ (middle ++ after)).length = 0 := by
    simp only [length_append]
    omega
  have noInnerGap : skip - middle.length = 0 := by omega
  simp only [writeAt, noGap, noInnerGap, replicate_zero, append_nil]
  rw [take_length_add_append, take_append_of_le_length (by omega),
    Nat.add_assoc, drop_length_add_append, drop_append_of_le_length (by omega)]
  simp only [append_assoc]

theorem writeAt_length (bytes new : List UInt8) :
    writeAt bytes bytes.length new = bytes ++ new := by
  simp only [writeAt, take_length, Nat.sub_self, replicate_zero, append_nil]
  rw [drop_eq_nil_of_le (by omega), append_nil]

theorem writeAt_all {old new : List UInt8} (sameLength : new.length = old.length) :
    writeAt old 0 new = new := by
  have nothingLeft : old.drop new.length = [] := drop_eq_nil_of_le (by omega)
  simp [writeAt, nothingLeft]

/-! ## Finding tiles -/

variable {encode}

variable {tiles : List Tile} {offset : ℕ} {tile : Tile}

theorem exists_of_tileAt (found : tileAt encode tiles offset = some tile) :
    ∃ before after, tiles = before ++ tile :: after ∧ offset = (layout encode before).length := by
  induction tiles generalizing offset with
  | nil => simp [tileAt] at found
  | cons first rest ih =>
    rw [tileAt] at found
    split at found
    case isTrue zero =>
      cases found
      exact ⟨[], rest, rfl, zero⟩
    case isFalse =>
      split at found
      case isTrue => cases found
      case isFalse outside =>
        obtain ⟨before, after, split, position⟩ := ih found
        refine ⟨first :: before, after, by rw [split]; rfl, ?_⟩
        rw [layout_cons, length_append, ← position]
        omega

section

variable (nonempty : ∀ tile, encode tile ≠ [])
include nonempty

theorem tileAt_eq_none_of_le (beyond : (layout encode tiles).length ≤ offset) :
    tileAt encode tiles offset = none := by
  cases found : tileAt encode tiles offset with
  | none => rfl
  | some tile =>
    obtain ⟨before, after, rfl, rfl⟩ := exists_of_tileAt found
    have positive := length_pos_of_ne_nil (nonempty tile)
    simp only [layout_append, layout_cons, length_append] at beyond
    omega

theorem tileAt_append {first second : List Tile} :
    tileAt encode (first ++ second) offset = if offset < (layout encode first).length then
        tileAt encode first offset
      else
        tileAt encode second (offset - (layout encode first).length) := by
  induction first generalizing offset with
  | nil => simp
  | cons tile rest ih =>
    have positive := length_pos_of_ne_nil (nonempty tile)
    simp only [cons_append, tileAt, layout_cons, length_append]
    by_cases zero : offset = 0
    · rw [if_pos zero, if_pos zero, if_pos (by omega)]
    · rw [if_neg zero, if_neg zero]
      by_cases inside : offset < (encode tile).length
      · rw [if_pos inside, if_pos inside, if_pos (by omega)]
      · rw [if_neg inside, if_neg inside, ih, Nat.sub_sub]
        by_cases early : offset < (encode tile).length + (layout encode rest).length
        · rw [if_pos (by omega), if_pos early]
        · rw [if_neg (by omega), if_neg early]

theorem tileAt_middle {before after : List Tile} :
    tileAt encode (before ++ tile :: after) (layout encode before).length = some tile := by
  rw [tileAt_append nonempty, if_neg (Nat.lt_irrefl _), Nat.sub_self, tileAt, if_pos rfl]

/-- Replacing a tile by one of the same length changes what starts at its
offset and nothing else. -/
theorem tileAt_replace {before after : List Tile} {old new : Tile}
    (sameLength : (encode new).length = (encode old).length) :
    tileAt encode (before ++ new :: after) = update (tileAt encode (before ++ old :: after))
      (layout encode before).length (some new) := by
  funext offset
  by_cases same : offset = (layout encode before).length
  · rw [same, tileAt_middle nonempty, update_self]
  · rw [update_of_ne same, tileAt_append nonempty, tileAt_append nonempty]
    have apart : offset - (layout encode before).length = 0 →
        offset < (layout encode before).length := by
      omega
    by_cases early : offset < (layout encode before).length
    · rw [if_pos early, if_pos early]
    · rw [if_neg early, if_neg early, tileAt, tileAt, if_neg (fun zero => early (apart zero)),
        if_neg (fun zero => early (apart zero)), sameLength]

theorem tileAt_snoc :
    tileAt encode (tiles ++ [tile]) = update (tileAt encode tiles)
      (layout encode tiles).length (some tile) := by
  funext offset
  by_cases same : offset = (layout encode tiles).length
  · rw [same, tileAt_middle nonempty, update_self]
  · rw [update_of_ne same, tileAt_append nonempty]
    by_cases early : offset < (layout encode tiles).length
    · rw [if_pos early]
    · rw [if_neg early, tileAt_eq_none_of_le nonempty (not_lt.mp early), tileAt, if_neg (by omega)]
      split <;> rfl

end

end Skyc.Lib
