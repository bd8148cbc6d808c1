import Skyc.Lib.Tiles

/-!
# Stores of tiles

The content of tiled files: what starts at each offset, how long the files are,
and the map that the files stand for.  `Same` compares two stores on a set of
locations and `LocalTo` bounds what a change depends on.
-/

namespace Skyc.Lib

open Function

/-- The things that have an owner. -/
inductive Loc (File Key : Type)
  | tile (file : File) (offset : ℕ)
  | size (file : File)
  | content (key : Key)

/-- The tiles of the files by offset, the sizes of the files, and the map
that the files stand for. -/
@[ext]
structure Store (File Tile Key Value : Type) where
  tile : File → ℕ → Option Tile
  size : File → ℕ
  contents : Key → Value

namespace Store

variable {File Tile Key Value : Type}

def SameAt (first second : Store File Tile Key Value) : Loc File Key → Prop
  | .tile file offset => first.tile file offset = second.tile file offset
  | .size file => first.size file = second.size file
  | .content key => first.contents key = second.contents key

def Same (locs : Set (Loc File Key)) (first second : Store File Tile Key Value) : Prop :=
  ∀ loc ∈ locs, first.SameAt second loc

variable {first second third : Store File Tile Key Value}
  {locs smaller : Set (Loc File Key)} {loc : Loc File Key}

theorem SameAt.refl (store : Store File Tile Key Value) (loc : Loc File Key) :
    store.SameAt store loc := by
  cases loc <;> rfl

theorem SameAt.symm (same : first.SameAt second loc) : second.SameAt first loc := by
  cases loc <;> exact Eq.symm same

theorem SameAt.trans (left : first.SameAt second loc) (right : second.SameAt third loc) :
    first.SameAt third loc := by
  cases loc <;> exact Eq.trans left right

theorem Same.refl (store : Store File Tile Key Value) :
    Same locs store store := fun loc _ => SameAt.refl store loc

variable (same : Same locs first second)

include same in
theorem Same.mono (subset : smaller ⊆ locs) :
    Same smaller first second := fun loc member => same loc (subset member)

variable {file : File} {offset : ℕ}

include same in
theorem Same.tile (member : .tile file offset ∈ locs) :
    first.tile file offset = second.tile file offset := same _ member

include same in
theorem Same.size (member : .size file ∈ locs) :
    first.size file = second.size file := same _ member

include same in
theorem Same.content {key : Key} (member : .content key ∈ locs) :
    first.contents key = second.contents key := same _ member

variable [DecidableEq File]

section

variable (store : Store File Tile Key Value)

def setTile (file : File) (offset : ℕ) (tile : Tile) : Store File Tile Key Value :=
  { store with
    tile := update store.tile file (update (store.tile file) offset (some tile)) }

def setSize (file : File) (size : ℕ) : Store File Tile Key Value :=
  { store with size := update store.size file size }

@[simp]
theorem size_setSize_self (file : File) (size : ℕ) :
    (store.setSize file size).size file = size := update_self ..

@[simp]
theorem tile_setTile_self (file : File) (offset : ℕ) (tile : Tile) :
    (store.setTile file offset tile).tile file offset = some tile := by
  simp [setTile]

theorem tile_setTile_of_ne {other : File} {position : ℕ} (tile : Tile) (different :
      (Loc.tile other position : Loc File Key) ≠ .tile file offset) :
    (store.setTile file offset tile).tile other position = store.tile other position := by
  by_cases sameFile : other = file
  · subst sameFile
    have apart : position ≠ offset := fun same => different (by rw [same])
    simp [setTile, apart]
  · simp [setTile, sameFile]

theorem setTile_sameAt (tile : Tile) (apart : loc ≠ .tile file offset) :
    (store.setTile file offset tile).SameAt store loc := by
  cases loc with
  | tile other position => exact tile_setTile_of_ne store tile apart
  | size | content => rfl

theorem setSize_sameAt (size : ℕ) (different : loc ≠ .size file) :
    (store.setSize file size).SameAt store loc := by
  cases loc with
  | tile | content => rfl
  | size other =>
    have apart : other ≠ file := fun same => different (by rw [same])
    exact update_of_ne apart ..

end

include same in
theorem Same.setTile (file : File) (offset : ℕ) (tile : Tile) :
    Same locs (first.setTile file offset tile) (second.setTile file offset tile) := by
  intro loc member
  by_cases here : loc = .tile file offset
  · subst here
    exact (tile_setTile_self first file offset tile).trans
      (tile_setTile_self second file offset tile).symm
  · exact ((setTile_sameAt first tile here).trans (same loc member)).trans
      (setTile_sameAt second tile here).symm

include same in
theorem Same.setSize (file : File) (size : ℕ) :
    Same locs (first.setSize file size) (second.setSize file size) := by
  intro loc member
  by_cases here : loc = .size file
  · subst here
    exact (size_setSize_self first file size).trans (size_setSize_self second file size).symm
  · exact ((setSize_sameAt first size here).trans (same loc member)).trans
      (setSize_sameAt second size here).symm

/-- A change that reads and writes only the given locations. -/
structure LocalTo (locs : Set (Loc File Key))
    (change : Store File Tile Key Value → Store File Tile Key Value) : Prop where
  outside : ∀ store, ∀ loc ∉ locs, (change store).SameAt store loc
  inside : ∀ first second, Same locs first second → Same locs (change first) (change second)

omit [DecidableEq File] in
theorem LocalTo.id : LocalTo locs (fun store : Store File Tile Key Value => store) where
  outside := fun store loc _ => SameAt.refl store loc
  inside := fun _ _ same => same

theorem LocalTo.setTile (own : Loc.tile file offset ∈ locs) (tile : Tile) :
    LocalTo locs (fun store : Store File Tile Key Value =>
      store.setTile file offset tile) where
  outside := by
    intro store loc foreign
    apply setTile_sameAt
    rintro rfl
    exact foreign own
  inside := fun _ _ same => same.setTile file offset tile

theorem LocalTo.append (ownTile : Loc.tile file offset ∈ locs)
    (ownSize : Loc.size file ∈ locs) (tile : Tile) (size : ℕ) :
    LocalTo locs (fun store : Store File Tile Key Value =>
      (store.setTile file offset tile).setSize file size) where
  outside := by
    intro store loc foreign
    have notSize : loc ≠ .size file := by
      rintro rfl
      exact foreign ownSize
    have notTile : loc ≠ .tile file offset := by
      rintro rfl
      exact foreign ownTile
    exact (setSize_sameAt _ size notSize).trans (setTile_sameAt store tile notTile)
  inside := fun _ _ same =>
    (same.setTile file offset tile).setSize file size

/-! ## Stores and files -/

/-- The files consist of the tiles of the store. -/
def Holds (encode : Tile → List UInt8) (files : File → List UInt8)
    (store : Store File Tile Key Value) : Prop :=
  ∃ tiles : File → List Tile, ∀ file, files file = layout encode (tiles file) ∧
    store.tile file = tileAt encode (tiles file) ∧
    store.size file = (files file).length

variable {encode : Tile → List UInt8} {files : File → List UInt8}
  {store : Store File Tile Key Value}

variable (holds : Holds encode files store)

include holds in
omit [DecidableEq File] in
theorem Holds.read {start skip count : ℕ} {tile : Tile}
    (found : store.tile file start = some tile) (inside : skip + count ≤ (encode tile).length) :
    readAt (files file) (start + skip) count = readAt (encode tile) skip count := by
  obtain ⟨tiles, represented⟩ := holds
  obtain ⟨bytes, tileAtFile, -⟩ := represented file
  rw [tileAtFile] at found
  obtain ⟨before, after, split, rfl⟩ := exists_of_tileAt found
  rw [bytes, split, layout_append, layout_cons]
  exact readAt_append_middle _ _ _ inside

include holds in
omit [DecidableEq File] in
theorem Holds.tile_inside {start : ℕ} {tile : Tile} (found : store.tile file start = some tile) :
    start + (encode tile).length ≤ (files file).length := by
  obtain ⟨tiles, represented⟩ := holds
  obtain ⟨bytes, tileAtFile, -⟩ := represented file
  rw [tileAtFile] at found
  obtain ⟨before, after, split, rfl⟩ := exists_of_tileAt found
  rw [bytes, split, layout_append, layout_cons, List.length_append, List.length_append]
  omega

include holds in
theorem Holds.write (nonempty : ∀ tile, encode tile ≠ []) {start skip : ℕ} {old new : Tile}
    {bytes : List UInt8} (found : store.tile file start = some old)
    (inside : skip + bytes.length ≤ (encode old).length)
    (written : encode new = writeAt (encode old) skip bytes) :
    Holds encode (update files file (writeAt (files file) (start + skip) bytes))
      (store.setTile file start new) := by
  obtain ⟨tiles, represented⟩ := holds
  obtain ⟨fileBytes, tileAtFile, size⟩ := represented file
  rw [tileAtFile] at found
  obtain ⟨before, after, split, rfl⟩ := exists_of_tileAt found
  have sameLength : (encode new).length = (encode old).length := by
    simp only [written, writeAt, List.length_append, List.length_take, List.length_replicate,
      List.length_drop]
    omega
  have newBytes : writeAt (files file) ((layout encode before).length + skip) bytes =
      layout encode (before ++ new :: after) := by
    rw [fileBytes, split, layout_append, layout_cons,
      writeAt_append_middle _ _ _ _ inside, ← written, ← layout_cons, ← layout_append]
  refine ⟨update tiles file (before ++ new :: after), ?_⟩
  intro other
  by_cases same : other = file
  · subst same
    simp only [update_self, setTile]
    refine ⟨newBytes, ?_, ?_⟩
    · rw [tileAt_replace nonempty sameLength, ← split, ← tileAtFile]
    · rw [newBytes, size, fileBytes, split]
      simp [sameLength]
  · simp only [update_of_ne same, setTile]
    exact represented other

include holds in
theorem Holds.append (nonempty : ∀ tile, encode tile ≠ []) (file : File) (new : Tile) :
    Holds encode (update files file (writeAt (files file) (store.size file) (encode new)))
      ((store.setTile file (store.size file) new).setSize file
        (store.size file + (encode new).length)) := by
  obtain ⟨tiles, represented⟩ := holds
  obtain ⟨bytes, tileAtFile, size⟩ := represented file
  have newBytes : writeAt (files file) (store.size file) (encode new) =
      layout encode (tiles file ++ [new]) := by
    rw [size, writeAt_length, bytes]
    simp
  refine ⟨update tiles file (tiles file ++ [new]), ?_⟩
  intro other
  by_cases same : other = file
  · subst same
    simp only [update_self, setTile, setSize]
    refine ⟨newBytes, ?_, ?_⟩
    · rw [tileAt_snoc nonempty, ← tileAtFile, ← bytes, ← size]
    · rw [newBytes, size, bytes]
      simp
  · simp only [update_of_ne same, setTile, setSize]
    exact represented other

end Store

end Skyc.Lib
