import Skyc.Lib.TiledStore

/-!
# A locking discipline for shared files

Every tile, end of a file and entry of the map that the files stand for is owned
by a process or a lock.  A lock that nobody holds exclusively owns what its
invariant describes; a process that takes it exclusively becomes the owner, and
one that shares it may look.
-/

namespace Skyc.Lib

open Function List Set

/-! ## Maps with calls on single keys -/

structure KeyedObject (Key Value Call Answer : Type) where
  key : Call → Key
  act : Call → Value → Value × Answer

namespace KeyedObject

variable {Key Value Call Answer : Type} [DecidableEq Key]
  (object : KeyedObject Key Value Call Answer)

def apply (contents : Key → Value) (call : Call) : Key → Value :=
  update contents (object.key call) (object.act call (contents (object.key call))).1

def after (contents : Key → Value) (calls : List Call) : Key → Value :=
  calls.foldl object.apply contents

def answers : (Key → Value) → List Call → List Answer
  | _, [] => []
  | contents, call :: rest =>
    (object.act call (contents (object.key call))).2 :: answers (object.apply contents call) rest

theorem after_append (contents : Key → Value) (first second : List Call) :
    object.after contents (first ++ second) = object.after (object.after contents first) second :=
  foldl_append

theorem answers_append (contents : Key → Value) (first second : List Call) :
    object.answers contents (first ++ second) = object.answers contents first ++
      object.answers (object.after contents first) second := by
  induction first generalizing contents with
  | nil => rfl
  | cons call rest ih =>
    simp only [cons_append, answers, ih]
    rfl

end KeyedObject

/-! ## The discipline -/

/-- The encoding of the tiles, the byte ranges of the locks and what they
protect, the calls and the failures they may end in, with the files as they
then are.  After a harmless failure the locks still protect what they should;
nobody misses the waste that a terminated process leaves. -/
structure Discipline (File Failure Tile Key Value Lock Call Handle Answer : Type)
    extends KeyedObject Key Value Call Answer where
  encode : Tile → List UInt8
  encode_ne_nil : ∀ tile, encode tile ≠ []
  file : Lock → File
  region : Lock → Region
  covers_start : ∀ lock, (region lock).Covers (region lock).start
  separate : ∀ {lock other}, file other = file lock → (region lock).Covers (region other).start →
    other = lock
  invariant : Lock → Set (Loc File Key) → Store File Tile Key Value → Prop
  invariant_congr : ∀ {lock locs first second}, Store.Same locs first second →
    invariant lock locs first → invariant lock locs second
  admits : Call → Prop
  tolerates : Call → Failure → (File → List UInt8) → Prop
  harmless : Call → Failure → Prop
  waste : Set (Loc File Key)
  good : Handle → Prop

/-- What a process in a call owns, may look at and locks, its file offsets, and the
store as far as it can see it. -/
structure Hold (File Tile Key Value Lock : Type) where
  own : Set (Loc File Key)
  lent : Set (Loc File Key)
  held : Lock → Option LockMode
  offsets : File → ℕ
  store : Store File Tile Key Value

namespace Hold

variable {File Tile Key Value Lock : Type} (hold : Hold File Tile Key Value Lock)

def visible : Set (Loc File Key) :=
  hold.own ∪ hold.lent

structure Empty : Prop where
  own : hold.own = ∅
  lent : hold.lent = ∅
  held : ∀ lock, hold.held lock = none

/-- The process is in no call, but it may have been terminated in one. -/
structure Rests (waste : Set (Loc File Key)) : Prop where
  own : hold.own ⊆ waste
  held : ∀ lock, hold.held lock = none

variable {hold} in
theorem Empty.rests {waste : Set (Loc File Key)} (empty : hold.Empty) : hold.Rests waste :=
  ⟨empty.own ▸ empty_subset waste, empty.held⟩

def moved (offsets : File → ℕ) (store : Store File Tile Key Value) :
    Hold File Tile Key Value Lock :=
  { hold with offsets, store }

def changed (offsets : File → ℕ)
    (change : Store File Tile Key Value → Store File Tile Key Value) :
    Hold File Tile Key Value Lock :=
  hold.moved offsets (change hold.store)

def gain (loc : Loc File Key) : Hold File Tile Key Value Lock :=
  { hold with own := {other | other = loc ∨ other ∈ hold.own} }

variable [DecidableEq Lock] (lock : Lock) (taken : Set (Loc File Key))
  (store : Store File Tile Key Value)

def acquire : Hold File Tile Key Value Lock :=
  { hold with
    own := hold.own ∪ taken
    held := update hold.held lock (some .exclusive) }

def borrow : Hold File Tile Key Value Lock :=
  { hold with
    lent := hold.lent ∪ taken
    held := update hold.held lock (some .shared) }

def takeExclusive : Hold File Tile Key Value Lock :=
  (hold.acquire lock taken).moved hold.offsets store

def takeShared : Hold File Tile Key Value Lock :=
  (hold.borrow lock taken).moved hold.offsets store

def give (given : Set (Loc File Key)) : Hold File Tile Key Value Lock :=
  { hold with
    own := hold.own \ given
    held := update hold.held lock none }

variable {loc : Loc File Key}

theorem held_acquire_self : (hold.acquire lock taken).held lock = some .exclusive := update_self ..

variable {taken}

theorem mem_own_acquire (member : loc ∈ taken) :
    loc ∈ (hold.acquire lock taken).own := .inr member

variable {lock}

theorem released {held : Lock → Option LockMode} (only : ∀ other, other ≠ lock → held other = none)
    (other : Lock) : update held lock none other = none := by
  rcases eq_or_ne other lock with rfl | apart
  · exact update_self ..
  · rw [update_of_ne apart, only other apart]

theorem held_give_acquire (taken given : Set (Loc File Key)) (unheld : hold.held lock = none) :
    ((hold.acquire lock taken).give lock given).held = hold.held := by
  simp only [give, acquire]
  rw [update_idem, ← unheld, update_eq_self]

theorem give_acquire (unheld : hold.held lock = none) (disjoint : Disjoint hold.own taken)
    (member : loc ∈ taken) :
    (hold.acquire lock taken).give lock {other | other ∈ taken ∧ other ≠ loc} = hold.gain loc := by
  have owned : (hold.own ∪ taken) \ {other | other ∈ taken ∧ other ≠ loc} =
      {other | other = loc ∨ other ∈ hold.own} := by
    ext other
    have apart : other ∈ hold.own → other ∉ taken := fun own => disjoint_left.mp disjoint own
    simp only [mem_sdiff, mem_union, mem_ofPred_eq, not_and, not_not]
    constructor
    · rintro ⟨mine | theirs, kept⟩
      · exact .inr mine
      · exact .inl (kept theirs)
    · rintro (rfl | mine)
      · exact ⟨.inr member, fun _ => rfl⟩
      · exact ⟨.inl mine, fun theirs => absurd theirs (apart mine)⟩
  have released := hold.held_give_acquire taken {other | other ∈ taken ∧ other ≠ loc} unheld
  simp only [give, acquire] at released
  simp only [give, acquire, gain, owned, released]

end Hold

variable {File Failure Tile Key Value Lock Call Handle Answer : Type}
  (rules : Discipline File Failure Tile Key Value Lock Call Handle Answer)

/-- A process may be terminated: it only looks at what others own, or the one
lock that it holds can have back all that it owns, except for waste. -/
inductive Droppable (hold : Hold File Tile Key Value Lock) : Prop
  | shared : hold.own = ∅ → (∀ lock, hold.held lock ≠ some .exclusive) → Droppable hold
  | exclusive {lock given} : hold.held lock = some .exclusive →
    (∀ other, other ≠ lock → hold.held other = none) → given ⊆ hold.own →
    hold.own \ given ⊆ rules.waste → rules.invariant lock given hold.store → Droppable hold

/-- The failure is one that the call may end in, as far as the process can see
the files. -/
def Tolerable (call : Call) (failure : Failure) (hold : Hold File Tile Key Value Lock) : Prop :=
  ∀ files actual, Store.Holds rules.encode files actual →
    Store.Same hold.visible hold.store actual → rules.tolerates call failure files

variable [DecidableEq File] [DecidableEq Lock] [DecidableEq Key]

/-- The rest of a call keeps the discipline. -/
inductive Safe (call : Call) : Program File Failure (Handle × Answer) →
      Hold File Tile Key Value Lock → Prop
  | returns {hold handle answer} :
    hold.Empty →
    rules.good handle →
    (∀ value, rules.act call value = (value, answer)) →
    Safe call (.done (handle, answer)) hold
  | fails {hold failure} :
    Tolerable rules call failure hold →
    ¬ rules.harmless call failure →
    Safe call (.abort failure) hold
  | stops {hold failure} :
    Tolerable rules call failure hold →
    Droppable rules hold →
    Safe call (.abort failure) hold
  | system {Result : Type} {operation : FileOp File Result}
    {rest : Result → Program File Failure (Handle × Answer)} {hold result offsets}
    {change : Store File Tile Key Value → Store File Tile Key Value} :
    Store.LocalTo hold.own change →
    (∀ store, (change store).contents = store.contents) →
    (∀ files actual, Store.Holds rules.encode files actual →
      Store.Same hold.visible hold.store actual →
        ∃ newFiles, operation.exec files hold.offsets = (result, offsets, newFiles) ∧
          Store.Holds rules.encode newFiles (change actual)) →
    Safe call (rest result) (hold.changed offsets change) →
    Safe call (.system operation rest) hold
  | loop {State Left : Type} {body : State → Program File Failure (State ⊕ Left)}
    {rest : Left → Program File Failure (Handle × Answer)} {hold state} :
    Safe call (Program.unroll body state rest) hold →
    Safe call (.loop body state rest) hold
  | lockExclusive {hold : Hold File Tile Key Value Lock} {lock rest} : hold.held lock = none →
    (∀ taken store, Disjoint hold.own taken → Store.Same hold.visible hold.store store →
      rules.invariant lock taken store → Safe call rest (hold.takeExclusive lock taken store)) →
    Safe call (.lock (rules.file lock) .exclusive (rules.region lock) rest) hold
  | lockShared {hold lock rest} : hold.held lock = none →
    (∀ taken store, Store.Same hold.visible hold.store store → rules.invariant lock taken store →
      Safe call rest (hold.takeShared lock taken store)) →
    Safe call (.lock (rules.file lock) .shared (rules.region lock) rest) hold
  | unlock {hold lock given rest} :
    hold.held lock = some .exclusive →
    given ⊆ hold.own →
    rules.invariant lock given hold.store →
    Safe call rest (hold.give lock given) →
    Safe call (.unlock (rules.file lock) (rules.region lock) rest) hold
  | finishExclusive {hold lock handle answer} : hold.lent = ∅ → hold.held lock = some .exclusive →
    (∀ other, other ≠ lock → hold.held other = none) →
    rules.good handle →
    .content (rules.key call) ∈ hold.own →
    (rules.act call (hold.store.contents (rules.key call))).2 = answer →
    rules.invariant lock hold.own { hold.store with
      contents := rules.apply hold.store.contents call } →
    Safe call (.unlock (rules.file lock) (rules.region lock) (.done (handle, answer))) hold
  | finishShared {hold lock handle answer} : hold.own = ∅ → hold.held lock = some .shared →
    (∀ other, other ≠ lock → hold.held other = none) →
    rules.good handle →
    .content (rules.key call) ∈ hold.lent →
    rules.act call (hold.store.contents (rules.key call)) =
      (hold.store.contents (rules.key call), answer) →
    Safe call (.unlock (rules.file lock) (rules.region lock) (.done (handle, answer))) hold

namespace Safe

/-! ## Rules for the system calls -/

variable {rules} {call : Call} {hold : Hold File Tile Key Value Lock}
  {offsets : File → ℕ} {store : Store File Tile Key Value} {file : File}

theorem seekSet {rest : ℤ → Program File Failure (Handle × Answer)} {target : ℕ} (continues :
      Safe rules call (rest target) (hold.moved (update offsets file target) store)) :
    Safe rules call (.system (.lseek file target .seekSet) rest) (hold.moved offsets store) := by
  refine Safe.system Store.LocalTo.id (fun _ => rfl) ?_ continues
  intro files actual holds _
  refine ⟨files, ?_, holds⟩
  simp [FileOp.exec, Whence.base, Hold.moved]

theorem seekEnd {rest : ℤ → Program File Failure (Handle × Answer)}
    (visible : .size file ∈ hold.visible) (continues :
      Safe rules call (rest (store.size file))
        (hold.moved (update offsets file (store.size file)) store)) :
    Safe rules call (.system (.lseek file 0 .seekEnd) rest) (hold.moved offsets store) := by
  refine Safe.system Store.LocalTo.id (fun _ => rfl) ?_ continues
  intro files actual holds same
  refine ⟨files, ?_, holds⟩
  obtain ⟨tiles, represented⟩ := holds
  have size : store.size file = (files file).length :=
    (same.size visible).trans (represented file).2.2
  simp [FileOp.exec, Whence.base, Hold.moved, size]

variable {start : ℕ} {rest : ℕ → Program File Failure (Handle × Answer)} {bytes : List UInt8}
  {region : Region}

theorem read {rest : List UInt8 → Program File Failure (Handle × Answer)}
    {skip count : ℕ} {tile : Tile} (visible : .tile file start ∈ hold.visible)
    (found : store.tile file start = some tile) (position : offsets file = start + skip)
    (inside : skip + count ≤ (rules.encode tile).length) (continues :
      Safe rules call (rest (readAt (rules.encode tile) skip count)) (hold.moved
        (update offsets file (start + (skip + count))) store)) :
    Safe rules call (.system (.read file count) rest) (hold.moved offsets store) := by
  refine Safe.system Store.LocalTo.id (fun _ => rfl) ?_ continues
  intro files actual holds same
  refine ⟨files, ?_, holds⟩
  have present : actual.tile file start = some tile := (same.tile visible).symm.trans found
  have bytes := holds.read present inside
  have complete : (readAt (rules.encode tile) skip count).length = count := by
    simp only [readAt, length_take, length_drop]
    omega
  simp only [FileOp.exec, Hold.moved, position, bytes, complete, Nat.add_assoc]

theorem write {skip : ℕ} {old new : Tile} (own : .tile file start ∈ hold.own)
    (found : store.tile file start = some old) (position : offsets file = start + skip)
    (inside : skip + bytes.length ≤ (rules.encode old).length) (written :
      rules.encode new = writeAt (rules.encode old) skip bytes) (continues :
      Safe rules call (rest bytes.length) (hold.moved
        (update offsets file (offsets file + bytes.length)) (store.setTile file start new))) :
    Safe rules call (.system (.write file bytes) rest) (hold.moved offsets store) := by
  refine Safe.system (Store.LocalTo.setTile own new) (fun _ => rfl) ?_ continues
  intro files actual holds same
  have present : actual.tile file start = some old := (same.tile (.inl own)).symm.trans found
  refine ⟨_, rfl, ?_⟩
  have here : (hold.moved offsets store).offsets file = start + skip := position
  rw [here]
  exact holds.write rules.encode_ne_nil present inside written

theorem overwrite (new : Tile) {old : Tile} (own : .tile file start ∈ hold.own)
    (found : store.tile file start = some old) (position : offsets file = start)
    (encoded : bytes = rules.encode new) (sameLength :
      (rules.encode new).length = (rules.encode old).length) (continues :
      Safe rules call (rest bytes.length) (hold.moved
        (update offsets file (offsets file + bytes.length)) (store.setTile file start new))) :
    Safe rules call (.system (.write file bytes) rest) (hold.moved offsets store) := by
  subst encoded
  have inside : 0 + (rules.encode new).length ≤ (rules.encode old).length := by
    rw [sameLength, Nat.zero_add]
  have here : offsets file = start + 0 := position
  exact Safe.write own found here inside (writeAt_all sameLength).symm continues

theorem append (new : Tile)
    (ownSize : .size file ∈ hold.own) (ownTile : .tile file (store.size file) ∈ hold.own)
    (position : offsets file = store.size file) (encoded : bytes = rules.encode new)
    (continues :
      Safe rules call (rest bytes.length) (hold.moved
        (update offsets file (offsets file + bytes.length))
        ((store.setTile file (store.size file) new).setSize file
          (store.size file + bytes.length)))) :
    Safe rules call (.system (.write file bytes) rest) (hold.moved offsets store) := by
  refine Safe.system (Store.LocalTo.append ownTile ownSize new _) (fun _ => rfl) ?_ continues
  intro files actual holds same
  have size : store.size file = actual.size file := same.size (.inl ownSize)
  refine ⟨_, rfl, ?_⟩
  have here : (hold.moved offsets store).offsets file = actual.size file := position.trans size
  rw [here, size, encoded]
  exact holds.append rules.encode_ne_nil file new

/-! ## Rules for the locks -/

variable (lock : Lock) (atFile : rules.file lock = file) (atRegion : rules.region lock = region)

include atFile atRegion

theorem takeLock {rest : Program File Failure (Handle × Answer)}
    (unheld : hold.held lock = none) (continues :
      ∀ taken found, Disjoint hold.own taken → Store.Same hold.visible store found →
        rules.invariant lock taken found →
          Safe rules call rest ((hold.acquire lock taken).moved offsets found)) :
    Safe rules call (.lock file .exclusive region rest) (hold.moved offsets store) := by
  subst atFile atRegion
  exact Safe.lockExclusive unheld continues

theorem releaseLock {given : Set (Loc File Key)} {rest : Program File Failure (Handle × Answer)}
    (exclusive : hold.held lock = some .exclusive)
    (own : given ⊆ hold.own) (invariant : rules.invariant lock given store) (continues :
      Safe rules call rest ((hold.give lock given).moved offsets store)) :
    Safe rules call (.unlock file region rest) (hold.moved offsets store) := by
  subst atFile atRegion
  exact Safe.unlock exclusive own invariant continues

end Safe

end Skyc.Lib
