import Skyc.Lib.LockBook

/-!
# The books of a discipline

`Owned` says who owns what, and that nobody relies on what somebody else owns.
`Balanced` adds that the calls returned so far, in the order of their returns,
gave the answers of the map and left its contents.
-/

namespace Skyc.Lib

open Function List Set Hold KeyedObject

inductive Owner (Process Lock : Type)
  | process (process : Process)
  | lock (lock : Lock)
deriving DecidableEq

variable {Process File Failure Tile Key Value Lock Call Handle Answer : Type}
  (rules : Discipline File Failure Tile Key Value Lock Call Handle Answer)

/-! ## Ownership -/

/-- Who owns what.  The store of a process is right about everything the
process can rely on. -/
structure Owned (owner : Loc File Key → Owner Process Lock) (actual : Store File Tile Key Value)
    (hold : Process → Hold File Tile Key Value Lock) : Prop where
  guarded : ∀ lock, (∀ process, (hold process).held lock ≠ some .exclusive) →
    rules.invariant lock {loc | owner loc = .lock lock} actual
  taken : ∀ {process lock}, (hold process).held lock = some .exclusive →
    ∀ loc, owner loc ≠ .lock lock
  own : ∀ process loc, loc ∈ (hold process).own ↔ owner loc = .process process
  lent : ∀ {process loc}, loc ∈ (hold process).lent →
    ∃ lock, (hold process).held lock = some .shared ∧ owner loc = .lock lock
  sees : ∀ process, Store.Same (hold process).visible (hold process).store actual

namespace Owned

theorem kept_of_update {Part : Type*} [DecidableEq Process]
    (hold : Process → Hold File Tile Key Value Lock)
    (process : Process) (new : Hold File Tile Key Value Lock)
    (part : Hold File Tile Key Value Lock → Part)
    (same : part new = part (hold process)) (other : Process) :
    part (update hold process new other) = part (hold other) := by
  rcases eq_or_ne other process with rfl | apart
  · rw [update_self, same]
  · rw [update_of_ne apart]

variable {rules} {owner : Loc File Key → Owner Process Lock} {actual : Store File Tile Key Value}
  {hold : Process → Hold File Tile Key Value Lock}
  {process other : Process} {lock : Lock} {loc : Loc File Key}

section

variable (owned : Owned rules owner actual hold)
include owned

theorem not_own_of_lock (ofLock : owner loc = .lock lock) : loc ∉ (hold process).own := by
  intro member
  rw [(owned.own process loc).mp member] at ofLock
  cases ofLock

theorem not_own_of_lent (lent : loc ∈ (hold other).lent) : loc ∉ (hold process).own := by
  obtain ⟨lock, -, ofLock⟩ := owned.lent lent
  exact owned.not_own_of_lock ofLock

theorem not_own_of_visible (apart : other ≠ process) (visible : loc ∈ (hold other).visible) :
    loc ∉ (hold process).own := by
  intro member
  rcases visible with theirs | lent
  · have mine := (owned.own process loc).mp member
    rw [(owned.own other loc).mp theirs] at mine
    exact apart (Owner.process.inj mine)
  · exact owned.not_own_of_lent lent member

end

variable [DecidableEq Process]

theorem change (owned : Owned rules owner actual hold) (process : Process) (offsets : File → ℕ)
    {change : Store File Tile Key Value → Store File Tile Key Value}
    (localTo : Store.LocalTo (hold process).own change) :
    Owned rules owner (change actual) (update hold process
      ((hold process).changed offsets change)) := by
  have sameHeld : ∀ other, (update hold process
      ((hold process).changed offsets change) other).held = (hold other).held :=
    kept_of_update hold process _ Hold.held rfl
  have sameOwn : ∀ other, (update hold process
      ((hold process).changed offsets change) other).own = (hold other).own :=
    kept_of_update hold process _ Hold.own rfl
  have sameLent : ∀ other, (update hold process
      ((hold process).changed offsets change) other).lent = (hold other).lent :=
    kept_of_update hold process _ Hold.lent rfl
  constructor
  · intro lock free
    simp only [sameHeld] at free
    refine rules.invariant_congr ?_ (owned.guarded lock free)
    intro loc ofLock
    exact (localTo.outside actual loc (owned.not_own_of_lock ofLock)).symm
  · intro other lock holds
    rw [sameHeld] at holds
    exact owned.taken holds
  · intro other loc
    rw [sameOwn]
    exact owned.own other loc
  · intro other loc member
    rw [sameLent] at member
    rw [sameHeld]
    exact owned.lent member
  · intro other
    rcases eq_or_ne other process with rfl | apart
    · rw [update_self]
      rintro loc (member | member)
      · apply localTo.inside _ _ ((owned.sees other).mono ?_) loc member
        exact subset_union_left
      · have foreign : loc ∉ (hold other).own := owned.not_own_of_lent member
        exact ((localTo.outside _ loc foreign).trans (owned.sees other loc (.inr member))).trans
          (localTo.outside _ loc foreign).symm
    · rw [update_of_ne apart]
      intro loc member
      have foreign := owned.not_own_of_visible apart member
      exact (owned.sees other loc member).trans (localTo.outside actual loc foreign).symm

section Exchange

variable (owned : Owned rules owner actual hold) {new : Hold File Tile Key Value Lock}
include owned

theorem sees_update (sees : Store.Same new.visible new.store actual) (other : Process) :
    Store.Same (update hold process new other).visible (update hold process new other).store
      actual := by
  rcases eq_or_ne other process with rfl | apart
  · rw [update_self]
    exact sees
  · rw [update_of_ne apart]
    exact owned.sees other

/-- The owners stay as they are when a process changes only what it has borrowed. -/
theorem exchange (sameExclusive : ∀ place, new.held place = some .exclusive ↔
      (hold process).held place = some .exclusive) (sameOwn : new.own = (hold process).own)
    (lent : ∀ loc ∈ new.lent, ∃ lock, new.held lock = some .shared ∧ owner loc = .lock lock)
    (sees : Store.Same new.visible new.store actual) :
    Owned rules owner actual (update hold process new) := by
  have exclusive : ∀ other place, (update hold process new other).held place = some .exclusive ↔
      (hold other).held place = some .exclusive := by
    intro other place
    rcases eq_or_ne other process with rfl | apart
    · rw [update_self]
      exact sameExclusive place
    · rw [update_of_ne apart]
  constructor
  · intro place free
    apply owned.guarded place
    intro other
    rw [Ne, ← exclusive]
    exact free other
  · intro other place holds
    exact owned.taken ((exclusive other place).mp holds)
  · intro other loc
    rw [kept_of_update hold process new Hold.own sameOwn]
    exact owned.own other loc
  · intro other loc member
    rcases eq_or_ne other process with rfl | apart
    · rw [update_self] at member ⊢
      exact lent loc member
    · rw [update_of_ne apart] at member ⊢
      exact owned.lent member
  · exact owned.sees_update sees

end Exchange

section Locks

variable [DecidableEq Lock]

section

variable (owned : Owned rules owner actual hold)
include owned

/-- A process takes a lock exclusively and becomes the owner of what the
lock protected. -/
theorem takeExclusive (unheld : (hold process).held lock = none)
    (unshared : ∀ other, other ≠ process → (hold other).held lock = none) :
    Owned rules (fun loc =>
        if owner loc = .lock lock then .process process else owner loc)
      actual
      (update hold process ((hold process).takeExclusive lock
        {loc | owner loc = .lock lock} actual)) := by
  have untouched : ∀ other, (hold other).held lock = none := by
    intro other
    rcases eq_or_ne other process with rfl | apart
    · exact unheld
    · exact unshared other apart
  have heldElsewhere : ∀ other {place}, place ≠ lock →
      (update hold process ((hold process).takeExclusive lock
        {loc | owner loc = .lock lock} actual) other).held place = (hold other).held place := by
    intro other place elsewhere
    apply kept_of_update hold process _ fun hold => hold.held place
    exact update_of_ne elsewhere ..
  constructor
  · intro place free
    have elsewhere : place ≠ lock := by
      rintro rfl
      apply free process
      rw [update_self]
      exact update_self ..
    have sameLocs :
        {loc | (if owner loc = .lock lock then .process process
          else owner loc) = Owner.lock place} = {loc | owner loc = .lock place} := by
      ext loc
      by_cases here : owner loc = .lock lock
      · simp [here, elsewhere.symm]
      · simp [here]
    rw [sameLocs]
    apply owned.guarded place
    intro other
    rw [← heldElsewhere other elsewhere]
    exact free other
  · intro other place holds loc
    by_cases here : owner loc = .lock lock
    · simp [here]
    · rw [if_neg here]
      rcases eq_or_ne place lock with rfl | elsewhere
      · exact here
      · rw [heldElsewhere other elsewhere] at holds
        exact owned.taken holds loc
  · intro other loc
    have before := owned.own other loc
    rcases eq_or_ne other process with rfl | apart
    · rw [update_self]
      by_cases here : owner loc = .lock lock
      · simp [Hold.takeExclusive, Hold.moved, Hold.acquire, here]
      · simp [Hold.takeExclusive, Hold.moved, Hold.acquire, here, before]
    · rw [update_of_ne apart, before]
      by_cases here : owner loc = .lock lock
      · simp [here, apart.symm]
      · simp [here]
  · intro other loc member
    have sameLent := kept_of_update hold process ((hold process).takeExclusive lock
      {loc | owner loc = .lock lock} actual) Hold.lent rfl other
    rw [sameLent] at member
    obtain ⟨place, holds, ofLock⟩ := owned.lent member
    have elsewhere : place ≠ lock := by
      rintro rfl
      rw [untouched other] at holds
      cases holds
    refine ⟨place, (heldElsewhere other elsewhere).trans holds, ?_⟩
    simp [ofLock, elsewhere]
  · exact owned.sees_update (Store.Same.refl actual)

theorem takeShared (unheld : (hold process).held lock = none) :
    Owned rules owner actual (update hold process ((hold process).takeShared lock
      {loc | owner loc = .lock lock} actual)) := by
  apply owned.exchange
  · intro place
    rcases eq_or_ne place lock with rfl | elsewhere
    · simp [Hold.takeShared, Hold.moved, Hold.borrow, unheld]
    · simp [Hold.takeShared, Hold.moved, Hold.borrow, elsewhere]
  · rfl
  · rintro loc (wasLent | ofLock)
    · obtain ⟨place, holds, ofPlace⟩ := owned.lent wasLent
      refine ⟨place, ?_, ofPlace⟩
      rcases eq_or_ne place lock with rfl | elsewhere
      · simp [Hold.takeShared, Hold.moved, Hold.borrow]
      · simpa [Hold.takeShared, Hold.moved, Hold.borrow, elsewhere] using holds
    · exact ⟨lock, by simp [Hold.takeShared, Hold.moved, Hold.borrow], ofLock⟩
  · exact Store.Same.refl actual

/-- A process gives up an exclusive lock with a part of the store that meets
the invariant. -/
theorem give (exclusive : (hold process).held lock = some .exclusive)
    (alone : ∀ other, (hold other).held lock ≠ none → other = process)
    {given : Set (Loc File Key)} [DecidablePred (· ∈ given)] (own : given ⊆ (hold process).own)
    (invariant :
      rules.invariant lock given (hold process).store) :
    Owned rules (fun loc => if loc ∈ given then .lock lock else owner loc) actual
      (update hold process ((hold process).give lock given)) := by
  have heldElsewhere : ∀ other {place}, place ≠ lock →
      (update hold process ((hold process).give lock given)
        other).held place = (hold other).held place := by
    intro other place elsewhere
    apply kept_of_update hold process _ fun hold => hold.held place
    exact update_of_ne elsewhere ..
  have ofProcess : ∀ {loc}, loc ∈ given → owner loc = .process process :=
    fun member => (owned.own process _).mp (own member)
  constructor
  · intro place free
    rcases eq_or_ne place lock with rfl | elsewhere
    · have givenLocs :
          {loc | (if loc ∈ given then .lock place else owner loc) = Owner.lock place} = given := by
        ext loc
        by_cases member : loc ∈ given
        · simp [member]
        · simp [member, owned.taken exclusive loc]
      rw [givenLocs]
      refine rules.invariant_congr ?_ invariant
      exact (owned.sees process).mono fun loc member => .inl (own member)
    · have sameLocs :
          {loc | (if loc ∈ given then .lock lock else owner loc) =
            Owner.lock place} = {loc | owner loc = .lock place} := by
        ext loc
        by_cases member : loc ∈ given
        · simp [member, elsewhere.symm, ofProcess member]
        · simp [member]
      rw [sameLocs]
      apply owned.guarded place
      intro other
      rw [← heldElsewhere other elsewhere]
      exact free other
  · intro other place holds loc
    rcases eq_or_ne place lock with rfl | elsewhere
    · rcases eq_or_ne other process with rfl | apart
      · simp [Hold.give] at holds
      · rw [update_of_ne apart] at holds
        exact absurd (alone other (by simp [holds])) apart
    · rw [heldElsewhere other elsewhere] at holds
      by_cases member : loc ∈ given
      · simp [member, elsewhere.symm]
      · rw [if_neg member]
        exact owned.taken holds loc
  · intro other loc
    have before := owned.own other loc
    rcases eq_or_ne other process with rfl | apart
    · rw [update_self]
      by_cases member : loc ∈ given
      · simp [Hold.give, member]
      · simp [Hold.give, member, before]
    · rw [update_of_ne apart, before]
      by_cases member : loc ∈ given
      · simp [member, ofProcess member, apart.symm]
      · simp [member]
  · intro other loc lent
    have sameLent := kept_of_update hold process ((hold process).give lock given)
      Hold.lent rfl other
    rw [sameLent] at lent
    obtain ⟨place, holds, ofLock⟩ := owned.lent lent
    have elsewhere : place ≠ lock := by
      rintro rfl
      have same := alone other (by simp [holds])
      rw [same, exclusive] at holds
      cases holds
    have notGiven : loc ∉ given := by
      intro member
      rw [ofProcess member] at ofLock
      cases ofLock
    refine ⟨place, (heldElsewhere other elsewhere).trans holds, ?_⟩
    rw [if_neg notGiven, ofLock]
  · apply owned.sees_update
    apply (owned.sees process).mono
    rintro loc (member | member)
    · exact .inl member.1
    · exact .inr member

omit [DecidableEq Lock] in
theorem dropShared (own : (hold process).own = ∅)
    (shared : ∀ lock, (hold process).held lock ≠ some .exclusive)
    {bare : Hold File Tile Key Value Lock} (empty : bare.Empty) :
    Owned rules owner actual (update hold process bare) := by
  apply owned.exchange
  · intro place
    rw [empty.held place]
    simp [shared place]
  · exact empty.own.trans own.symm
  · intro loc member
    rw [empty.lent] at member
    cases member
  · intro loc member
    rw [visible, empty.own, empty.lent, union_self] at member
    cases member

end

end Locks

end Owned

/-! ## Balanced books -/

variable [DecidableEq Key]

structure Balanced (initial : Key → Value) (files : File → List UInt8)
    (locks : List (Grant Process File))
    (history : List (Completed Process Call Answer)) (owner : Loc File Key → Owner Process Lock)
    (actual : Store File Tile Key Value)
    (hold : Process → Hold File Tile Key Value Lock) : Prop where
  holds : Store.Holds rules.encode files actual
  contents : actual.contents = rules.after initial (history.map Completed.call)
  answers : history.map Completed.answer = rules.answers initial (history.map Completed.call)
  owned : Owned rules owner actual hold
  book : LockBook rules locks fun process => (hold process).held

namespace Balanced

variable {rules} {initial : Key → Value} {files : File → List UInt8}
  {locks : List (Grant Process File)}
  {history : List (Completed Process Call Answer)} {owner : Loc File Key → Owner Process Lock}
  {actual : Store File Tile Key Value} {hold : Process → Hold File Tile Key Value Lock}
  {process : Process} {lock : Lock}

theorem completed_contents (completed : Completed Process Call Answer) (contents :
      actual.contents = rules.after initial (history.map Completed.call)) :
    rules.apply actual.contents completed.call = rules.after initial
      ((history ++ [completed]).map Completed.call) := by
  rw [map_append, after_append, ← contents]
  rfl

theorem completed_answers {completed : Completed Process Call Answer} (contents :
      actual.contents = rules.after initial (history.map Completed.call)) (answers :
      history.map Completed.answer = rules.answers initial (history.map Completed.call))
    (answered :
      (rules.act completed.call (actual.contents (rules.key completed.call))).2 =
        completed.answer) :
    (history ++ [completed]).map Completed.answer = rules.answers initial
      ((history ++ [completed]).map Completed.call) := by
  rw [map_append, map_append, KeyedObject.answers_append, ← contents, answers]
  simp [KeyedObject.answers, answered]

variable {call : Call} {answer : Answer}

section

variable (balanced : Balanced rules initial files locks history owner actual hold)
include balanced

theorem unshared (grantable :
      Grant.Grantable locks process (rules.file lock) .exclusive (rules.region lock))
    (other : Process) (apart : other ≠ process) : (hold other).held lock = none := by
  by_contra holds
  obtain ⟨mode, held⟩ := Option.ne_none_iff_exists'.mp holds
  have shared := balanced.book.shared_of_grantable grantable apart held
  exact absurd shared.2 (by decide)

theorem invariant_of_grantable {mode : LockMode}
    (unheld : (hold process).held lock = none) (grantable :
      Grant.Grantable locks process (rules.file lock) mode (rules.region lock)) :
    rules.invariant lock {loc | owner loc = .lock lock} actual := by
  apply balanced.owned.guarded lock
  intro other holds
  rcases eq_or_ne other process with rfl | apart
  · rw [unheld] at holds
    cases holds
  · have shared := balanced.book.shared_of_grantable grantable apart holds
    exact absurd shared.1 (by decide)

theorem disjoint_own (process : Process) (lock : Lock) :
    Disjoint (hold process).own {loc | owner loc = .lock lock} := by
  rw [Set.disjoint_left]
  intro loc own ofLock
  exact balanced.owned.not_own_of_lock ofLock own

theorem returned (process : Process) (answered :
      ∀ value, rules.act call value = (value, answer)) :
    Balanced rules initial files locks
      (history ++ [⟨process, call, answer⟩]) owner actual hold where
  __ := balanced
  contents := by
    rw [← completed_contents ⟨process, call, answer⟩ balanced.contents, apply, answered]
    exact (update_eq_self ..).symm
  answers := by
    apply completed_answers balanced.contents balanced.answers
    rw [answered]

end

variable [DecidableEq Process]

omit [DecidableEq Key] in
theorem held_update (hold : Process → Hold File Tile Key Value Lock)
    (process : Process) (new : Hold File Tile Key Value Lock) :
    (fun other => (update hold process new other).held) =
      update (fun other => (hold other).held) process new.held := by
  funext other
  exact apply_update (fun _ => held) hold process new other

variable (balanced : Balanced rules initial files locks history owner actual hold)

include balanced in
theorem system (process : Process) (offsets : File → ℕ)
    {change : Store File Tile Key Value → Store File Tile Key Value}
    {newFiles : File → List UInt8} (localTo : Store.LocalTo (hold process).own change)
    (sameContents : ∀ store, (change store).contents = store.contents)
    (holds : Store.Holds rules.encode newFiles (change actual)) :
    Balanced rules initial newFiles locks history owner (change actual)
      (update hold process ((hold process).changed offsets change)) where
  __ := balanced
  holds := holds
  contents := (sameContents actual).trans balanced.contents
  owned := balanced.owned.change process offsets localTo
  book := by
    rw [held_update, show ((hold process).changed offsets change).held =
      (hold process).held from rfl, update_eq_self process fun other => (hold other).held]
    exact balanced.book

variable [DecidableEq File] [DecidableEq Lock]

section

variable (balanced : Balanced rules initial files locks history owner actual hold)
  (unheld : (hold process).held lock = none)

include balanced unheld

theorem lockExclusive (grantable :
      Grant.Grantable locks process (rules.file lock) .exclusive (rules.region lock)) :
    Balanced rules initial files (Grant.acquire locks process (rules.file lock) .exclusive
        (rules.region lock)) history (fun loc =>
        if owner loc = .lock lock then .process process else owner loc)
      actual
      (update hold process ((hold process).takeExclusive lock
        {loc | owner loc = .lock lock} actual)) where
  __ := balanced
  owned := balanced.owned.takeExclusive unheld (balanced.unshared grantable)
  book := by
    rw [held_update]
    exact balanced.book.acquire unheld grantable

theorem lockShared (grantable :
      Grant.Grantable locks process (rules.file lock) .shared (rules.region lock)) :
    Balanced rules initial files (Grant.acquire locks process (rules.file lock) .shared
      (rules.region lock)) history owner actual (update hold process
      ((hold process).takeShared lock {loc | owner loc = .lock lock} actual)) where
  __ := balanced
  owned := balanced.owned.takeShared unheld
  book := by
    rw [held_update]
    exact balanced.book.acquire unheld grantable

end

open Classical in
include balanced in
theorem unlock (exclusive : (hold process).held lock = some .exclusive)
    {given : Set (Loc File Key)} (own : given ⊆ (hold process).own)
    (invariant : rules.invariant lock given (hold process).store) :
    Balanced rules initial files (Grant.release locks process (rules.file lock)
        (rules.region lock)) history (fun loc => if loc ∈ given then .lock lock else owner loc)
      actual (update hold process ((hold process).give lock given)) where
  __ := balanced
  owned := balanced.owned.give exclusive
    (fun _ holds => balanced.book.excludes exclusive holds) own invariant
  book := by
    rw [held_update]
    exact balanced.book.release process lock

variable (rules) in
omit [DecidableEq File] [DecidableEq Lock] in
theorem localTo_commit (call : Call) {locs : Set (Loc File Key)}
    (member : .content (rules.key call) ∈ locs) :
    Store.LocalTo locs (fun store : Store File Tile Key Value =>
      { store with
        contents := rules.apply store.contents call }) where
  outside := by
    intro store loc foreign
    cases loc with
    | tile | size => rfl
    | content key =>
      have apart : key ≠ rules.key call := by
        rintro rfl
        exact foreign member
      exact update_of_ne apart ..
  inside := by
    intro first second same loc inLocs
    cases loc with
    | tile file offset => exact same.tile inLocs
    | size file => exact same.size inLocs
    | content key =>
      have sameEntry := same.content member
      rcases eq_or_ne key (rules.key call) with rfl | apart
      · simp [Store.SameAt, apply, sameEntry]
      · simp [Store.SameAt, apply, apart, same.content inLocs]

section

variable (balanced : Balanced rules initial files locks history owner actual hold)
include balanced

/-- The lock gets back all that the process owns, with the map changed. -/
theorem finishExclusive (lent : (hold process).lent = ∅)
    (exclusive : (hold process).held lock = some .exclusive)
    (only : ∀ other, other ≠ lock → (hold process).held other = none)
    (member : .content (rules.key call) ∈ (hold process).own) (answered :
      (rules.act call ((hold process).store.contents (rules.key call))).2 = answer)
    (invariant :
      rules.invariant lock (hold process).own
        { (hold process).store with
          contents := rules.apply (hold process).store.contents call }) :
    ∃ newOwner newActual newHold, Balanced rules initial files
          (Grant.release locks process (rules.file lock) (rules.region lock))
          (history ++ [⟨process, call, answer⟩]) newOwner newActual (update hold process newHold) ∧
        newHold.Empty ∧ newHold.offsets = (hold process).offsets := by
  classical
  let commit : Store File Tile Key Value → Store File Tile Key Value := fun store =>
    { store with contents := rules.apply store.contents call }
  let committed := (hold process).changed (hold process).offsets commit
  have atProcess : update hold process committed process = committed := update_self ..
  have sameHeld : ∀ other, (update hold process committed other).held =
    (hold other).held := Owned.kept_of_update hold process committed held rfl
  have changed : Owned rules owner (commit actual) (update hold process committed) :=
    balanced.owned.change process (hold process).offsets (localTo_commit rules call member)
  have given : Owned rules (fun loc =>
          if loc ∈ (hold process).own then .lock lock else owner loc)
        (commit actual)
        (update (update hold process committed) process
          ((update hold process committed process).give lock (hold process).own)) := by
    apply changed.give
    · rw [sameHeld]
      exact exclusive
    · intro other holds
      rw [sameHeld] at holds
      exact balanced.book.excludes exclusive holds
    · rw [atProcess]
      exact Set.Subset.rfl
    · rw [atProcess]
      exact invariant
  rw [atProcess, update_idem] at given
  have entry : (hold process).store.contents (rules.key call) = actual.contents (rules.key call) :=
    (balanced.owned.sees process).content (.inl member)
  refine ⟨_, commit actual, committed.give lock (hold process).own,
    ⟨balanced.holds, ?_, ?_, given, ?_⟩, ⟨Set.sdiff_self, lent, released only⟩, rfl⟩
  · exact completed_contents ⟨process, call, answer⟩ balanced.contents
  · apply completed_answers balanced.contents balanced.answers
    rw [← entry]
    exact answered
  · rw [held_update]
    exact balanced.book.release process lock

/-- The last step of a call under a shared lock, which leaves the map as it
is. -/
theorem finishShared (own : (hold process).own = ∅)
    (shared : (hold process).held lock = some .shared)
    (only : ∀ other, other ≠ lock → (hold process).held other = none)
    (member : .content (rules.key call) ∈ (hold process).lent) (answered :
      rules.act call ((hold process).store.contents (rules.key call)) =
        ((hold process).store.contents (rules.key call), answer)) :
    ∃ newHold, Balanced rules initial files (Grant.release locks process (rules.file lock)
            (rules.region lock)) (history ++ [⟨process, call, answer⟩]) owner actual
          (update hold process newHold) ∧
        newHold.Empty ∧ newHold.offsets = (hold process).offsets := by
  let bare : Hold File Tile Key Value Lock :=
    { hold process with
      lent := ∅
      held := update (hold process).held lock none }
  have empty : bare.Empty := ⟨own, rfl, released only⟩
  have notExclusive : ∀ other, (hold process).held other ≠ some .exclusive := by
    intro other
    rcases eq_or_ne other lock with rfl | apart
    · simp [shared]
    · simp [only other apart]
  have entry : (hold process).store.contents (rules.key call) = actual.contents (rules.key call) :=
    (balanced.owned.sees process).content (.inr member)
  rw [entry] at answered
  have unchanged : rules.apply actual.contents call = actual.contents := by
    rw [apply, answered]
    exact update_eq_self ..
  refine ⟨bare, ⟨balanced.holds, ?_, ?_, ?_, ?_⟩, empty, rfl⟩
  · rw [← completed_contents ⟨process, call, answer⟩ balanced.contents, unchanged]
  · apply completed_answers balanced.contents balanced.answers
    rw [answered]
  · exact balanced.owned.dropShared own notExclusive empty
  · rw [held_update]
    exact balanced.book.release process lock

omit [DecidableEq File] in
/-- A process is terminated in a moment when its lock can have back all that
somebody needs. -/
theorem dropped (droppable : Droppable rules (hold process)) :
    ∃ newOwner newHold, Balanced rules initial files
          (locks.filter fun grant => grant.process ≠ process) history
          newOwner actual (update hold process newHold) ∧
        newHold.Rests rules.waste ∧ newHold.offsets = (hold process).offsets := by
  classical
  have book := balanced.book.drop process
  cases droppable with
  | shared own shared =>
    let bare : Hold File Tile Key Value Lock :=
      { hold process with own := ∅, lent := ∅, held := fun _ => none }
    have empty : bare.Empty := ⟨rfl, rfl, fun _ => rfl⟩
    refine ⟨owner, bare, { balanced with owned := ?_, book := ?_ }, empty.rests, rfl⟩
    · exact balanced.owned.dropShared own shared empty
    · rw [held_update]
      exact book
  | @exclusive lock given exclusive only own wasted invariant =>
    have owned := balanced.owned.give exclusive
      (fun _ holds => balanced.book.excludes exclusive holds) own invariant
    refine ⟨_, _, { balanced with owned, book := ?_ }, ⟨wasted, released only⟩, rfl⟩
    rw [held_update, give, funext (released only)]
    exact book

end

end Balanced

end Skyc.Lib
