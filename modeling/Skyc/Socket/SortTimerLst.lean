import Skyc.Lib.DoublyLinked

/-!
# The sorted timer list

`11.2.lst_timer.h` keeps timers in a doubly linked list sorted by expiry time.  A
result is missing when the code dereferences a pointer that is not a timer or when a
loop exceeds the number of timers created so far.  `tail` means something only while
`head` is not `NULL`.
-/

namespace Skyc.Socket.SortTimerLst

open Skyc.Lib Function List Option Nat Int Cells

/-- `sort_timer_lst` with the memory of the timers.  The data of a timer is
its `expire`. -/
structure TimerList where
  cells : Cells ℤ
  head : Option Addr
  tail : Option Addr
  /-- The timers created so far. -/
  created : ℕ
  /-- The timers whose callback has run, in order. -/
  fired : List Addr

def empty : TimerList where
  cells := fun _ => none
  head := none
  tail := none
  created := 0
  fired := []

/-! ## The functions -/

/-- The loop of `add_timer(timer, lst_head)`. -/
def insertFrom (timer : Addr) (expire : ℤ) : ℕ → TimerList → Addr → Option Addr → Option TimerList
  | 0, _, _, _ => none
  | _ + 1, list, prev, none => do
    let cells ← list.cells.setNext prev (some timer)
    let cells ← cells.setPrev timer (some prev)
    let cells ← cells.setNext timer none
    return { list with cells, tail := some timer }
  | fuel + 1, list, prev, some tmp => do
    let cell ← list.cells tmp
    if expire < cell.data then
      let cells ← list.cells.setNext prev (some timer)
      let cells ← cells.setNext timer (some tmp)
      let cells ← cells.setPrev tmp (some timer)
      let cells ← cells.setPrev timer (some prev)
      return { list with cells }
    else
      insertFrom timer expire fuel list tmp cell.next

/-- `add_timer(timer, lst_head)` -/
def addTimerFrom (list : TimerList) (timer lstHead : Addr) : Option TimerList := do
  let cell ← list.cells timer
  let first ← list.cells lstHead
  insertFrom timer cell.data (list.created + 1) list lstHead first.next

/-- `add_timer(timer)` -/
def addTimer (list : TimerList) (timer : Addr) : Option TimerList :=
  match list.head with
  | none => some { list with head := some timer, tail := some timer }
  | some head => do
    let cell ← list.cells timer
    let first ← list.cells head
    if cell.data < first.data then
      let cells ← list.cells.setNext timer (some head)
      let cells ← cells.setPrev head (some timer)
      return { list with cells, head := some timer }
    else
      addTimerFrom list timer head

def adjustTimer (list : TimerList) (timer : Addr) : Option TimerList := do
  let cell ← list.cells timer
  match cell.next with
  | none => return list
  | some tmp => do
    let next ← list.cells tmp
    if cell.data < next.data then
      return list
    else if list.head = some timer then
      let cells ← list.cells.setPrev tmp none
      let cells ← cells.setNext timer none
      addTimerFrom { list with cells, head := some tmp } timer tmp
    else
      let prev ← cell.prev
      let cells ← list.cells.setNext prev (some tmp)
      let cells ← cells.setPrev tmp (some prev)
      addTimerFrom { list with cells } timer tmp

def delTimer (list : TimerList) (timer : Addr) : Option TimerList := do
  let cell ← list.cells timer
  if list.head = some timer ∧ list.tail = some timer then
    let cells ← list.cells.free timer
    return { list with cells, head := none, tail := none }
  else if list.head = some timer then
    let next ← cell.next
    let cells ← list.cells.setPrev next none
    let cells ← cells.free timer
    return { list with cells, head := some next }
  else if list.tail = some timer then
    let prev ← cell.prev
    let cells ← list.cells.setNext prev none
    let cells ← cells.free timer
    return { list with cells, tail := some prev }
  else
    let prev ← cell.prev
    let next ← cell.next
    let cells ← list.cells.setNext prev (some next)
    let cells ← cells.setPrev next (some prev)
    let cells ← cells.free timer
    return { list with cells }

/-- The loop of `tick`; `tmp` is `head` at the start of every round. -/
def tickLoop (cur : ℤ) : ℕ → TimerList → Option TimerList
  | 0, _ => none
  | fuel + 1, list =>
    match list.head with
    | none => some list
    | some tmp => do
      let cell ← list.cells tmp
      if cur < cell.data then
        return list
      else
        let cells ← list.cells.linkPrev cell.next none
        let cells ← cells.free tmp
        tickLoop cur fuel
          { list with
            cells, head := cell.next, fired := list.fired ++ [tmp] }

def tick (list : TimerList) (cur : ℤ) : Option TimerList :=
  tickLoop cur (list.created + 1) list

/-! ## The list in memory -/

/-- The expiry times of the timers that have been added and neither deleted
nor expired. -/
abbrev Live := Addr → Option ℤ

/-- The pointers of the list and of its timers are those of a doubly linked
list of the given timers. -/
structure Linked (list : TimerList) (live : Live) (nodes : List Addr) : Prop where
  data : ∀ timer, list.cells.dataAt timer = live timer
  links : Segment list.cells none nodes none
  head : list.head = nodes.head?
  tail : list.head ≠ none → list.tail = nodes.getLast?

def NotLater (live : Live) (first second : Addr) : Prop :=
  ∀ x ∈ live first, ∀ y ∈ live second, x ≤ y

def Sorted (live : Live) (nodes : List Addr) : Prop :=
  nodes.Pairwise (NotLater live)

variable {list : TimerList} {live : Live} {timer prev : Addr} {expire : ℤ}
  {nodes front left right first second rest : List Addr}

theorem NotLater.trans {first second third : Addr} (left : NotLater live first second)
    (right : NotLater live second third) (present : (live second).isSome = true) :
    NotLater live first third := by
  obtain ⟨middle, found⟩ := isSome_iff_exists.mp present
  intro x isFirst z isThird
  exact le_trans (left x isFirst middle found) (right middle found z isThird)

theorem Linked.present (linked : Linked list live nodes) (member : timer ∈ nodes) :
    (live timer).isSome = true := by
  obtain ⟨cell, found⟩ := linked.links.present member
  rw [← linked.data, dataAt, found]
  rfl

variable {cell : Cell ℤ}

theorem Linked.live_eq (linked : Linked list live nodes) (found : list.cells timer = some cell) :
    live timer = some cell.data := by
  rw [← linked.data, dataAt, found]
  rfl

theorem notLater_of_le {other : Addr} {otherExpire : ℤ} (isLive : live timer = some expire)
    (isOther : live other = some otherExpire) (notLater : expire ≤ otherExpire) :
    NotLater live timer other := by
  intro x isTimer y isY
  rw [isLive] at isTimer
  rw [isOther] at isY
  cases isTimer
  cases isY
  exact notLater

/-- A timer between those that expire no later and those that expire no
earlier. -/
theorem Sorted.insert (sorted : Sorted live (first ++ second))
    (earlier : ∀ other ∈ first, NotLater live other timer)
    (later : ∀ other ∈ second, NotLater live timer other) :
    Sorted live (first ++ timer :: second) := by
  obtain ⟨sortedFirst, sortedSecond, across⟩ := pairwise_append.mp sorted
  apply pairwise_append.mpr
  refine ⟨sortedFirst, pairwise_cons.mpr ⟨later, sortedSecond⟩, ?_⟩
  intro one inFirst other member
  rcases mem_cons.mp member with rfl | inSecond
  · exact earlier one inFirst
  · exact across one inFirst other inSecond

/-- A result of an operation: the timers in the list, and nothing else but
the pointers changed. -/
structure Relisted (list after : TimerList) (live : Live) (nodes : List Addr) : Prop where
  linked : Linked after live nodes
  sorted : Sorted live nodes
  created : after.created = list.created
  fired : after.fired = list.fired

/-! ## Inserting -/

variable {next : Addr}

theorem Linked.insert_middle (linked : Linked list live (front ++ prev :: next :: rest))
    (fresh : timer ∉ front ++ prev :: next :: rest) (present : list.cells timer = some cell) :
    ∃ one two three cells, list.cells.setNext prev (some timer) = some one ∧
      one.setNext timer (some next) = some two ∧ two.setPrev next (some timer) = some three ∧
      three.setPrev timer (some prev) = some cells ∧
      Linked { list with cells } live (front ++ prev :: timer :: next :: rest) := by
  have split : front ++ prev :: next :: rest = (front ++ [prev]) ++ next :: rest := by simp
  have links := linked.links
  have distinct := links.nodup
  rw [split] at links distinct fresh
  obtain ⟨one, two, three, cells, wroteOne, wroteTwo, wroteThree, wroteFour,
    segment, relinked⟩ := links.insert distinct fresh present
  rw [getLast?_concat] at wroteOne wroteFour
  refine ⟨one, two, three, cells, wroteOne, wroteTwo, wroteThree, wroteFour, ?_, ?_, ?_, ?_⟩
  · intro other
    exact (relinked.data other).trans (linked.data other)
  · simpa using segment
  · simp [linked.head]
  · intro nonempty
    rw [linked.tail nonempty]
    simp [getLast?_append, getLast?_cons]

theorem Linked.insert_last (linked : Linked list live (front ++ [prev]))
    (fresh : timer ∉ front ++ [prev]) (present : list.cells timer = some cell) :
    ∃ one two cells, list.cells.setNext prev (some timer) = some one ∧
      one.setPrev timer (some prev) = some two ∧ two.setNext timer none = some cells ∧
      Linked { list with cells, tail := some timer } live (front ++ [prev, timer]) := by
  have links := linked.links
  have distinct := links.nodup
  rw [← append_nil (front ++ [prev])] at links distinct fresh
  obtain ⟨one, two, three, cells, wroteOne, wroteTwo, wroteThree, wroteFour,
    segment, relinked⟩ := links.insert distinct fresh present
  rw [getLast?_concat] at wroteOne wroteFour
  obtain rfl := some.inj wroteThree
  have both := linkNext_linkPrev_comm one (some timer) none (some timer) (some prev)
  have bothWritten : ((one.linkNext (some timer) none).bind fun middle =>
      middle.linkPrev (some timer) (some prev)) = some cells := by
    have wroteTwo : one.linkNext (some timer) none = some two := wroteTwo
    rw [wroteTwo]
    exact wroteFour
  rw [bothWritten] at both
  obtain ⟨middle, wrotePrev, wroteNext⟩ := bind_eq_some_iff.mp both
  refine ⟨one, middle, cells, wroteOne, wrotePrev, wroteNext, ?_, ?_, ?_, ?_⟩
  · intro other
    exact (relinked.data other).trans (linked.data other)
  · simpa using segment
  · simp [linked.head]
  · intro _
    simp [getLast?_append]

theorem insertFrom_spec {fuel : ℕ}
    (linked : Linked list live (front ++ prev :: rest)) (fresh : timer ∉ front ++ prev :: rest)
    (present : list.cells timer = some cell) (enough : rest.length < fuel) :
    ∃ left right after, rest = left ++ right ∧
      insertFrom timer cell.data fuel list prev rest.head? = some after ∧
      Linked after live (front ++ prev :: (left ++ timer :: right)) ∧
      after.created = list.created ∧ after.fired = list.fired ∧
      (∀ other ∈ left, NotLater live other timer) ∧
      ∀ other ∈ right.head?, NotLater live timer other := by
  induction rest generalizing front prev fuel with
  | nil =>
    obtain ⟨fuel, rfl⟩ := Nat.exists_eq_add_of_lt enough
    obtain ⟨one, two, cells, wroteOne, wroteTwo, wroteThree, after⟩ :=
      linked.insert_last fresh present
    refine ⟨[], [], _, rfl, ?_, after, rfl, rfl, by simp, by simp⟩
    simp only [head?_nil, insertFrom, wroteOne, wroteTwo, wroteThree, some_bind, Option.pure_def]
  | cons tmp remaining ih =>
    obtain ⟨fuel, rfl⟩ := Nat.exists_eq_add_one_of_ne_zero (Nat.ne_zero_of_lt enough)
    obtain ⟨-, -, ⟨expireTmp, found⟩, -⟩ := segment_append.mp linked.links
    have isLive := linked.live_eq present
    have liveTmp := linked.live_eq found
    by_cases stops : cell.data < expireTmp
    · obtain ⟨one, two, three, cells, wroteOne, wroteTwo, wroteThree,
        wroteFour, after⟩ := linked.insert_middle fresh present
      refine ⟨[], tmp :: remaining, _, rfl, ?_, after, rfl, rfl, by simp, ?_⟩
      · simp only [head?_cons, insertFrom, found, if_pos stops,
          wroteOne, wroteTwo, wroteThree, wroteFour, some_bind, Option.pure_def]
      · intro other isHead
        cases isHead
        exact notLater_of_le isLive liveTmp stops.le
    · have shifted : front ++ prev :: tmp :: remaining = (front ++ [prev]) ++ tmp :: remaining := by
        simp
      rw [shifted] at linked fresh
      obtain ⟨left, right, after, split, inserted, afterLinked, created, fired, earlier, later⟩ :=
        ih linked fresh (Nat.lt_of_succ_lt_succ enough)
      refine ⟨tmp :: left, right, after, ?_, ?_, ?_, created, fired, ?_, later⟩
      · rw [split, cons_append]
      · simp only [head?_cons, insertFrom, found, if_neg stops, some_bind, or_none]
        exact inserted
      · simpa using afterLinked
      · exact forall_mem_cons.mpr ⟨notLater_of_le liveTmp isLive (not_lt.mp stops), earlier⟩

theorem Linked.notLater_all (linked : Linked list live nodes) (subset : right ⊆ nodes)
    (sorted : Sorted live right) (later : ∀ other ∈ right.head?, NotLater live timer other) :
    ∀ other ∈ right, NotLater live timer other := by
  intro other member
  cases right with
  | nil => cases member
  | cons next remaining =>
    have beforeNext := later next rfl
    rcases mem_cons.mp member with rfl | inRemaining
    · exact beforeNext
    · have presentNext : (live next).isSome = true := linked.present (subset mem_cons_self)
      have afterNext := (pairwise_cons.mp sorted).1 other inRemaining
      exact beforeNext.trans afterNext presentNext

theorem Sorted.insert_found (linked : Linked list live (front ++ prev :: (left ++ right)))
    (sorted : Sorted live (front ++ prev :: (left ++ right)))
    (notEarlier : NotLater live prev timer) (earlier : ∀ other ∈ left, NotLater live other timer)
    (later : ∀ other ∈ right.head?, NotLater live timer other) :
    Sorted live (front ++ prev :: (left ++ timer :: right)) := by
  have split : ∀ middle, front ++ prev :: (left ++ middle) = (front ++ prev :: left) ++ middle := by
    simp
  rw [split] at sorted linked ⊢
  obtain ⟨sortedFirst, sortedRight, -⟩ := pairwise_append.mp sorted
  refine Sorted.insert sorted
    (forall_mem_append.mpr ⟨?_, forall_mem_cons.mpr ⟨notEarlier, earlier⟩⟩) ?_
  · intro other member
    have presentPrev : (live prev).isSome = true := linked.present (by simp)
    have beforePrev := (pairwise_append.mp sortedFirst).2.2 other member prev mem_cons_self
    exact beforePrev.trans notEarlier presentPrev
  · exact linked.notLater_all (subset_append_right _ _) sortedRight later

theorem addTimerFrom_spec {lstHead : Addr} (linked : Linked list live (front ++ lstHead :: rest))
    (sorted : Sorted live (front ++ lstHead :: rest)) (fresh : timer ∉ front ++ lstHead :: rest)
    (isLive : (live timer).isSome = true) (notEarlier : NotLater live lstHead timer)
    (bounded : rest.length ≤ list.created) :
    ∃ after nodes, addTimerFrom list timer lstHead = some after ∧ Relisted list after live nodes ∧
      nodes.Perm (timer :: (front ++ lstHead :: rest)) := by
  obtain ⟨expire, isLive⟩ := isSome_iff_exists.mp isLive
  obtain ⟨cell, present, -⟩ := map_eq_some_iff.mp ((linked.data timer).trans isLive)
  obtain ⟨-, ⟨dataHead, foundHead⟩, -⟩ := segment_append.mp linked.links
  obtain ⟨left, right, after, split, inserted, afterLinked, created, fired, earlier, later⟩ :=
    insertFrom_spec linked fresh present (lt_succ_of_le bounded)
  subst split
  refine ⟨after, front ++ lstHead :: (left ++ timer :: right), ?_,
    ⟨afterLinked, ?_, created, fired⟩, ?_⟩
  · simp only [addTimerFrom, present, foundHead, some_bind, or_none]
    exact inserted
  · exact Sorted.insert_found linked sorted notEarlier earlier later
  · have moved : ((front ++ lstHead :: left) ++ timer :: right).Perm
      (timer :: ((front ++ lstHead :: left) ++ right)) := perm_middle
    simpa using moved

theorem Linked.insert_first {first : Addr} (linked : Linked list live (first :: rest))
    (fresh : timer ∉ first :: rest) (isNew : list.cells timer = some ⟨none, none, expire⟩) :
    ∃ one cells, list.cells.setNext timer (some first) = some one ∧
      one.setPrev first (some timer) = some cells ∧
      Linked { list with cells, head := some timer } live (timer :: first :: rest) := by
  obtain ⟨one, cells, wroteNext, wrotePrev, segment, relinked⟩ :=
    linked.links.push linked.links.nodup fresh isNew rfl
  refine ⟨one, cells, wroteNext, wrotePrev, ?_, segment, rfl, ?_⟩
  · intro other
    exact (relinked.data other).trans (linked.data other)
  · intro _
    have nonempty : list.head ≠ none := by
      rw [linked.head]
      exact some_ne_none first
    exact linked.tail nonempty

theorem addTimer_spec (linked : Linked list live nodes) (sorted : Sorted live nodes)
    (fresh : timer ∉ nodes) (isNew : list.cells timer = some ⟨none, none, expire⟩)
    (bounded : nodes.length ≤ list.created) :
    ∃ after relisted, addTimer list timer = some after ∧ Relisted list after live relisted ∧
      relisted.Perm (timer :: nodes) := by
  have isLive := linked.live_eq isNew
  cases nodes with
  | nil =>
    have head : list.head = none := linked.head
    refine ⟨{ list with head := some timer, tail := some timer }, [timer],
      ?_, ⟨⟨linked.data, ⟨⟨expire, isNew⟩, trivial⟩, rfl, fun _ => rfl⟩,
        pairwise_singleton .., rfl, rfl⟩, .refl _⟩
    rw [addTimer, head]
  | cons first rest =>
    have head : list.head = some first := linked.head
    obtain ⟨⟨dataFirst, foundFirst⟩, -⟩ := linked.links
    have liveFirst := linked.live_eq foundFirst
    by_cases before : expire < dataFirst
    · obtain ⟨one, cells, wroteOne, wroteTwo, after⟩ := linked.insert_first fresh isNew
      refine ⟨_, timer :: first :: rest, ?_, ⟨after, ?_, rfl, rfl⟩, .refl _⟩
      · simp only [addTimer, head, isNew, foundFirst, if_pos before,
          wroteOne, wroteTwo, some_bind, Option.pure_def]
      · refine pairwise_cons.mpr ⟨linked.notLater_all (.refl _) sorted ?_, sorted⟩
        intro other isHead
        cases isHead
        exact notLater_of_le isLive liveFirst before.le
    · have notEarlier := notLater_of_le liveFirst isLive (not_lt.mp before)
      have atFront : Linked list live ([] ++ first :: rest) := linked
      obtain ⟨after, relisted, added, result, permuted⟩ :=
        addTimerFrom_spec atFront sorted fresh (isSome_of_mem isLive) notEarlier
          (le_of_succ_le bounded)
      refine ⟨after, relisted, ?_, result, permuted⟩
      simp only [addTimer, head, isNew, foundFirst, if_neg before, some_bind]
      exact added

/-! ## Deleting -/

section

variable (linked : Linked list live (first ++ timer :: second))
include linked

theorem Linked.absent : timer ∉ first ++ second := (nodup_middle.mp linked.links.nodup).notMem

theorem Linked.unlink :
    ∃ middle cells, list.cells.linkNext first.getLast? second.head? = some middle ∧
      middle.linkPrev second.head? first.getLast? = some cells ∧
      (∀ other, cells.dataAt other = live other) ∧ Segment cells none (first ++ second) none ∧
      cells timer = list.cells timer := by
  obtain ⟨middle, cells, wroteNext, wrotePrev, segment, relinked⟩ :=
    linked.links.unlink linked.links.nodup
  simp only [or_none] at wroteNext wrotePrev
  exact ⟨middle, cells, wroteNext, wrotePrev,
    fun other => (relinked.data other).trans (linked.data other), segment,
    relinked.outside timer linked.absent⟩

/-- The neighbours of a timer are linked to each other and its memory is
given back. -/
theorem Linked.remove :
    ∃ middle cells freed, list.cells.linkNext first.getLast? second.head? = some middle ∧
      middle.linkPrev second.head? first.getLast? = some cells ∧ cells.free timer = some freed ∧
      (∀ other, freed.dataAt other = update live timer none other) ∧
      Segment freed none (first ++ second) none := by
  obtain ⟨middle, cells, freed, wroteNext, wrotePrev, wroteFree, segment, data,
    -⟩ := linked.links.remove
  have sameData : list.cells.dataAt = live := funext linked.data
  rw [sameData] at data
  exact ⟨middle, cells, freed, wroteNext, wrotePrev, wroteFree, data, segment⟩

theorem Linked.nonempty :
    list.head ≠ none := by simp [linked.head]

end

theorem Sorted.without (sorted : Sorted live (first ++ timer :: second)) :
    Sorted live (first ++ second) := Pairwise.sublist
    ((Sublist.refl first).append (sublist_cons_self timer second)) sorted

theorem Sorted.congr {other : Live} (sorted : Sorted live nodes)
    (same : ∀ timer ∈ nodes, other timer = live timer) : Sorted other nodes := by
  apply Pairwise.imp_of_mem _ sorted
  intro first second inFirst inSecond notLater x isFirst y isSecond
  rw [same first inFirst] at isFirst
  rw [same second inSecond] at isSecond
  exact notLater x isFirst y isSecond

theorem Sorted.update {change : Option ℤ} (sorted : Sorted live nodes) (fresh : timer ∉ nodes) :
    Sorted (update live timer change) nodes := sorted.congr fun _ member =>
    update_of_ne (ne_of_mem_of_not_mem member fresh) ..

theorem delTimer_spec (linked : Linked list live (first ++ timer :: second))
    (sorted : Sorted live (first ++ timer :: second)) :
    ∃ after, delTimer list timer = some after ∧
      Relisted list after (update live timer none) (first ++ second) := by
  have absent := linked.absent
  have keptSorted : Sorted (update live timer none) (first ++ second) :=
    sorted.without.update absent
  obtain ⟨expire, found⟩ := linked.links.cell
  obtain ⟨middle, cells, freed, wroteNext, wrotePrev, wroteFree, freedData,
    freedSegment⟩ := linked.remove
  have head := linked.head
  have tail := linked.tail linked.nonempty
  rcases eq_nil_or_concat first with rfl | ⟨earlier, prev, rfl⟩
  · obtain rfl := some.inj wroteNext
    have isHead : list.head = some timer := head
    cases second with
    | nil =>
      obtain rfl := Option.some.inj wrotePrev
      have isTail : list.tail = some timer := tail
      refine ⟨⟨freed, none, none, list.created, list.fired⟩, ?_,
        ⟨⟨freedData, freedSegment, rfl, fun _ => rfl⟩, keptSorted, rfl, rfl⟩⟩
      simp only [delTimer, found, isHead, isTail, and_self, if_true,
        wroteFree, some_bind, Option.pure_def]
    | cons next later =>
      have sameTail : list.tail = (next :: later).getLast? := tail
      have notTail : ¬ (list.tail = some timer) := by
        intro isTail
        rw [sameTail] at isTail
        exact absent (mem_of_getLast? isTail)
      have wrote : list.cells.setPrev next none = some cells := wrotePrev
      refine ⟨⟨freed, some next, list.tail, list.created, list.fired⟩, ?_,
        ⟨⟨freedData, freedSegment, rfl, fun _ => sameTail⟩, keptSorted, rfl, rfl⟩⟩
      simp only [delTimer, found, isHead, notTail, and_false, if_false,
        if_true, head?_cons, wrote, wroteFree, some_bind, Option.pure_def]
  · rw [concat_eq_append] at *
    rw [getLast?_concat] at found wroteNext wrotePrev
    have sameHead : list.head = (earlier ++ [prev] ++ second).head? := by simp [head]
    have notHead : ¬ (list.head = some timer) := by
      intro isHead
      rw [sameHead] at isHead
      exact absent (mem_of_head? isHead)
    cases second with
    | nil =>
      obtain rfl := some.inj wrotePrev
      have isTail : list.tail = some timer := by rw [tail, getLast?_concat]
      have wrote : list.cells.setNext prev none = some middle := wroteNext
      refine ⟨⟨freed, list.head, some prev, list.created, list.fired⟩, ?_,
        ⟨⟨freedData, freedSegment, sameHead, fun _ => ?_⟩, keptSorted, rfl, rfl⟩⟩
      · simp only [delTimer, found, notHead, isTail, false_and, if_false,
          if_true, wrote, wroteFree, some_bind, Option.pure_def]
      · rw [append_nil, getLast?_concat]
    | cons next later =>
      have sameTail : list.tail = (earlier ++ [prev] ++ next :: later).getLast? := by
        rw [tail]
        simp [getLast?_append]
      have notTail : ¬ (list.tail = some timer) := by
        intro isTail
        rw [sameTail] at isTail
        exact absent (mem_of_getLast? isTail)
      have wroteOne : list.cells.setNext prev (some next) = some middle := wroteNext
      have wroteTwo : middle.setPrev next (some prev) = some cells := wrotePrev
      refine ⟨⟨freed, list.head, list.tail, list.created, list.fired⟩, ?_,
        ⟨⟨freedData, freedSegment, sameHead, fun _ => sameTail⟩, keptSorted, rfl, rfl⟩⟩
      simp only [delTimer, found, notHead, notTail, false_and, if_false,
        head?_cons, wroteOne, wroteTwo, wroteFree, some_bind, Option.pure_def]

/-! ## Adjusting -/

theorem Linked.detach_first (linked : Linked list live (timer :: next :: rest)) :
    ∃ one cells, list.cells.setPrev next none = some one ∧ one.setNext timer none = some cells ∧
      Linked { list with cells, head := some next } live (next :: rest) := by
  have atFront : Linked list live ([] ++ timer :: next :: rest) := linked
  obtain ⟨expire, found⟩ := atFront.links.cell
  obtain ⟨middle, one, wroteNext, wrotePrev, data, segment, atTimer⟩ := atFront.unlink
  obtain rfl := some.inj wroteNext
  have absent : timer ∉ next :: rest := (nodup_cons.mp linked.links.nodup).1
  have wrote := modify_eq_some (atTimer.trans found) fun cell => { cell with next := none }
  have relinked := relinked_modify wrote fun _ => rfl
  refine ⟨one, _, wrotePrev, wrote, ?_, ?_, rfl, ?_⟩
  · intro other
    exact (relinked.data other).trans (data other)
  · apply segment.frame relinked
    intro other member same
    rw [mem_singleton] at same
    exact absent (same ▸ member)
  · intro _
    exact linked.tail atFront.nonempty

theorem Linked.detach_middle (linked : Linked list live
      (front ++ [prev] ++ timer :: next :: rest)) :
    ∃ one cells, list.cells.setNext prev (some next) = some one ∧
      one.setPrev next (some prev) = some cells ∧
      Linked { list with cells } live (front ++ [prev] ++ next :: rest) := by
  obtain ⟨one, cells, wroteNext, wrotePrev, data, segment, -⟩ := linked.unlink
  rw [getLast?_concat] at wroteNext wrotePrev
  refine ⟨one, cells, wroteNext, wrotePrev, data, segment, ?_, ?_⟩
  · simp [linked.head]
  · intro nonempty
    rw [linked.tail nonempty]
    simp [getLast?_append]

theorem adjustTimer_spec (linked : Linked list live (first ++ timer :: second))
    (sorted : Sorted live (first ++ second)) (earlier : ∀ other ∈ first, NotLater live other timer)
    (bounded : (first ++ timer :: second).length ≤ list.created) :
    ∃ after nodes, adjustTimer list timer = some after ∧ Relisted list after live nodes ∧
      nodes.Perm (first ++ timer :: second) := by
  have absent := linked.absent
  obtain ⟨expire, found⟩ := linked.links.cell
  have isLive := linked.live_eq found
  cases second with
  | nil =>
    refine ⟨list, first ++ [timer], ?_, ⟨linked, ?_, rfl, rfl⟩, .refl _⟩
    · simp only [adjustTimer, found, head?_nil, some_bind, Option.pure_def]
    · exact sorted.insert earlier (by simp)
  | cons next later =>
    obtain ⟨cell, presentNext⟩ := linked.links.present (show next ∈ _ by simp)
    have liveNext := linked.live_eq presentNext
    by_cases stays : expire < cell.data
    · refine ⟨list, first ++ timer :: next :: later, ?_, ⟨linked, ?_, rfl, rfl⟩, .refl _⟩
      · simp only [adjustTimer, found, head?_cons, presentNext,
          if_pos stays, some_bind, Option.pure_def]
      · apply sorted.insert earlier
        apply linked.notLater_all _ (pairwise_append.mp sorted).2.1
        · intro other isHead
          cases isHead
          exact notLater_of_le isLive liveNext stays.le
        · intro other member
          simp [member]
    · have notEarlier := notLater_of_le liveNext isLive (not_lt.mp stays)
      have isSome := linked.present (show timer ∈ _ by simp)
      have room : later.length ≤ list.created := by
        simp only [length_append, length_cons] at bounded
        omega
      rcases eq_nil_or_concat first with rfl | ⟨front, prev, rfl⟩
      · have isHead : list.head = some timer := linked.head
        obtain ⟨one, cells, wroteOne, wroteTwo, detached⟩ := linked.detach_first
        have atFront : Linked { list with cells, head := some next } live ([] ++ next :: later) :=
          detached
        obtain ⟨after, nodes, added, result, permuted⟩ :=
          addTimerFrom_spec atFront sorted absent isSome notEarlier room
        refine ⟨after, nodes, ?_, { result with }, permuted⟩
        simp only [adjustTimer, found, head?_cons, presentNext,
          if_neg stays, isHead, if_true, wroteOne, wroteTwo, some_bind]
        exact added
      · rw [concat_eq_append] at *
        rw [getLast?_concat] at found
        have notHead : ¬ (list.head = some timer) := by
          intro isHead
          have sameHead : list.head = (front ++ [prev] ++ next :: later).head? := by
            simp [linked.head]
          rw [sameHead] at isHead
          exact absent (mem_of_head? isHead)
        obtain ⟨one, cells, wroteOne, wroteTwo, detached⟩ := linked.detach_middle
        obtain ⟨after, nodes, added, result, permuted⟩ :=
          addTimerFrom_spec detached sorted absent isSome notEarlier room
        refine ⟨after, nodes, ?_, { result with }, permuted.trans perm_middle.symm⟩
        simp only [adjustTimer, found, head?_cons, presentNext,
          if_neg stays, notHead, if_false, wroteOne, wroteTwo, some_bind]
        exact added

/-! ## Ticking -/

def survivors (live : Live) (cur : ℤ) : Live :=
  fun timer => (live timer).filter fun expire => cur < expire

variable {cur : ℤ}

theorem survivors_of_expired (isLive : live timer = some expire) (expired : expire ≤ cur) :
    survivors live cur timer = none := by
  rw [survivors, isLive]
  exact filter_some_neg (by simpa using expired)

theorem survivors_of_pending (isLive : live timer = some expire) (pending : cur < expire) :
    survivors live cur timer = live timer := by
  rw [survivors, isLive]
  exact filter_some_pos (by simpa using pending)

/-- What a tick does to a list of timers: the callbacks of the first ones
run, which are those that expire by `cur`, and the others stay. -/
structure Ticked (list after : TimerList) (live : Live) (cur : ℤ)
    (due rest : List Addr) : Prop where
  fired : after.fired = list.fired ++ due
  expired : ∀ timer ∈ due, ∃ expire, live timer = some expire ∧ expire ≤ cur
  pending : ∀ timer ∈ rest, ∃ expire, live timer = some expire ∧ cur < expire
  created : after.created = list.created

theorem Linked.expire_first (linked : Linked list live (timer :: rest)) :
    ∃ cells freed, list.cells.linkPrev rest.head? none = some cells ∧
      cells.free timer = some freed ∧ Linked { list with
          cells := freed, head := rest.head?
          fired := list.fired ++ [timer] }
        (update live timer none) rest := by
  have atFront : Linked list live ([] ++ timer :: rest) := linked
  obtain ⟨middle, cells, freed, wroteNext, wrotePrev, wroteFree, freedData,
    freedSegment⟩ := atFront.remove
  obtain rfl := some.inj wroteNext
  refine ⟨cells, freed, wrotePrev, wroteFree, freedData, freedSegment, rfl, ?_⟩
  intro nonempty
  cases rest with
  | nil => exact absurd rfl nonempty
  | cons next later => exact linked.tail atFront.nonempty

theorem Linked.pending_all (linked : Linked list live (timer :: rest))
    (sorted : Sorted live (timer :: rest))
    (isLive : live timer = some expire) (pending : cur < expire) :
    ∀ other ∈ timer :: rest, ∃ expire, live other = some expire ∧ cur < expire := by
  intro other member
  obtain ⟨otherExpire, found⟩ := isSome_iff_exists.mp (linked.present member)
  rcases mem_cons.mp member with rfl | later
  · exact ⟨expire, isLive, pending⟩
  · have notLater := (pairwise_cons.mp sorted).1 other later
    have bound := notLater expire isLive otherExpire found
    exact ⟨otherExpire, found, by omega⟩

theorem tickLoop_spec (cur : ℤ) {fuel : ℕ}
    (linked : Linked list live nodes) (sorted : Sorted live nodes) (enough : nodes.length < fuel) :
    ∃ after due rest, tickLoop cur fuel list = some after ∧ nodes = due ++ rest ∧
      Ticked list after live cur due rest ∧
      Linked after (fun timer => if timer ∈ due then none else live timer) rest := by
  induction nodes generalizing list live fuel with
  | nil =>
    obtain ⟨fuel, rfl⟩ := Nat.exists_eq_add_of_lt enough
    have head : list.head = none := linked.head
    refine ⟨list, [], [], ?_, rfl, ⟨?_, by simp, by simp, rfl⟩, ?_⟩
    · simp only [tickLoop, head]
    · rw [append_nil]
    · simpa using linked
  | cons timer remaining ih =>
    obtain ⟨fuel, rfl⟩ := Nat.exists_eq_add_one_of_ne_zero (Nat.ne_zero_of_lt enough)
    have head : list.head = some timer := linked.head
    have atFront : Linked list live ([] ++ timer :: remaining) := linked
    obtain ⟨expire, found⟩ := atFront.links.cell
    have isLive := linked.live_eq found
    by_cases pending : cur < expire
    · refine ⟨list, [], timer :: remaining, ?_, rfl,
        ⟨?_, by simp, linked.pending_all sorted isLive pending, rfl⟩, ?_⟩
      · simp only [tickLoop, head, found, if_pos pending, some_bind, Option.pure_def]
      · rw [append_nil]
      · simpa using linked
    · have distinct := nodup_cons.mp linked.links.nodup
      obtain ⟨cells, freed, wroteOne, wroteTwo, shorter⟩ := linked.expire_first
      have keptLive : ∀ other ∈ remaining, update live timer none other = live other := by
        intro other member
        exact update_of_ne (ne_of_mem_of_not_mem member distinct.1) ..
      have shorterSorted := Sorted.congr (pairwise_cons.mp sorted).2 keptLive
      obtain ⟨after, due, rest, ticked, split, result, afterLinked⟩ :=
        ih shorter shorterSorted (Nat.lt_of_succ_lt_succ enough)
      have inDue : due ⊆ remaining := split ▸ subset_append_left due rest
      have inRest : rest ⊆ remaining := split ▸ subset_append_right due rest
      refine ⟨after, timer :: due, rest, ?_, ?_, ⟨?_, ?_, ?_, ?_⟩, ?_⟩
      · simp only [tickLoop, head, found, if_neg pending, wroteOne, wroteTwo, some_bind]
        exact ticked
      · rw [split, cons_append]
      · rw [result.fired, append_assoc, singleton_append]
      · refine forall_mem_cons.mpr ⟨⟨expire, isLive, not_lt.mp pending⟩, ?_⟩
        intro other member
        have expired := result.expired other member
        rw [keptLive other (inDue member)] at expired
        exact expired
      · intro other member
        have stays := result.pending other member
        rw [keptLive other (inRest member)] at stays
        exact stays
      · exact result.created
      · have sameLive : (fun other => if other ∈ timer :: due then none
            else live other) = fun other => if other ∈ due then none
              else update live timer none other := by
          funext other
          by_cases same : other = timer
          · subst same
            simp
          · simp [same]
        rw [sameLive]
        exact afterLinked

/-! ## Runs -/

/-- The list is well formed, sorted and holds exactly the live timers. -/
structure Represents (list : TimerList) (live : Live) (nodes : List Addr) : Prop where
  linked : Linked list live nodes
  sorted : Sorted live nodes
  members : ∀ timer, timer ∈ nodes ↔ (live timer).isSome = true
  bounded : nodes.length ≤ list.created

/-- The calls of the users of the list.  `add` also creates the timer, and
`adjust` first sets its `expire`. -/
inductive Operation
  | add (timer : Addr) (expire : ℤ)
  | adjust (timer : Addr) (expire : ℤ)
  | del (timer : Addr)
  | tick (cur : ℤ)
deriving DecidableEq, Repr

/-- `new util_timer` with its `expire`. -/
def newTimer (list : TimerList) (timer : Addr) (expire : ℤ) : TimerList :=
  { list with
    cells := update list.cells timer (some ⟨none, none, expire⟩)
    created := list.created + 1 }

def perform (list : TimerList) : Operation → Option TimerList
  | .add timer expire => addTimer (newTimer list timer expire) timer
  | .adjust timer expire => do
    let cells ← list.cells.setData timer expire
    adjustTimer { list with cells } timer
  | .del timer => delTimer list timer
  | .tick cur => tick list cur

def performAll (list : TimerList) : List Operation → Option TimerList
  | [] => some list
  | operation :: rest => (perform list operation).bind (performAll · rest)

def Operation.after (live : Live) : Operation → Live
  | .add timer expire => update live timer (some expire)
  | .adjust timer expire => update live timer (some expire)
  | .del timer => update live timer none
  | .tick cur => survivors live cur

/-- A timer is created in free memory, only live timers are adjusted and
deleted, and a timer is never moved forward in time. -/
def Operation.Proper (live : Live) : Operation → Prop
  | .add timer _ => live timer = none
  | .adjust timer expire => ∃ old, live timer = some old ∧ old ≤ expire
  | .del timer => (live timer).isSome = true
  | .tick _ => True

def liveAfter (live : Live) (operations : List Operation) : Live :=
  operations.foldl Operation.after live

def ProperRun : Live → List Operation → Prop
  | _, [] => True
  | live, operation :: rest => operation.Proper live ∧ ProperRun (operation.after live) rest

/-- The timers whose callbacks a tick has to run, in an order in which it
may run them. -/
structure Expires (live : Live) (cur : ℤ) (due : List Addr) : Prop where
  once : due.Nodup
  sorted : Sorted live due
  exactly : ∀ timer, timer ∈ due ↔ ∃ expire, live timer = some expire ∧ expire ≤ cur

theorem represents_empty : Represents empty (fun _ => none) [] where
  linked := ⟨fun _ => rfl, trivial, rfl, fun nonempty => absurd rfl nonempty⟩
  sorted := Pairwise.nil
  members := by
    simp
  bounded := le_refl _

theorem tick_spec (rep : Represents list live nodes) (cur : ℤ) :
    ∃ after due rest, tick list cur = some after ∧ nodes = due ++ rest ∧
      after.fired = list.fired ++ due ∧ Expires live cur due ∧
      Represents after (survivors live cur) rest := by
  obtain ⟨after, due, rest, ticked, split, result, linked⟩ :=
    tickLoop_spec cur rep.linked rep.sorted (lt_succ_of_le rep.bounded)
  subst split
  obtain ⟨sortedDue, sortedRest, -⟩ := pairwise_append.mp rep.sorted
  have exactly : ∀ timer, timer ∈ due ↔ ∃ expire, live timer = some expire ∧ expire ≤ cur := by
    intro timer
    constructor
    · exact result.expired timer
    · intro expired
      obtain ⟨expire, isLive, bound⟩ := expired
      have member := (rep.members timer).mpr (by rw [isLive]; rfl)
      rcases mem_append.mp member with inDue | inRest
      · exact inDue
      · obtain ⟨other, isOther, pending⟩ := result.pending timer inRest
        rw [isLive] at isOther
        cases isOther
        omega
  have sameLive : (fun timer => if timer ∈ due then none else live timer) = survivors live cur := by
    funext timer
    by_cases isDue : timer ∈ due
    · obtain ⟨expire, isLive, bound⟩ := (exactly timer).mp isDue
      rw [if_pos isDue, survivors_of_expired isLive bound]
    · cases isLive : live timer with
      | none => simp [survivors, isLive]
      | some expire =>
        have pending : cur < expire := by
          by_contra expired
          exact isDue ((exactly timer).mpr ⟨expire, isLive, not_lt.mp expired⟩)
        rw [if_neg isDue, survivors_of_pending isLive pending, isLive]
  rw [sameLive] at linked
  refine ⟨after, due, rest, ticked, rfl, result.fired,
    ⟨rep.linked.links.nodup.of_append_left, sortedDue, exactly⟩, linked, ?_, ?_, ?_⟩
  · apply Sorted.congr sortedRest
    intro timer member
    obtain ⟨expire, isLive, pending⟩ := result.pending timer member
    exact survivors_of_pending isLive pending
  · intro timer
    constructor
    · intro member
      exact linked.present member
    · intro survives
      have isSome : (live timer).isSome = true := isSome_of_isSome_filter _ _ survives
      rcases mem_append.mp ((rep.members timer).mpr isSome) with
        inDue | inRest
      · obtain ⟨expire, isLive, bound⟩ := (exactly timer).mp inDue
        rw [survivors_of_expired isLive bound] at survives
        cases survives
      · exact inRest
  · have bounded := rep.bounded
    rw [length_append] at bounded
    rw [result.created]
    omega

/-- The operations that only move timers keep the list as it has to be. -/
theorem Relisted.rep {after : TimerList} (relisted : Relisted list after live nodes)
    (members : ∀ timer, timer ∈ nodes ↔ (live timer).isSome = true)
    (bounded : nodes.length ≤ list.created) : Represents after live nodes where
  __ := relisted
  members := members
  bounded := by
    rw [relisted.created]
    exact bounded

theorem Linked.newTimer (linked : Linked list live nodes) (fresh : timer ∉ nodes) :
    Linked (newTimer list timer expire) (update live timer (some expire)) nodes where
  __ := linked
  data := by
    have sameData : list.cells.dataAt = live := funext linked.data
    rw [SortTimerLst.newTimer, dataAt_update, sameData]
    exact fun _ => rfl
  links := by
    apply linked.links.congr
    intro other member
    exact update_of_ne (ne_of_mem_of_not_mem member fresh) ..

section

variable (rep : Represents list live nodes)
include rep

theorem perform_add_spec (unused : live timer = none) :
    ∃ after relisted, perform list (.add timer expire) = some after ∧
      Represents after (update live timer (some expire)) relisted := by
  have fresh : timer ∉ nodes := by simp [rep.members, unused]
  have bounded : nodes.length + 1 ≤ (newTimer list timer expire).created := succ_le_succ rep.bounded
  obtain ⟨after, relisted, added, result, permuted⟩ :=
    addTimer_spec (rep.linked.newTimer fresh)
      (rep.sorted.update fresh) fresh (update_self ..) (le_of_succ_le bounded)
  refine ⟨after, relisted, added, result.rep ?_ ?_⟩
  · intro other
    rw [permuted.mem_iff, mem_cons, rep.members]
    by_cases same : other = timer
    · simp [same]
    · simp [same]
  · rw [permuted.length_eq]
    exact bounded

theorem perform_del_spec (isLive : (live timer).isSome = true) :
    ∃ after remaining, perform list (.del timer) = some after ∧
      Represents after (update live timer none) remaining := by
  obtain ⟨first, second, rfl⟩ := append_of_mem ((rep.members timer).mpr isLive)
  have absent := rep.linked.absent
  obtain ⟨after, deleted, result⟩ := delTimer_spec rep.linked rep.sorted
  refine ⟨after, first ++ second, deleted, result.rep ?_ ?_⟩
  · intro other
    have members := rep.members other
    by_cases same : other = timer
    · simp [same, absent]
    · simp only [mem_append, mem_cons, same, false_or] at members
      simp only [mem_append, update_of_ne same, members]
  · have bounded := rep.bounded
    simp only [length_append, length_cons] at bounded ⊢
    omega

/-- The timers before an adjusted one stay before it, because its expiry
time does not decrease. -/
theorem perform_adjust_spec {old : ℤ} (isLive : live timer = some old) (later : old ≤ expire) :
    ∃ after relisted, perform list (.adjust timer expire) = some after ∧
      Represents after (update live timer (some expire)) relisted := by
  obtain ⟨first, second, rfl⟩ := append_of_mem ((rep.members timer).mpr (by rw [isLive]; rfl))
  have absent := rep.linked.absent
  obtain ⟨oldExpire, found⟩ := rep.linked.links.cell
  obtain ⟨cells, written, data⟩ := exists_setData found expire
  have sameData : list.cells.dataAt = live := funext rep.linked.data
  rw [sameData] at data
  have linked : Linked { list with cells } (update live timer (some expire))
        (first ++ timer :: second) := ⟨congrFun data, rep.linked.links.setData written,
      rep.linked.head, rep.linked.tail⟩
  have earlier : ∀ other ∈ first, NotLater (update live timer (some expire)) other timer := by
    intro other member x isOther y isTimer
    have before : NotLater live other timer :=
      (pairwise_append.mp rep.sorted).2.2 other member timer mem_cons_self
    have apart : other ≠ timer := ne_of_mem_of_not_mem (mem_append_left second member) absent
    rw [update_of_ne apart] at isOther
    rw [update_self] at isTimer
    cases isTimer
    exact le_trans (before x isOther old isLive) later
  obtain ⟨after, nodes, adjusted, result, permuted⟩ :=
    adjustTimer_spec linked (rep.sorted.without.update absent) earlier rep.bounded
  refine ⟨after, nodes, ?_, result.rep ?_ ?_⟩
  · rw [perform, written]
    exact adjusted
  · intro other
    rw [permuted.mem_iff, rep.members]
    by_cases same : other = timer
    · simp [same, isLive]
    · simp [update_of_ne same]
  · rw [permuted.length_eq]
    exact rep.bounded

theorem perform_spec {operation : Operation} (proper : operation.Proper live) :
    ∃ after remaining, perform list operation = some after ∧
      Represents after (operation.after live) remaining := by
  cases operation with
  | add timer expire => exact perform_add_spec rep proper
  | adjust timer expire =>
    obtain ⟨old, isLive, later⟩ := proper
    exact perform_adjust_spec rep isLive later
  | del timer => exact perform_del_spec rep proper
  | tick cur =>
    obtain ⟨after, due, rest, ticked, -, -, -, result⟩ := tick_spec rep cur
    exact ⟨after, rest, ticked, result⟩

theorem performAll_spec {operations : List Operation} (proper : ProperRun live operations) :
    ∃ after remaining, performAll list operations = some after ∧
      Represents after (liveAfter live operations) remaining := by
  induction operations generalizing list live nodes with
  | nil => exact ⟨list, nodes, rfl, rep⟩
  | cons operation rest ih =>
    obtain ⟨middle, middleNodes, performed, middleRepresents⟩ := perform_spec rep proper.1
    obtain ⟨after, remaining, performedRest, result⟩ := ih middleRepresents proper.2
    refine ⟨after, remaining, ?_, result⟩
    rw [performAll, performed]
    exact performedRest

end

/-- After any sequence of additions, deletions, adjustments to later times
and ticks the list holds the live timers in the order of their expiry times,
and a tick then runs the callback of each timer that expires by `cur` exactly
once, in the order of their expiry times, removes those timers, and keeps
the others in the order they had. -/
theorem sorted_and_tick_fires_expired (operations : List Operation)
    (proper : ProperRun (fun _ => none) operations) :
    ∃ list nodes, performAll empty operations = some list ∧
      Represents list (liveAfter (fun _ => none) operations) nodes ∧
      ∀ cur, ∃ after due rest, tick list cur = some after ∧ nodes = due ++ rest ∧
        after.fired = list.fired ++ due ∧
        Expires (liveAfter (fun _ => none) operations) cur due ∧
        Represents after (survivors (liveAfter (fun _ => none) operations) cur) rest := by
  obtain ⟨list, nodes, performed, rep⟩ := performAll_spec represents_empty proper
  exact ⟨list, nodes, performed, rep, tick_spec rep⟩

/-- Timers added out of order, one adjusted and one deleted. -/
theorem sorted_and_tick_fires_expired_threeTimers :
    ∃ list nodes, performAll empty [.add 1 30, .add 2 10, .add 3 20, .adjust 2 40, .del 3] =
      some list ∧
      Represents list (liveAfter (fun _ => none)
        [.add 1 30, .add 2 10, .add 3 20, .adjust 2 40, .del 3]) nodes ∧
      ∃ after due, tick list 30 = some after ∧ after.fired = list.fired ++ due ∧
        Expires (liveAfter (fun _ => none)
          [.add 1 30, .add 2 10, .add 3 20, .adjust 2 40, .del 3]) 30
          due := by
  obtain ⟨list, nodes, performed, rep, ticks⟩ := sorted_and_tick_fires_expired
    [.add 1 30, .add 2 10, .add 3 20, .adjust 2 40, .del 3]
    ⟨rfl, rfl, rfl, ⟨10, rfl, by decide⟩, rfl, trivial⟩
  obtain ⟨after, due, rest, ticked, -, fired, expires, -⟩ := ticks 30
  exact ⟨list, nodes, performed, rep, after, due, ticked, fired, expires⟩

end Skyc.Socket.SortTimerLst
