import Mathlib

/-!
# Segments of a path

A separator cuts a path into segments.  A segment of one dot is left out, a
segment of two dots takes the segment before it off a stack, and empty segments
can be merged.
-/

namespace Skyc.Lib.DotSegments

open List Option

universe u

structure Signs (α : Type u) where
  separator : α
  dot : α
  apart : dot ≠ separator

section

variable {α : Type u} (signs : Signs α)

/-- The path of the segments of a stack, the top one first, and of a last segment. -/
def render : List (List α) → List α → List α
  | [], last => signs.separator :: last
  | segment :: below, last => render below segment ++ signs.separator :: last

theorem render_append (stack : List (List α)) (last more : List α) :
    render signs stack last ++ more = render signs stack (last ++ more) := by
  cases stack with
  | nil => rfl
  | cons segment below => simp [render]

theorem render_push (stack : List (List α)) (segment : List α) :
    render signs stack segment ++ [signs.separator] = render signs (segment :: stack) [] := rfl

theorem render_head (stack : List (List α)) (last : List α) :
    (render signs stack last).head? = some signs.separator := by
  induction stack generalizing last with
  | nil => rfl
  | cons segment below ih => simp [render, head?_append, ih]

theorem render_eq_flatMap (stack : List (List α)) (last : List α) :
    render signs stack last = (stack.reverse ++ [last]).flatMap (signs.separator :: ·) := by
  induction stack generalizing last with
  | nil => simp [render]
  | cons segment below ih => simp [render, ih]

theorem separator_intercalate {segments : List (List α)} (some_segment : segments ≠ []) :
    signs.separator :: [signs.separator].intercalate segments =
      segments.flatMap (signs.separator :: ·) := by
  induction segments with
  | nil => contradiction
  | cons segment rest ih =>
    cases rest with
    | nil => simp
    | cons next others =>
      rw [intercalate_cons_cons, flatMap_cons, ← ih (by simp)]
      simp

variable [DecidableEq α]

/-- What a segment does to the stack when a separator follows it. -/
def close (merge : Bool) (stack : List (List α)) (segment : List α) : Option (List (List α)) :=
  if segment = [signs.dot] then some stack
  else if segment = [signs.dot, signs.dot] then stack.tail?
  else if merge && segment.isEmpty then some stack
  else some (segment :: stack)

def conclude (stack : List (List α)) (segment : List α) : Option (List α) :=
  if segment = [signs.dot] then some (render signs stack [])
  else if segment = [signs.dot, signs.dot] then
    stack.tail?.map fun below => render signs below []
  else some (render signs stack segment)

/-- Resolves the segments of a path on a stack; none when there is nothing to pop. -/
def resolve (merge : Bool) : List (List α) → List (List α) → Option (List α)
  | _, [] => none
  | stack, [last] => conclude signs stack last
  | stack, segment :: rest =>
    (close signs merge stack segment).bind fun next => resolve merge next rest

/-- Resolves a path letter by letter; the letters of the segment at hand are `current`. -/
def advance (merge : Bool) : List (List α) → List α → List α → Option (List α)
  | stack, current, [] => conclude signs stack current
  | stack, current, letter :: rest =>
    if letter = signs.separator then
      (close signs merge stack current).bind fun next => advance merge next [] rest
    else advance merge stack (current ++ [letter]) rest

theorem advance_eq_resolve (merge : Bool) (stack : List (List α)) (current text : List α) :
    advance signs merge stack current text = resolve signs merge stack
      ((text.splitOn signs.separator).modifyHead (current ++ ·)) := by
  induction text generalizing stack current with
  | nil => simp [advance, resolve]
  | cons letter rest ih =>
    rw [advance, splitOn_cons_eq_if_modifyHead]
    by_cases separates : letter = signs.separator
    · have segments := splitOn_ne_nil signs.separator rest
      simp only [separates, if_true, BEq.rfl, modifyHead_cons, append_nil]
      rcases split : rest.splitOn signs.separator with _ | ⟨segment, others⟩
      · contradiction
      · rw [resolve]
        · congr 1
          funext next
          rw [ih, split]
          simp
        · simp
    · rw [if_neg separates, ih, if_neg (by simpa using separates), modifyHead_modifyHead]
      congr 2
      funext segment
      simp

/-! ## What is left -/

def Named (segment : List α) : Prop :=
  segment ≠ [signs.dot] ∧ segment ≠ [signs.dot, signs.dot]

def Kept (merge : Bool) (stack : List (List α)) : Prop :=
  ∀ segment ∈ stack, signs.separator ∉ segment ∧ Named signs segment ∧ (merge = true → segment ≠ [])

/-- No segment is made of one dot or of two, and none but the last one is empty if empty
segments are merged. -/
structure Resolved (merge : Bool) (path : List α) : Prop where
  starts : path.head? = some signs.separator
  named : ∀ segment ∈ path.tail.splitOn signs.separator, Named signs segment
  inner : merge = true → ∀ segment ∈ (path.tail.splitOn signs.separator).dropLast, segment ≠ []

variable {signs}

variable {stack : List (List α)} {merge : Bool}

theorem splitOn_render {last : List α} (stackSplit : ∀ segment ∈ stack, signs.separator ∉ segment)
    (lastSplit : signs.separator ∉ last) :
    (render signs stack last).tail.splitOn signs.separator = stack.reverse ++ [last] := by
  have some_segment : stack.reverse ++ [last] ≠ [] := by simp
  rw [render_eq_flatMap, ← separator_intercalate signs some_segment, tail_cons]
  apply splitOn_intercalate _ _ some_segment
  exact forall_mem_append.mpr ⟨fun segment inside => stackSplit segment (mem_reverse.mp inside),
    forall_mem_singleton.mpr lastSplit⟩

theorem render_resolved {last : List α}
    (kept : Kept signs merge stack) (lastSplit : signs.separator ∉ last)
    (lastNamed : Named signs last) : Resolved signs merge (render signs stack last) := by
  have segments := splitOn_render (fun segment member => (kept segment member).1) lastSplit
  constructor
  · exact render_head signs stack last
  · intro segment member
    rw [segments] at member
    rcases mem_append.mp member with inside | inside
    · exact (kept segment (mem_reverse.mp inside)).2.1
    · rw [mem_singleton.mp inside]
      exact lastNamed
  · intro merges segment member
    rw [segments, dropLast_concat] at member
    exact (kept segment (mem_reverse.mp member)).2.2 merges

omit [DecidableEq α] in
theorem nil_named : Named signs ([] : List α) := by
  simp [Named]

section

variable (kept : Kept signs merge stack)
include kept

omit [DecidableEq α] in
theorem kept_tail {below : List (List α)} (popped : stack.tail? = some below) :
    Kept signs merge below := by
  intro segment member
  apply kept segment
  cases stack with
  | nil => simp at popped
  | cons top lower =>
    simp only [tail?_cons, some.injEq] at popped
    exact mem_cons_of_mem top (popped ▸ member)

theorem close_kept {next : List (List α)} {segment : List α}
    (segmentSplit : signs.separator ∉ segment)
    (closes : close signs merge stack segment = some next) : Kept signs merge next := by
  unfold close at closes
  split_ifs at closes with one two empty
  · cases closes
    exact kept
  · exact kept_tail kept closes
  · cases closes
    exact kept
  · cases closes
    intro other member
    rcases mem_cons.mp member with rfl | below
    · refine ⟨segmentSplit, ⟨one, two⟩, ?_⟩
      intro merges nothing
      simp [merges, nothing] at empty
    · exact kept other below

theorem conclude_resolved {segment path : List α} (segmentSplit : signs.separator ∉ segment)
    (concludes : conclude signs stack segment = some path) : Resolved signs merge path := by
  unfold conclude at concludes
  split_ifs at concludes with one two
  · cases concludes
    exact render_resolved kept (by simp) nil_named
  · rcases map_eq_some_iff.mp concludes with ⟨below, popped, rfl⟩
    exact render_resolved (kept_tail kept popped) (by simp) nil_named
  · cases concludes
    exact render_resolved kept segmentSplit ⟨one, two⟩

theorem advance_resolved {current text path : List α} (currentSplit : signs.separator ∉ current)
    (advances : advance signs merge stack current text = some path) :
    Resolved signs merge path := by
  induction text generalizing stack current with
  | nil => exact conclude_resolved kept currentSplit advances
  | cons letter rest ih =>
    rw [advance] at advances
    split_ifs at advances with separates
    · rcases bind_eq_some_iff.mp advances with ⟨next, closes, further⟩
      exact ih (close_kept kept currentSplit closes) (by simp) further
    · apply ih kept _ advances
      simp [currentSplit, Ne.symm separates]

end

theorem resolve_named {segments : List (List α)} {last : List α}
    (named : ∀ segment ∈ segments ++ [last], Named signs segment)
    (inner : merge = true → ∀ segment ∈ segments, segment ≠ []) :
    resolve signs merge stack (segments ++ [last]) =
      some (render signs (segments.reverse ++ stack) last) := by
  induction segments generalizing stack with
  | nil =>
    have ⟨one, two⟩ := named last mem_cons_self
    simp [resolve, conclude, one, two]
  | cons segment rest ih =>
    have ⟨⟨one, two⟩, others⟩ := forall_mem_cons.mp named
    have closes : close signs merge stack segment = some (segment :: stack) := by
      rw [close, if_neg one, if_neg two, if_neg]
      rw [Bool.and_eq_true, List.isEmpty_iff]
      exact fun ⟨merges, nothing⟩ => inner merges segment mem_cons_self nothing
    rw [cons_append, resolve, closes, bind_some,
      ih others fun merges => (forall_mem_cons.mp (inner merges)).2]
    · simp
    · simp

/-- Nothing is left to do for a path that is resolved. -/
theorem Resolved.resolve_eq {path : List α} (resolved : Resolved signs merge path) :
    resolve signs merge [] (path.tail.splitOn signs.separator) = some path := by
  have ⟨starts, named, inner⟩ := resolved
  have some_segment := splitOn_ne_nil signs.separator path.tail
  have segments := dropLast_concat_getLast some_segment
  have joined := separator_intercalate signs some_segment
  rw [intercalate_splitOn, cons_head?_tail starts] at joined
  rw [← segments] at named
  rw [← segments, resolve_named named inner, render_eq_flatMap]
  simp [segments, ← joined]

end

end Skyc.Lib.DotSegments
