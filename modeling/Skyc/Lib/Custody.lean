import Mathlib

/-!
# Custody of tokens

Tokens wait in one queue or are held by one party each.  `Custody` ties the
queue and the parties' hands to a map that says at which stage every token
is; a token without a stage is nowhere.
-/

namespace Skyc.Lib

open Function Option List

variable {Party Token Stage : Type*}

theorem update_cases {α β : Type*} [DecidableEq α] {f : α → β} {place found : α} {new value : β}
    (known : update f place new found = value) :
    found = place ∧ new = value ∨ found ≠ place ∧ f found = value := by
  by_cases same : found = place
  · rw [same, update_self] at known
    exact .inl ⟨same, known⟩
  · rw [update_of_ne same] at known
    exact .inr ⟨same, known⟩

/-- The queue, the parties' hands and the stage map tell the same story, and
every token is in one place at most. -/
structure Custody (queued : Stage) (queue : List Token) (held : Party → Option (Token × Stage))
    (stage : Token → Option Stage) : Prop where
  nodup : queue.Nodup
  mem_queue_iff : ∀ token, token ∈ queue ↔ stage token = some queued
  stage_of_held : ∀ {party token current}, held party = some (token, current) →
    stage token = some current ∧ current ≠ queued
  exists_holder : ∀ {token current}, stage token = some current → current ≠ queued →
    ∃ party, held party = some (token, current)
  holder_unique : ∀ {first second token firstStage secondStage},
    held first = some (token, firstStage) →
    held second = some (token, secondStage) → first = second

namespace Custody

variable {queued : Stage} {queue : List Token}
  {held : Party → Option (Token × Stage)} {stage : Token → Option Stage}

theorem start : Custody queued ([] : List Token) (fun _ : Party => none) (fun _ => none) where
  nodup := nodup_nil
  mem_queue_iff := by simp
  stage_of_held := by simp
  exists_holder := by simp
  holder_unique := by simp

variable {party : Party} {token : Token} {current next : Stage} {rest : List Token}

theorem not_mem_queue_of_held (custody : Custody queued queue held stage)
    (holds : held party = some (token, current)) : token ∉ queue := by
  intro member
  have waiting := (custody.mem_queue_iff token).mp member
  have known := custody.stage_of_held holds
  rw [waiting, some.injEq] at known
  exact known.2 known.1.symm

variable [DecidableEq Party] [DecidableEq Token]

section

variable (custody : Custody queued queue held stage)
include custody

/-- A party's hand changes to a token that nobody else holds and that is not
in the queue. -/
theorem settle (free : held party = none ∨ ∃ current, held party = some (token, current)) (unheld :
      ∀ other current, held other = some (token, current) → other = party)
    (notQueued : next ≠ queued) (restNodup : rest.Nodup)
    (restIff : ∀ other, other ∈ rest ↔ other ∈ queue ∧ other ≠ token) :
    Custody queued rest (update held party (some (token, next)))
      (update stage token (some next)) := by
  have otherHolders : ∀ other found current, update held party (some (token, next)) other =
            some (found, current) →
          (other = party ∧ found = token ∧ current = next) ∨ (other ≠ party ∧ found ≠ token ∧
            held other = some (found, current)) := by
    intro other found current holds
    rcases update_cases holds with ⟨rfl, same⟩ | ⟨same, holds⟩
    · cases same
      exact .inl ⟨rfl, rfl, rfl⟩
    · refine .inr ⟨same, ?_, holds⟩
      intro sameToken
      subst found
      exact same (unheld other current holds)
  constructor
  · exact restNodup
  · intro other
    rw [restIff other]
    by_cases same : other = token
    · subst other
      simp [notQueued]
    · rw [update_of_ne same, ← custody.mem_queue_iff other]
      exact ⟨fun both => both.1, fun member => ⟨member, same⟩⟩
  · intro other found current holds
    rcases otherHolders other found current holds with
      ⟨_, sameToken, sameStage⟩ | ⟨_, otherToken, earlier⟩
    · subst found
      subst current
      exact ⟨update_self .., notQueued⟩
    · rw [update_of_ne otherToken]
      exact custody.stage_of_held earlier
  · intro found current known differs
    rcases update_cases known with ⟨rfl, now⟩ | ⟨same, known⟩
    · cases now
      exact ⟨party, update_self ..⟩
    · rcases custody.exists_holder known differs with ⟨holder, holds⟩
      have otherParty : holder ≠ party := by
        intro sameParty
        subst holder
        rcases free with empty | ⟨old, oldHeld⟩
        · rw [empty] at holds
          cases holds
        · rw [oldHeld, some.injEq, Prod.mk.injEq] at holds
          exact same holds.1.symm
      refine ⟨holder, ?_⟩
      rw [update_of_ne otherParty]
      exact holds
  · intro first second found firstStage secondStage firstHolds secondHolds
    rcases otherHolders _ _ _ firstHolds with
      ⟨firstParty, firstToken, _⟩ | ⟨_, firstOther, firstEarlier⟩
    · rcases otherHolders _ _ _ secondHolds with
        ⟨secondParty, _, _⟩ | ⟨_, secondOther, _⟩
      · rw [firstParty, secondParty]
      · exact absurd firstToken secondOther
    · rcases otherHolders _ _ _ secondHolds with
        ⟨_, secondToken, _⟩ | ⟨_, _, secondEarlier⟩
      · exact absurd secondToken firstOther
      · exact custody.holder_unique firstEarlier secondEarlier

theorem create
    (empty : held party = none) (absent : stage token = none) (notQueued : next ≠ queued) :
    Custody queued queue (update held party (some (token, next)))
      (update stage token (some next)) := by
  apply custody.settle (.inl empty) _ notQueued custody.nodup
  · intro other
    constructor
    · intro member
      refine ⟨member, ?_⟩
      intro same
      subst other
      rw [custody.mem_queue_iff, absent] at member
      cases member
    · intro both
      exact both.1
  · intro other current holds
    have known := (custody.stage_of_held holds).1
    rw [absent] at known
    cases known

theorem advance (holds : held party = some (token, current)) (notQueued : next ≠ queued) :
    Custody queued queue (update held party (some (token, next)))
      (update stage token (some next)) := by
  apply custody.settle (.inr ⟨current, holds⟩) _ notQueued custody.nodup
  · intro other
    constructor
    · intro member
      refine ⟨member, ?_⟩
      intro same
      subst other
      exact custody.not_mem_queue_of_held holds member
    · intro both
      exact both.1
  · intro other otherStage otherHolds
    exact custody.holder_unique otherHolds holds

omit custody in
theorem take (custody : Custody queued (token :: rest) held stage)
    (empty : held party = none) (notQueued : next ≠ queued) :
    Custody queued rest (update held party (some (token, next)))
      (update stage token (some next)) := by
  rcases nodup_cons.mp custody.nodup with ⟨notInRest, restNodup⟩
  apply custody.settle (.inl empty) _ notQueued restNodup
  · intro other
    rw [mem_cons]
    constructor
    · intro member
      refine ⟨.inr member, ?_⟩
      intro same
      subst other
      exact notInRest member
    · rintro ⟨first | member, apart⟩
      · exact absurd first apart
      · exact member
  · intro other current holds
    exact absurd mem_cons_self (custody.not_mem_queue_of_held holds)

section

variable (holds : held party = some (token, current))
include holds

/-- A party lets go of its token; the token has no stage any more or goes to
the end of the queue. -/
theorem drop {next : Option Stage} (nextQueued : ∀ target, next = some target → target = queued)
    (restNodup : rest.Nodup)
    (restIff : ∀ other, other ∈ rest ↔ other ∈ queue ∨ (other = token ∧ next = some queued)) :
    Custody queued rest (update held party none) (update stage token next) := by
  have remaining : ∀ other found otherStage,
      update held party none other = some (found, otherStage) →
        held other = some (found, otherStage) ∧ found ≠ token := by
    intro other found otherStage otherHolds
    rcases update_cases otherHolds with ⟨_, impossible⟩ | ⟨same, otherHolds⟩
    · cases impossible
    · refine ⟨otherHolds, ?_⟩
      intro sameToken
      subst found
      exact same (custody.holder_unique otherHolds holds)
  constructor
  · exact restNodup
  · intro other
    rw [restIff other]
    by_cases same : other = token
    · subst other
      have notMember := custody.not_mem_queue_of_held holds
      simp [notMember]
    · rw [update_of_ne same, ← custody.mem_queue_iff other]
      simp [same]
  · intro other found otherStage otherHolds
    rcases remaining other found otherStage otherHolds with
      ⟨earlier, otherToken⟩
    rw [update_of_ne otherToken]
    exact custody.stage_of_held earlier
  · intro found foundStage known differs
    rcases update_cases known with ⟨rfl, now⟩ | ⟨same, known⟩
    · exact absurd (nextQueued foundStage now) differs
    · rcases custody.exists_holder known differs with ⟨holder, holderHolds⟩
      have otherParty : holder ≠ party := by
        intro sameParty
        subst holder
        rw [holds, some.injEq, Prod.mk.injEq] at holderHolds
        exact same holderHolds.1.symm
      refine ⟨holder, ?_⟩
      rw [update_of_ne otherParty]
      exact holderHolds
  · intro first second found firstStage secondStage firstHolds secondHolds
    exact custody.holder_unique (remaining _ _ _ firstHolds).1 (remaining _ _ _ secondHolds).1

theorem give :
    Custody queued (queue ++ [token]) (update held party none)
      (update stage token (some queued)) := by
  have absent := custody.not_mem_queue_of_held holds
  apply custody.drop holds
  · intro target same
    exact (some.inj same).symm
  · rw [nodup_append]
    refine ⟨custody.nodup, nodup_singleton token, ?_⟩
    intro first member second last same
    rw [mem_singleton.mp last] at same
    subst first
    exact absent member
  · simp

theorem release :
    Custody queued queue (update held party none) (update stage token none) := by
  apply custody.drop holds
  · exact nofun
  · exact custody.nodup
  · simp

end

end

end Custody

end Skyc.Lib
