import Skyc.Lib.SmoothRotation

/-!
# The round-robin balancer

`ngx_http_upstream_get_peer` raises the current weight of every peer that may be
tried by its effective weight, picks the first one of greatest current weight and
takes from it what was added in all.

The list of peers is a function of the position in the list, and `best` and
`rrp->current` are positions.  A weight is an `ngx_int_t`, an integer whose
arithmetic wraps around.
-/

namespace Skyc.Nginx.RoundRobin

open Skyc.Lib Function List Int Rotation

/-- The `ngx_int_t` that an operation leaves. -/
def word (value : ℤ) : ℤ :=
  value.bmod (2 ^ 64)

theorem word_eq {value : ℤ} (lower : -(2 ^ 64) ≤ 2 * value) (upper : 2 * value < 2 ^ 64) :
    word value = value :=
  bmod_eq_of_le_mul_two (by push_cast; omega) (by push_cast; omega)

/-- `ngx_http_upstream_rr_peer_t` -/
structure Peer where
  currentWeight : ℤ
  effectiveWeight : ℤ
  weight : ℤ
  conns : BitVec 64
  maxConns : BitVec 64
  fails : BitVec 64
  accessed : ℤ
  checked : ℤ
  maxFails : BitVec 64
  failTimeout : ℤ
  down : Bool

variable {number : ℕ}

abbrev Peers (number : ℕ) := Fin number → Peer

/-- `rrp->tried` -/
abbrev Tried := ℕ → BitVec 64

/-- The mask `(uintptr_t) 1 << i % (8 * sizeof(uintptr_t))`. -/
def mask (i : ℕ) : BitVec 64 :=
  1#64 <<< (i % 64)

/-- No `continue` of the loop of `ngx_http_upstream_get_peer` is reached. -/
def eligible (now : ℤ) (tried : Tried) (i : ℕ) (peer : Peer) : Bool :=
  (tried (i / 64) &&& mask i) = 0 ∧ peer.down = false ∧
    ¬ (peer.maxFails ≠ 0 ∧ peer.maxFails.toNat ≤ peer.fails.toNat ∧
      now - peer.checked ≤ peer.failTimeout) ∧
    ¬ (peer.maxConns ≠ 0 ∧ peer.maxConns.toNat ≤ peer.conns.toNat)

/-- What a turn of the loop does to the weights of a peer. -/
def raise (peer : Peer) : Peer :=
  { peer with
    currentWeight := word (peer.currentWeight + peer.effectiveWeight)
    effectiveWeight :=
      if peer.effectiveWeight < peer.weight then word (peer.effectiveWeight + 1)
      else peer.effectiveWeight }

/-- The variables of `ngx_http_upstream_get_peer`; `best` is also its `p`. -/
structure Scan (number : ℕ) where
  peers : Peers number
  best : Option (Fin number)
  total : ℤ

/-- `best == NULL || peer->current_weight > best->current_weight` -/
def better (peers : Peers number) (best : Option (Fin number)) (i : Fin number) : Bool :=
  match best with
  | none => true
  | some b => (peers b).currentWeight < (peers i).currentWeight

/-- A turn of the loop of `ngx_http_upstream_get_peer`. -/
def visit (now : ℤ) (tried : Tried) (scan : Scan number) (i : Fin number) : Scan number :=
  if eligible now tried i (scan.peers i) then
    let peers := update scan.peers i (raise (scan.peers i))
    { peers := peers
      best := if better peers scan.best i then some i else scan.best
      total := word (scan.total + (scan.peers i).effectiveWeight) }
  else
    scan

def pick (now total : ℤ) (peer : Peer) : Peer :=
  { peer with
    currentWeight := word (peer.currentWeight - total)
    checked := if peer.failTimeout < now - peer.checked then now
      else peer.checked }

/-- The result of `ngx_http_upstream_get_peer`: the peer, the tried set and the
peers. -/
structure Got (number : ℕ) where
  peer : Option (Fin number)
  tried : Tried
  peers : Peers number

/-- `ngx_http_upstream_get_peer` -/
def getPeer (now : ℤ) (tried : Tried) (peers : Peers number) : Got number :=
  let scan := (finRange number).foldl (visit now tried) ⟨peers, none, 0⟩
  match scan.best with
  | none => ⟨none, tried, scan.peers⟩
  | some best =>
    { peer := some best
      tried := update tried (best / 64)
        (tried (best / 64) ||| mask best)
      peers := update scan.peers best
        (pick now scan.total (scan.peers best)) }

/-- The branch for `NGX_PEER_FAILED`. -/
def fail (now : ℤ) (peer : Peer) : Peer :=
  let lowered :=
    if peer.maxFails ≠ 0 then
      word (peer.effectiveWeight - peer.weight / (peer.maxFails.toNat : ℤ))
    else
      peer.effectiveWeight
  { peer with
    fails := peer.fails + 1
    accessed := now
    checked := now
    effectiveWeight := if lowered < 0 then 0 else lowered }

def succeed (peer : Peer) : Peer :=
  { peer with
    fails := if peer.accessed < peer.checked then 0 else peer.fails }

/-- `ngx_http_upstream_free_round_robin_peer` for the peer `rrp->current`, in a
list with the given flag `single`. -/
def freePeer (now : ℤ) (single failed : Bool) (peer : Peer) : Peer :=
  if single then
    { peer with conns := peer.conns - 1 }
  else
    let peer := if failed then fail now peer else succeed peer
    { peer with conns := peer.conns - 1 }

/-! ## The loop -/

section Loop

variable {now : ℤ} {tried : Tried} {peers : Peers number}

def mayTry (now : ℤ) (tried : Tried) (peers : Peers number) (i : Fin number) : Bool :=
  eligible now tried i (peers i)

def addition (now : ℤ) (tried : Tried) (peers : Peers number) (i : Fin number) : ℤ :=
  if mayTry now tried peers i then (peers i).effectiveWeight else 0

/-- What the loop has done when it has passed some peers. -/
structure Scanned (now : ℤ) (tried : Tried) (peers : Peers number)
    (visited : List (Fin number)) (scan : Scan number) : Prop where
  isPeer : ∀ i, scan.peers i =
    if i ∈ visited ∧ mayTry now tried peers i then raise (peers i) else peers i
  isTotal : scan.total = word (visited.map (addition now tried peers)).sum
  isNone : scan.best = none → ∀ i ∈ visited, mayTry now tried peers i = false
  isBest : ∀ b, scan.best = some b → mayTry now tried peers b ∧ b ∈ visited ∧
    ∀ i ∈ visited, mayTry now tried peers i →
      (raise (peers i)).currentWeight ≤ (raise (peers b)).currentWeight

theorem scanned_nil : Scanned now tried peers [] ⟨peers, none, 0⟩ := by
  refine ⟨?_, rfl, ?_, ?_⟩
  · intro i
    rw [if_neg]
    rintro ⟨member, _⟩
    cases member
  · exact nofun
  · exact nofun

namespace Scanned

variable {visited : List (Fin number)} {scan : Scan number} {i : Fin number}

section

variable (scanned : Scanned now tried peers visited scan)
include scanned

theorem skip (notEligible : mayTry now tried peers i = false) :
    Scanned now tried peers (visited ++ [i]) scan := by
  have without : ∀ j, mayTry now tried peers j = true → j ∈ visited ++ [i] → j ∈ visited := by
    intro j isEligible member
    rcases mem_append.mp member with old | isNew
    · exact old
    · rw [mem_singleton.mp isNew, notEligible] at isEligible
      cases isEligible
  refine ⟨?_, ?_, ?_, ?_⟩
  · intro j
    rw [scanned.isPeer j]
    apply if_congr _ rfl rfl
    constructor
    · rintro ⟨member, isEligible⟩
      exact ⟨mem_append_left _ member, isEligible⟩
    · rintro ⟨member, isEligible⟩
      exact ⟨without j isEligible member, isEligible⟩
  · rw [scanned.isTotal, map_append, sum_append]
    simp [addition, notEligible]
  · intro noBest j member
    rcases mem_append.mp member with old | isNew
    · exact scanned.isNone noBest j old
    · rw [mem_singleton.mp isNew]
      exact notEligible
  · intro b isBest
    obtain ⟨bestEligible, bestVisited, greatest⟩ := scanned.isBest b isBest
    refine ⟨bestEligible, mem_append_left _ bestVisited, ?_⟩
    intro j member isEligible
    exact greatest j (without j isEligible member) isEligible

theorem best_weight {b : Fin number} (isBest : scan.best = some b) (fresh : i ∉ visited)
    (raised : Peer) :
    update scan.peers i raised b = raise (peers b) := by
  obtain ⟨bestEligible, bestVisited, _⟩ := scanned.isBest b isBest
  have apart : b ≠ i := by
    intro same
    exact fresh (same ▸ bestVisited)
  rw [update_of_ne apart, scanned.isPeer, if_pos ⟨bestVisited, bestEligible⟩]

theorem visit (fresh : i ∉ visited) :
    Scanned now tried peers (visited ++ [i]) (visit now tried scan i) := by
  have here : scan.peers i = peers i := by rw [scanned.isPeer, if_neg fun both => fresh both.1]
  cases isEligible : mayTry now tried peers i with
  | false =>
    have unfolded : RoundRobin.visit now tried scan i = scan := by
      rw [mayTry] at isEligible
      rw [RoundRobin.visit, here, isEligible]
      rfl
    rw [unfolded]
    exact scanned.skip isEligible
  | true =>
    have unfolded : RoundRobin.visit now tried scan i =
        { peers := update scan.peers i (raise (peers i))
          best := if better (update scan.peers i (raise (peers i)))
            scan.best i then some i else scan.best
          total := word (scan.total + (peers i).effectiveWeight) } := by
      have test := isEligible
      rw [mayTry] at test
      rw [RoundRobin.visit, here, test]
      rfl
    rw [unfolded]
    refine ⟨?_, ?_, ?_, ?_⟩
    · intro j
      change update scan.peers i (raise (peers i)) j = _
      by_cases same : j = i
      · subst same
        rw [update_self, if_pos ⟨by simp, isEligible⟩]
      · rw [update_of_ne same, scanned.isPeer]
        apply if_congr _ rfl rfl
        simp [same]
    · change word (scan.total + (peers i).effectiveWeight) = _
      rw [scanned.isTotal, map_append, sum_append, word, word, bmod_add_bmod]
      simp [addition, isEligible, word]
    · intro noBest
      change (if better _ scan.best i then some i else scan.best) = none at noBest
      cases isOld : scan.best with
      | none =>
        rw [isOld] at noBest
        cases noBest
      | some b =>
        rw [isOld] at noBest
        split at noBest
        · cases noBest
        · cases noBest
    · intro b isBest
      change (if better _ scan.best i then some i else scan.best) = some b at isBest
      cases isOld : scan.best with
      | none =>
        rw [isOld] at isBest
        cases isBest
        refine ⟨isEligible, by simp, ?_⟩
        intro j member alsoEligible
        rcases mem_append.mp member with old | isNew
        · rw [scanned.isNone isOld j old] at alsoEligible
          cases alsoEligible
        · rw [mem_singleton.mp isNew]
      | some former =>
        obtain ⟨formerEligible, formerVisited, greatest⟩ := scanned.isBest former isOld
        have formerWeight := scanned.best_weight isOld fresh (raise (peers i))
        rw [isOld, better, formerWeight, update_self] at isBest
        by_cases more : (raise (peers former)).currentWeight < (raise (peers i)).currentWeight
        · rw [if_pos (decide_eq_true more)] at isBest
          cases isBest
          refine ⟨isEligible, by simp, ?_⟩
          intro j member alsoEligible
          rcases mem_append.mp member with old | isNew
          · exact (greatest j old alsoEligible).trans more.le
          · rw [mem_singleton.mp isNew]
        · rw [if_neg (by simpa using more)] at isBest
          cases isBest
          refine ⟨formerEligible, mem_append_left _ formerVisited, ?_⟩
          intro j member alsoEligible
          rcases mem_append.mp member with old | isNew
          · exact greatest j old alsoEligible
          · rw [mem_singleton.mp isNew]
            exact not_lt.mp more

end

end Scanned

theorem scanned_foldl {visited rest : List (Fin number)} {scan : Scan number}
    (scanned : Scanned now tried peers visited scan) (distinct : (visited ++ rest).Nodup) :
    Scanned now tried peers (visited ++ rest) (rest.foldl (visit now tried) scan) := by
  induction rest generalizing visited scan with
  | nil =>
    rw [append_nil]
    exact scanned
  | cons i rest ih =>
    have fresh : i ∉ visited := by
      intro member
      exact (disjoint_of_nodup_append distinct) member mem_cons_self
    have next := ih (scanned.visit fresh) (by
      rw [append_assoc]
      exact distinct)
    rw [append_assoc] at next
    exact next

end Loop

/-! ## What a call does to the weights -/

/-- The weights of the peers as a rotation has them. -/
def balances (peers : Peers number) : Fin number → ℤ :=
  fun i => (peers i).currentWeight

def weights (peers : Peers number) : Fin number → ℤ :=
  fun i => (peers i).weight

/-- The current weights sum to zero, and no effective weight is negative or above
the weight. -/
structure Balanced (peers : Peers number) : Prop where
  sum : ∑ i, (peers i).currentWeight = 0
  nonneg : ∀ i, 0 ≤ (peers i).effectiveWeight
  atMost : ∀ i, (peers i).effectiveWeight ≤ (peers i).weight

/-- What every call keeps.  No current weight is then further from zero than half of the sum of
the weights for each other peer, so no operation of a call wraps around. -/
structure Kept (peers : Peers number) : Prop extends Balanced peers where
  spread : Rotation.Spread (∑ i, weights peers i) (balances peers)
  small : (∑ i, weights peers i) * (number + 1) < 2 ^ 64

section Call

variable {now : ℤ} {tried : Tried} {peers : Peers number} (kept : Kept peers)
include kept

theorem Kept.weight_le (i : Fin number) : (peers i).weight ≤ ∑ j, weights peers j :=
  Finset.single_le_sum (fun j _ => (kept.nonneg j).trans (kept.atMost j)) (Finset.mem_univ i)

theorem Kept.word_balance (i : Fin number) {change : ℤ} (lower : -∑ j, weights peers j ≤ change)
    (upper : change ≤ ∑ j, weights peers j) :
    word ((peers i).currentWeight + change) = (peers i).currentWeight + change := by
  have bounds := kept.spread.bounds kept.sum i
  have small := kept.small
  rw [Fintype.card_fin] at bounds
  have wide : (∑ j, weights peers j) * (number + 1) =
      (∑ j, weights peers j) * (number - 1) + 2 * ∑ j, weights peers j := by
    ring
  rw [balances] at bounds
  exact word_eq (by omega) (by omega)

theorem Kept.word_eq (i : Fin number) {value : ℤ} (lower : -∑ j, weights peers j ≤ value)
    (upper : value ≤ ∑ j, weights peers j) : word value = value := by
  have small := kept.small
  have one : (1 : ℤ) ≤ number := by exact_mod_cast i.pos
  have nonneg : 0 ≤ ∑ j, weights peers j := by omega
  exact RoundRobin.word_eq (by nlinarith) (by nlinarith)

theorem Kept.addition_nonneg (i : Fin number) : 0 ≤ addition now tried peers i := by
  rw [addition]
  split
  · exact kept.nonneg i
  · exact le_rfl

theorem Kept.addition_le (i : Fin number) : addition now tried peers i ≤ weights peers i := by
  rw [addition]
  split
  · exact kept.atMost i
  · exact (kept.nonneg i).trans (kept.atMost i)

theorem Kept.raise_currentWeight (i : Fin number) : (raise (peers i)).currentWeight =
    (peers i).currentWeight + (peers i).effectiveWeight := by
  have nonneg := kept.nonneg i
  have atMost := (kept.atMost i).trans (kept.weight_le i)
  exact kept.word_balance i (by omega) atMost

theorem Kept.raise_effectiveWeight (i : Fin number) :
    (raise (peers i)).effectiveWeight = (peers i).effectiveWeight ∨
      (peers i).effectiveWeight < (peers i).weight ∧
        (raise (peers i)).effectiveWeight = (peers i).effectiveWeight + 1 := by
  by_cases less : (peers i).effectiveWeight < (peers i).weight
  · have nonneg := kept.nonneg i
    have atMost := kept.weight_le i
    exact .inr ⟨less, (if_pos less).trans (kept.word_eq i (by omega) (by omega))⟩
  · exact .inl (if_neg less)

end Call

/-- The weights after a call of `ngx_http_upstream_get_peer`. -/
structure Picked (now : ℤ) (tried : Tried) (peers : Peers number) (got : Got number) : Prop where
  isNone : got.peer = none → got.peers = peers
  isSome : ∀ b, got.peer = some b → (∀ i, mayTry now tried peers i →
      (peers i).currentWeight + (peers i).effectiveWeight ≤
        (peers b).currentWeight + addition now tried peers b) ∧
    balances got.peers = Rotation.advance (addition now tried peers) (balances peers) b
  effectiveWeight : ∀ i, (got.peers i).effectiveWeight = (peers i).effectiveWeight ∨
    (peers i).effectiveWeight < (peers i).weight ∧
      (got.peers i).effectiveWeight = (peers i).effectiveWeight + 1
  weight : ∀ i, (got.peers i).weight = (peers i).weight

theorem getPeer_picked (now : ℤ) (tried : Tried) {peers : Peers number} (kept : Kept peers) :
    Picked now tried peers (getPeer now tried peers) := by
  have scanned := @scanned_foldl number now tried peers [] (finRange number)
    ⟨peers, none, 0⟩ scanned_nil (nodup_finRange number)
  rw [nil_append] at scanned
  rw [getPeer]
  generalize (finRange number).foldl (visit now tried) ⟨peers, none, 0⟩ = scan at scanned
  have total : ∑ i, addition now tried peers i ≤ ∑ i, weights peers i :=
    Finset.sum_le_sum fun i _ => kept.addition_le i
  have totalNonneg : 0 ≤ ∑ i, addition now tried peers i :=
    Finset.sum_nonneg fun i _ => kept.addition_nonneg i
  have isPeer : ∀ i, scan.peers i =
      if mayTry now tried peers i then raise (peers i) else peers i := by
    intro i
    rw [scanned.isPeer]
    simp [mem_finRange]
  have current : ∀ i, (scan.peers i).currentWeight =
      (peers i).currentWeight + addition now tried peers i := by
    intro i
    rw [isPeer, addition]
    split
    · exact kept.raise_currentWeight i
    · exact (add_zero _).symm
  have effective : ∀ i, (scan.peers i).effectiveWeight = (peers i).effectiveWeight ∨
      (peers i).effectiveWeight < (peers i).weight ∧
        (scan.peers i).effectiveWeight = (peers i).effectiveWeight + 1 := by
    intro i
    rw [isPeer]
    split
    · exact kept.raise_effectiveWeight i
    · exact .inl rfl
  have sameWeight : ∀ i, (scan.peers i).weight = (peers i).weight := by
    intro i
    rw [isPeer]
    split
    · rfl
    · rfl
  cases isBest : scan.best with
  | none =>
    refine ⟨?_, ?_, effective, sameWeight⟩
    · intro _
      funext i
      change scan.peers i = peers i
      rw [isPeer, scanned.isNone isBest i (mem_finRange i)]
      rfl
    · exact nofun
  | some best =>
    obtain ⟨bestEligible, _, greatest⟩ := scanned.isBest best isBest
    refine ⟨?_, ?_, ?_, ?_⟩
    · exact nofun
    · intro b isPicked
      cases isPicked
      refine ⟨?_, funext fun i => ?_⟩
      · intro i isEligible
        have smaller := greatest i (mem_finRange i) isEligible
        rw [addition, if_pos bestEligible]
        rw [kept.raise_currentWeight, kept.raise_currentWeight] at smaller
        exact smaller
      · have isTotal : scan.total = ∑ j, addition now tried peers j := by
          rw [scanned.isTotal, ← Fin.sum_univ_def, kept.word_eq i (by omega) total]
        by_cases same : i = best
        · subst same
          have nonneg : 0 ≤ addition now tried peers i := kept.addition_nonneg i
          have atMost : addition now tried peers i ≤ weights peers i := kept.addition_le i
          have least : weights peers i ≤ _ := kept.weight_le i
          simp only [balances, advance, update_self, if_true, pick, current, isTotal, add_sub_assoc]
          exact kept.word_balance i (by omega) (by omega)
        · simp only [balances, advance, update_of_ne same, if_neg same, current, sub_zero]
    · intro i
      rcases eq_or_ne i best with rfl | apart
      · simp only [update_self]
        exact effective i
      · simp only [update_of_ne apart]
        exact effective i
    · intro i
      rcases eq_or_ne i best with rfl | apart
      · simp only [update_self]
        exact sameWeight i
      · simp only [update_of_ne apart]
        exact sameWeight i

/-! ## Sequences of calls -/

/-- A call, or a change of the fields that are not weights. -/
inductive Event (number : ℕ) where
  | getPeer (now : ℤ) (tried : Tried)
  | free (current : Fin number) (now : ℤ) (single failed : Bool)
  | change (fields : Peers number)

def after (peers : Peers number) : Event number → Peers number
  | .getPeer now tried => (getPeer now tried peers).peers
  | .free current now single failed =>
    update peers current (freePeer now single failed (peers current))
  | .change fields => fun i =>
    { fields i with
      currentWeight := (peers i).currentWeight
      effectiveWeight := (peers i).effectiveWeight
      weight := (peers i).weight }

def picks (peers : Peers number) : Event number → List (Fin number)
  | .getPeer now tried => (getPeer now tried peers).peer.toList
  | _ => []

def afterAll (peers : Peers number) (events : List (Event number)) : Peers number :=
  events.foldl after peers

def allPicks (peers : Peers number) : List (Event number) → List (Fin number)
  | [] => []
  | event :: rest => picks peers event ++ allPicks (after peers event) rest

structure Initial (peers : Peers number) : Prop where
  weight : ∀ i, 1 ≤ (peers i).weight
  currentWeight : ∀ i, (peers i).currentWeight = 0
  effectiveWeight : ∀ i, (peers i).effectiveWeight = (peers i).weight

theorem Initial.kept {peers : Peers number} (initial : Initial peers)
    (small : (∑ i, (peers i).weight) * (number + 1) < 2 ^ 64) : Kept peers := by
  have nonneg : ∀ i, 0 ≤ weights peers i := by
    intro i
    exact zero_le_one.trans (initial.weight i)
  have zero : balances peers = fun _ => 0 := funext initial.currentWeight
  refine ⟨⟨?_, ?_, ?_⟩, ?_, small⟩
  · exact Finset.sum_eq_zero fun i _ => initial.currentWeight i
  · intro i
    rw [initial.effectiveWeight]
    exact nonneg i
  · intro i
    exact le_of_eq (initial.effectiveWeight i)
  · rw [zero]
    exact spread_zero (Finset.sum_nonneg fun i _ => nonneg i)

/-- The weights after a call of `ngx_http_upstream_free_round_robin_peer`. -/
structure Freed (peer next : Peer) : Prop where
  currentWeight : next.currentWeight = peer.currentWeight
  weight : next.weight = peer.weight
  nonneg : 0 ≤ next.effectiveWeight
  atMost : next.effectiveWeight ≤ peer.weight

section Kept

variable {peers : Peers number} (kept : Kept peers)
include kept

theorem freePeer_freed (current : Fin number) (now : ℤ) (single failed : Bool) :
    Freed (peers current) (freePeer now single failed (peers current)) := by
  have nonneg := kept.nonneg current
  have atMost := kept.atMost current
  have least := kept.weight_le current
  have word_eq := @Kept.word_eq _ _ kept current
  generalize peers current = peer at *
  cases single with
  | true => exact ⟨rfl, rfl, nonneg, atMost⟩
  | false =>
    cases failed with
    | false => exact ⟨rfl, rfl, nonneg, atMost⟩
    | true =>
      have positive : 0 ≤ peer.weight / (peer.maxFails.toNat : ℤ) :=
        ediv_nonneg (nonneg.trans atMost) (natCast_nonneg _)
      have quotient : peer.weight / (peer.maxFails.toNat : ℤ) ≤ peer.weight :=
        Int.ediv_le_self _ (nonneg.trans atMost)
      have clamped : ∀ lowered ≤ peer.weight, 0 ≤ (if lowered < 0 then 0 else lowered) ∧
          (if lowered < 0 then 0 else lowered) ≤ peer.weight := by
        intro lowered small
        by_cases negative : lowered < 0
        · rw [if_pos negative]
          exact ⟨le_refl 0, nonneg.trans atMost⟩
        · rw [if_neg negative]
          exact ⟨not_lt.mp negative, small⟩
      suffices small : _ ≤ peer.weight from ⟨rfl, rfl, (clamped _ small).1, (clamped _ small).2⟩
      split
      · rw [word_eq (by omega) (by omega)]
        omega
      · exact atMost

theorem after_freed (current : Fin number) (now : ℤ) (single failed : Bool) (i : Fin number) :
    Freed (peers i) (after peers (.free current now single failed) i) := by
  rw [after]
  rcases eq_or_ne i current with rfl | apart
  · rw [update_self]
    exact freePeer_freed kept i now single failed
  · rw [update_of_ne apart]
    exact ⟨rfl, rfl, kept.nonneg i, kept.atMost i⟩

theorem after_weights (event : Event number) : weights (after peers event) = weights peers := by
  funext i
  cases event with
  | getPeer now tried => exact (getPeer_picked now tried kept).weight i
  | free current now single failed => exact (after_freed kept current now single failed i).weight
  | change fields => rfl

theorem kept_after (event : Event number) : Kept (after peers event) := by
  have sameWeights := after_weights kept event
  suffices weights : Balanced (after peers event) ∧
      Rotation.Spread (∑ i, weights peers i) (balances (after peers event)) by
    refine ⟨weights.1, ?_, ?_⟩
    · rw [sameWeights]
      exact weights.2
    · rw [sameWeights]
      exact kept.small
  cases event with
  | getPeer now tried =>
    have picked := getPeer_picked now tried kept
    rw [after]
    generalize getPeer now tried peers = got at picked
    have moved : ∑ i, balances got.peers i = 0 ∧
        Rotation.Spread (∑ i, weights peers i) (balances got.peers) := by
      cases isPeer : got.peer with
      | none =>
        rw [picked.isNone isPeer]
        exact ⟨kept.sum, kept.spread⟩
      | some b =>
        obtain ⟨greatest, next⟩ := picked.isSome b isPeer
        rw [next]
        refine ⟨sum_advance.trans kept.sum, ?_⟩
        apply spread_advance kept.spread kept.addition_nonneg
          (Finset.sum_le_sum fun i _ => kept.addition_le i)
        intro i notZero
        have isEligible : mayTry now tried peers i := by
          by_contra notEligible
          exact notZero (if_neg notEligible)
        have smaller := greatest i isEligible
        nth_rewrite 1 [addition]
        rw [if_pos isEligible]
        exact smaller
    refine ⟨⟨moved.1, ?_, ?_⟩, moved.2⟩
    · intro i
      have nonneg := kept.nonneg i
      rcases picked.effectiveWeight i with same | ⟨_, more⟩
      · omega
      · omega
    · intro i
      have atMost := kept.atMost i
      rw [picked.weight i]
      rcases picked.effectiveWeight i with same | ⟨less, more⟩
      · omega
      · omega
  | free current now single failed =>
    have freed := after_freed kept current now single failed
    have everywhere : balances (after peers (.free current now single failed)) =
        balances peers := funext fun i => (freed i).currentWeight
    rw [everywhere]
    refine ⟨⟨?_, fun i => (freed i).nonneg, ?_⟩, kept.spread⟩
    · exact (congrArg (∑ i, · i) everywhere).trans kept.sum
    · intro i
      rw [(freed i).weight]
      exact (freed i).atMost
  | change fields => exact ⟨{ kept.toBalanced with }, kept.spread⟩

end Kept

theorem kept_afterAll {peers : Peers number} (kept : Kept peers)
    (events : List (Event number)) : Kept (afterAll peers events) := by
  induction events generalizing peers with
  | nil => exact kept
  | cons event rest ih => exact ih (kept_after kept event)

/-! ## Rotations -/

def Quiet (peers : Peers number) : Event number → Prop
  | .getPeer now tried => ∀ i, mayTry now tried peers i
  | .free _ _ _ failed => failed = false
  | .change _ => True

/-- Every peer may be tried whenever one is picked, and none fails. -/
def AllQuiet : Peers number → List (Event number) → Prop
  | _, [] => True
  | peers, event :: rest => Quiet peers event ∧ AllQuiet (after peers event) rest

/-- A quiet event is a turn of the rotation, or changes no weight. -/
theorem quiet_turns {peers : Peers number} (kept : Kept peers)
    (full : ∀ i, (peers i).effectiveWeight = (peers i).weight)
    (event : Event number) (quiet : Quiet peers event) :
    Rotation.Turns (weights peers) (balances peers) (picks peers event)
        (balances (after peers event)) ∧
      ∀ i, (after peers event i).effectiveWeight = (after peers event i).weight := by
  cases event with
  | getPeer now tried =>
    have picked := getPeer_picked now tried kept
    rw [after, picks]
    generalize getPeer now tried peers = got at picked
    have additions : addition now tried peers = weights peers := by
      funext i
      rw [addition, if_pos (quiet i), full i]
      rfl
    refine ⟨?_, ?_⟩
    · cases isPeer : got.peer with
      | none =>
        rw [picked.isNone isPeer]
        exact Rotation.Turns.nil _
      | some b =>
        obtain ⟨greatest, next⟩ := picked.isSome b isPeer
        rw [additions] at greatest next
        rw [next]
        refine Rotation.Turns.cons ?_ (Rotation.Turns.nil _)
        intro i
        have smaller := greatest i (quiet i)
        rw [full i] at smaller
        exact smaller
    · intro i
      rw [picked.weight i]
      rcases picked.effectiveWeight i with same | ⟨less, _⟩
      · rw [same, full i]
      · rw [full i] at less
        exact absurd less (lt_irrefl _)
  | free current now single failed =>
    have notFailed : failed = false := quiet
    subst notFailed
    have unchanged : ∀ i, (after peers (.free current now single false) i).currentWeight =
            (peers i).currentWeight ∧
          (after peers (.free current now single false) i).effectiveWeight =
            (peers i).effectiveWeight := by
      intro i
      by_cases same : i = current
      · subst same
        rw [after, update_self]
        cases single with
        | true | false => exact ⟨rfl, rfl⟩
      · rw [after, update_of_ne same]
        exact ⟨rfl, rfl⟩
    refine ⟨?_, ?_⟩
    · have same : balances (after peers (.free current now single false)) = balances peers := by
        funext i
        exact (unchanged i).1
      rw [same]
      exact Rotation.Turns.nil _
    · intro i
      rw [(unchanged i).2, full i]
      exact (congrFun (after_weights kept _) i).symm
  | change fields => exact ⟨Rotation.Turns.nil _, full⟩

theorem allQuiet_turns {peers : Peers number} (kept : Kept peers)
    (full : ∀ i, (peers i).effectiveWeight = (peers i).weight)
    (events : List (Event number)) (quiet : AllQuiet peers events) :
    Rotation.Turns (weights peers) (balances peers) (allPicks peers events)
      (balances (afterAll peers events)) := by
  induction events generalizing peers with
  | nil => exact Rotation.Turns.nil _
  | cons event rest ih =>
    obtain ⟨first, stillFull⟩ := quiet_turns kept full event quiet.1
    have second := ih (kept_after kept event) stillFull quiet.2
    rw [after_weights kept event] at second
    exact first.append second

def period (peers : Peers number) : ℕ :=
  (∑ i, (peers i).weight).toNat

/-- When the sum of the weights is small for the number of peers, the current
weights sum to zero after every sequence of calls and every effective weight is
between zero and the weight.  While every peer may be tried and none fails, each
block of as many picks as the weights sum to chooses every peer as often as its
weight says, and leaves the current weights at zero. -/
theorem roundRobin_fair (peers : Peers number) (initial : Initial peers)
    (small : (∑ i, (peers i).weight) * (number + 1) < 2 ^ 64) :
    (∀ events, Balanced (afterAll peers events)) ∧ ∀ events blocks, AllQuiet peers events →
      (allPicks peers events).length = blocks * period peers →
      (∀ i, (afterAll peers events i).currentWeight = 0) ∧
        ∀ block < blocks, ∀ i, ((((allPicks peers events).drop (block * period peers)).take
          (period peers)).count i : ℤ) = (peers i).weight := by
  have kept := initial.kept small
  refine ⟨fun events => (kept_afterAll kept events).toBalanced, ?_⟩
  intro events blocks quiet complete
  have turns := allQuiet_turns kept initial.effectiveWeight events quiet
  have start : balances peers = fun _ => 0 := funext initial.currentWeight
  rw [start] at turns
  have nonneg : ∀ i, 0 ≤ weights peers i := fun i => (kept.nonneg i).trans (kept.atMost i)
  have sumNonneg : 0 ≤ ∑ i, weights peers i := Finset.sum_nonneg fun i _ => nonneg i
  have isPeriod : (period peers : ℤ) = ∑ i, weights peers i := toNat_of_nonneg sumNonneg
  -- a list without peers has nothing to show
  have positive : ∀ _ : Fin number, 0 < ∑ i, weights peers i := by
    intro i
    have least := kept.weight_le i
    have atLeastOne := initial.weight i
    omega
  refine ⟨?_, ?_⟩
  · intro i
    have zero := (turns.periods (positive i) nonneg isPeriod complete).1
    exact congrFun zero i
  · intro block less i
    exact (turns.periods (positive i) nonneg isPeriod complete).2 block less i

/-- Peers with the given weights, before the first call. -/
def fresh (weight : Fin number → ℤ) : Peers number := fun i =>
  { currentWeight := 0
    effectiveWeight := weight i
    weight := weight i
    conns := 0
    maxConns := 0
    fails := 0
    accessed := 0
    checked := 0
    maxFails := 1
    failTimeout := 10
    down := false }

/-- Two peers of the weights two and one, and three calls. -/
theorem roundRobin_fair_twoPeers :
    (∀ events, Balanced (afterAll (fresh ![2, 1]) events)) ∧
      allPicks (fresh ![2, 1]) (replicate 3 (.getPeer 0 fun _ => 0)) = [0, 1, 0] ∧
      (∀ i, (afterAll (fresh ![2, 1]) (replicate 3 (.getPeer 0 fun _ => 0)) i).currentWeight = 0) ∧
      ∀ i, ((([0, 1, 0] : List (Fin 2)).count i : ℕ) : ℤ) = (![2, 1] : Fin 2 → ℤ) i := by
  have fair := roundRobin_fair (fresh ![2, 1]) ⟨by decide, fun _ => rfl, fun _ => rfl⟩ (by decide)
  have turns : allPicks (fresh ![2, 1]) (replicate 3 (.getPeer 0 fun _ => 0)) = [0, 1, 0] := rfl
  obtain ⟨zero, counts⟩ := fair.2 (replicate 3 (.getPeer 0 fun _ => 0)) 1
    ⟨by rw [Quiet]; decide, by rw [Quiet]; decide, by rw [Quiet]; decide, trivial⟩ rfl
  exact ⟨fair.1, turns, zero, counts 0 Nat.one_pos⟩

/-- Four peers of weight 2^62: the total of the first call wraps around to zero. -/
theorem not_balanced_wrappedTotal :
    Initial (fresh fun _ : Fin 4 => 2 ^ 62) ∧
      ¬ Balanced (afterAll (fresh fun _ : Fin 4 => 2 ^ 62) [.getPeer 0 fun _ => 0]) := by
  refine ⟨⟨by decide, fun _ => rfl, fun _ => rfl⟩, fun balanced => ?_⟩
  have sum := balanced.sum
  revert sum
  decide +kernel

end Skyc.Nginx.RoundRobin
