import Skyc.Lib.RankedForest

/-!
# Disjoint sets

`disjoint_set.c`: union by rank with path compression over two arrays.  An access
outside an array, or a loop of `disjoint_set_find` that has not ended after
`DISJOINT_SET_MAX` rounds, has no result.
-/

namespace Skyc.Utils.DisjointSets

open Skyc.Lib Option RankedForest

/-! ## The functions of `disjoint_set.c` -/

/-- `DISJOINT_SET_MAX` -/
def disjointSetMax : ℕ :=
  128

abbrev Entries :=
  Vector ℕ disjointSetMax

structure DisjointSet where
  maxNodes : Int
  rank : Entries
  parent : Entries
deriving DecidableEq

/-- `entries[i] = value` -/
def put (entries : Entries) (i value : ℕ) : Option Entries :=
  if inside : i < disjointSetMax then
    some (entries.set i value inside)
  else
    none

/-- One round of the loop of `disjoint_set_make`. -/
def makeNode (set : DisjointSet) (i : ℕ) : Option DisjointSet := do
  let parent ← put set.parent i i
  let rank ← put set.rank i 0
  some { set with rank := rank, parent := parent }

def disjointSetMake (set : DisjointSet) (maxNodes : Int) : Option (Int × DisjointSet) :=
  if (disjointSetMax : Int) ≤ maxNodes then
    some (-1, set)
  else do
    let made ← (List.range maxNodes.toNat).foldlM makeNode { set with maxNodes := maxNodes }
    some (0, made)

/-- `while (set->parent[root] != root) root = set->parent[root];` -/
def findRoot (parent : Entries) : ℕ → ℕ → Option ℕ
  | 0, _ => none
  | rounds + 1, root => do
    let next ← parent[root]?
    if next = root then some root else findRoot parent rounds next

/-- The loop that redirects the nodes on the way from `a` to `root`. -/
def compress (root : ℕ) : ℕ → Entries → ℕ → Option Entries
  | 0, _, _ => none
  | rounds + 1, parent, a => do
    let tmp ← parent[a]?
    if tmp = root then
      some parent
    else
      let redirected ← put parent a root
      compress root rounds redirected tmp

def disjointSetFind (set : DisjointSet) (a : ℕ) : Option (ℕ × DisjointSet) := do
  let root ← findRoot set.parent disjointSetMax a
  let parent ← compress root disjointSetMax set.parent a
  some (root, { set with parent := parent })

/-- The end of `disjoint_set_union`, from `set->parent[b] = a` on. -/
def linkRoots (set : DisjointSet) (a b : ℕ) : Option DisjointSet := do
  let parent ← put set.parent b a
  let rankA ← set.rank[a]?
  let rankB ← set.rank[b]?
  if rankA = rankB then
    let rank ← put set.rank a (rankA + 1)
    some { set with rank := rank, parent := parent }
  else
    some { set with parent := parent }

def disjointSetUnion (set : DisjointSet) (a b : ℕ) : Option DisjointSet := do
  let first ← disjointSetFind set a
  let second ← disjointSetFind first.2 b
  if first.1 = second.1 then
    some second.2
  else
    let rankA ← second.2.rank[first.1]?
    let rankB ← second.2.rank[second.1]?
    -- the root of smaller rank becomes the child
    if rankA < rankB then
      linkRoots second.2 second.1 first.1
    else
      linkRoots second.2 first.1 second.1

/-- One round of the loop of `disjoint_set_num_roots`. -/
def countRoot (parent : Entries) (roots i : ℕ) : Option ℕ := do
  let up ← parent[i]?
  some (if up = i then roots + 1 else roots)

def disjointSetNumRoots (set : DisjointSet) : Option ℕ :=
  (List.range set.maxNodes.toNat).foldlM (countRoot set.parent) 0

/-! ## Sequences of calls -/

inductive Operation (n : ℕ)
  | find (a : Fin n)
  | union (a b : Fin n)

variable {n : ℕ}

def perform (set : DisjointSet) : Operation n → Option DisjointSet
  | .find a => (disjointSetFind set a).map Prod.snd
  | .union a b => disjointSetUnion set a b

def performAll (set : DisjointSet) (operations : List (Operation n)) : Option DisjointSet :=
  operations.foldlM perform set

def unions : List (Operation n) → List (Fin n × Fin n)
  | [] => []
  | .find _ :: operations => unions operations
  | .union a b :: operations => (a, b) :: unions operations

/-! ## The forest in the arrays -/

structure Represents (set : DisjointSet) (forest : RankedForest (Fin n)) : Prop where
  maxNodes : set.maxNodes.toNat = n
  below : n ≤ disjointSetMax
  parent : ∀ node : Fin n, set.parent[node.val]? = some (forest.parent node).val
  rank : ∀ node : Fin n, set.rank[node.val]? = some (forest.rank node)

theorem put_eq_some {i : ℕ} (inside : i < disjointSetMax) (entries : Entries) (value : ℕ) :
    ∃ after, put entries i value = some after ∧ after[i]? = some value ∧
      ∀ j, j ≠ i → after[j]? = entries[j]? := by
  refine ⟨entries.set i value inside, dif_pos inside, ?_, ?_⟩
  · simp
  · intro j apart
    exact Vector.getElem?_set_ne inside apart.symm

variable {node : Fin n}

theorem put_update {Value : Type} (encode : Value → ℕ)
    {entries after : Entries} {values : Fin n → Value} (rep : ∀ node : Fin n,
      entries[node.val]? = some (encode (values node))) {value : Value}
    (same : after[node.val]? = some (encode value))
    (others : ∀ j, j ≠ node.val → after[j]? = entries[j]?) :
    ∀ other : Fin n, after[other.val]? =
      some (encode (Function.update values node value other)) := by
  intro other
  by_cases equal : other = node
  · subst equal
    rw [same, Function.update_self]
  · rw [Function.update_of_ne equal, others other.val (fun valEqual => equal (Fin.ext valEqual)),
      rep other]

/-! ## Making singletons -/

theorem makeNodes_spec (set : DisjointSet) (count : ℕ) (below : count ≤ disjointSetMax) :
    ∃ after, (List.range count).foldlM makeNode set = some after ∧ after.maxNodes = set.maxNodes ∧
      ∀ i < count, after.parent[i]? = some i ∧ after.rank[i]? = some 0 := by
  induction count with
  | zero => exact ⟨set, rfl, rfl, fun i less => absurd less (Nat.not_lt_zero i)⟩
  | succ count ih =>
    obtain ⟨middle, made, maxNodes, entries⟩ := ih (by omega)
    obtain ⟨parent, putParent, parentSame, parentOthers⟩ :=
      put_eq_some (i := count) (by omega) middle.parent count
    obtain ⟨rank, putRank, rankSame, rankOthers⟩ :=
      put_eq_some (i := count) (by omega) middle.rank 0
    refine ⟨{ middle with rank := rank, parent := parent }, ?_, maxNodes, ?_⟩
    · rw [List.range_succ, List.foldlM_append, made]
      simp only [List.foldlM_cons, List.foldlM_nil, makeNode, putParent,
        putRank, some_bind, pure_def]
    · intro i less
      by_cases last : i = count
      · subst last
        exact ⟨parentSame, rankSame⟩
      · rw [parentOthers i last, rankOthers i last]
        exact entries i (by omega)

theorem make_spec (uninitialised : DisjointSet) {maxNodes : Int}
    (accepted : maxNodes < disjointSetMax) :
    ∃ start, disjointSetMake uninitialised maxNodes = some (0, start) ∧
      Represents start (RankedForest.singletons (Fin maxNodes.toNat)) := by
  have below : maxNodes.toNat ≤ disjointSetMax := by omega
  obtain ⟨start, made, sameMaxNodes, entries⟩ :=
    makeNodes_spec { uninitialised with maxNodes := maxNodes } maxNodes.toNat below
  refine ⟨start, ?_, ?_⟩
  · simp only [disjointSetMake, made, some_bind]
    rw [if_neg (by omega)]
  · exact
      { maxNodes := by rw [sameMaxNodes]
        below := below
        parent := fun node => (entries node.val node.isLt).1
        rank := fun node => (entries node.val node.isLt).2 }

/-! ## Finding and compressing -/

variable {set : DisjointSet} {forest : RankedForest (Fin n)}

variable {parent : Entries} {rounds : ℕ}

section

variable (rep : ∀ node : Fin n, parent[node.val]? = some (forest.parent node).val)
include rep

theorem findRoot_spec (measure : Fin n → ℕ) (enough : measure node < rounds)
    (descends : ∀ node, ¬ forest.IsRoot node → measure (forest.parent node) < measure node) :
    findRoot parent rounds node.val = some (forest.root node).val := by
  induction rounds generalizing node with
  | zero => omega
  | succ rounds ih =>
    simp only [findRoot, rep, some_bind]
    by_cases isRoot : forest.IsRoot node
    · rw [if_pos (congrArg Fin.val isRoot), root_of_isRoot isRoot]
    · rw [if_neg (fun same => isRoot (Fin.ext same)), ← forest.root_parent node]
      have lower := descends node isRoot
      exact ih (by omega)

theorem compress_spec (enough : forest.height node < rounds) (below : n ≤ disjointSetMax)
    {root : Fin n} (isRoot : forest.root node = root) :
    ∃ (after : Entries) (compressed : RankedForest (Fin n)),
      compress root.val rounds parent node.val = some after ∧
      (∀ other : Fin n, after[other.val]? = some (compressed.parent other).val) ∧
      compressed.rank = forest.rank ∧ ∀ other, compressed.root other = forest.root other := by
  induction rounds generalizing parent forest node with
  | zero => omega
  | succ rounds ih =>
    simp only [compress, rep, bind_eq_bind, bind_some]
    by_cases direct : forest.parent node = root
    · rw [if_pos (congrArg Fin.val direct)]
      exact ⟨parent, forest, rfl, rep, rfl, fun _ => rfl⟩
    · rw [if_neg (fun same => direct (Fin.ext same))]
      have notRoot : ¬ forest.IsRoot node := by
        intro atRoot
        rw [root_of_isRoot atRoot] at isRoot
        exact direct (atRoot.trans isRoot)
      have lower := forest.height_parent_lt notRoot
      obtain ⟨redirected, putParent, same, others⟩ :=
        put_eq_some (node.isLt.trans_le below) parent root.val
      have rep' : ∀ other : Fin n, redirected[other.val]? =
          some ((forest.redirect node).parent other).val := by
        apply put_update Fin.val rep _ others
        rw [same, isRoot]
      have isRoot' : (forest.redirect node).root (forest.parent node) = root := by
        rw [forest.root_redirect, forest.root_parent, isRoot]
      have enough' : (forest.redirect node).height (forest.parent node) < rounds :=
        lower.trans_le (Nat.le_of_lt_succ enough)
      obtain ⟨after, compressed, performed, entries, ranks, roots⟩ := ih rep' enough' isRoot'
      refine ⟨after, compressed, ?_, entries, ranks, ?_⟩
      · rw [putParent, bind_some]
        exact performed
      · intro other
        rw [roots, forest.root_redirect]

end

section

variable (rep : Represents set forest)
include rep

theorem find_spec (node : Fin n) :
    ∃ (after : DisjointSet) (compressed : RankedForest (Fin n)), disjointSetFind set node =
        some ((forest.root node).val, after) ∧
      Represents after compressed ∧ compressed.rank = forest.rank ∧
      ∀ other, compressed.root other = forest.root other := by
  have enough : forest.height node < disjointSetMax := by
    have bound := forest.height_lt_card node
    rw [Fintype.card_fin] at bound
    exact bound.trans_le rep.below
  obtain ⟨parent, compressed, performed, entries, ranks, roots⟩ :=
    compress_spec rep.parent enough rep.below rfl
  refine ⟨{ set with parent := parent }, compressed, ?_, ?_, ranks, roots⟩
  · have found := findRoot_spec rep.parent _ enough fun _ => forest.height_parent_lt
    simp only [disjointSetFind, found, performed, some_bind]
  · exact
      { rep with
        parent := entries
        rank := by
          rw [ranks]
          exact rep.rank }

/-! ## Uniting -/

theorem linkRoots_spec {upper lower : Fin n} (upperRoot : forest.IsRoot upper)
    (lowerRoot : forest.IsRoot lower) (apart : upper ≠ lower)
    (ordered : forest.rank lower ≤ forest.rank upper) :
    ∃ after, linkRoots set upper lower = some after ∧
      Represents after (forest.link upper lower upperRoot lowerRoot apart ordered) := by
  obtain ⟨parent, putParent, parentSame, parentOthers⟩ :=
    put_eq_some (lower.isLt.trans_le rep.below) set.parent upper.val
  have parents := put_update Fin.val rep.parent parentSame parentOthers
  by_cases tie : forest.rank upper = forest.rank lower
  · obtain ⟨rank, putRank, rankSame, rankOthers⟩ :=
      put_eq_some (upper.isLt.trans_le rep.below) set.rank (forest.rank upper + 1)
    have ranks := put_update id rep.rank rankSame rankOthers
    refine ⟨{ set with rank := rank, parent := parent }, ?_, ?_⟩
    · simp only [linkRoots, putParent, rep.rank, putRank, some_bind]
      rw [if_pos tie]
    · exact
        { rep with
          parent := parents
          rank := by
            intro node
            simp only [link, if_pos tie]
            exact ranks node }
  · refine ⟨{ set with parent := parent }, ?_, ?_⟩
    · simp only [linkRoots, putParent, rep.rank, some_bind]
      rw [if_neg tie]
    · exact
        { rep with
          parent := parents
          rank := by
            intro node
            simp only [link, if_neg tie]
            exact rep.rank node }

theorem union_spec (a b : Fin n) :
    ∃ (after : DisjointSet) (united : RankedForest (Fin n)), disjointSetUnion set a b = some after ∧
      Represents after united ∧ ∀ pairs, forest.Classes pairs →
        united.Classes (pairs ++ [(a, b)]) := by
  obtain ⟨first, firstForest, foundA, representsFirst, firstRanks, firstRoots⟩ := find_spec rep a
  obtain ⟨second, forest', foundB, rep', secondRanks, secondRoots⟩ := find_spec representsFirst b
  have ranks := secondRanks.trans firstRanks
  have roots : ∀ node, forest'.root node = forest.root node := by
    intro node
    rw [secondRoots, firstRoots]
  rw [firstRoots, ← roots] at foundB
  rw [← roots] at foundA
  have rootA := forest'.isRoot_root a
  have rootB := forest'.isRoot_root b
  by_cases related : forest'.root a = forest'.root b
  · refine ⟨second, forest', ?_, rep', ?_⟩
    · simp only [disjointSetUnion, foundA, foundB, some_bind]
      rw [if_pos (congrArg Fin.val related)]
    · intro pairs classes
      have kept := classes.congr ranks roots
      exact ⟨kept.partitions.add (fun _ _ same => same) related fun _ _ same => .inl same,
        kept.weighted⟩
  · have apart : (forest'.root a).val ≠ (forest'.root b).val :=
      fun same => related (Fin.ext same)
    by_cases smaller : forest'.rank (forest'.root a) < forest'.rank (forest'.root b)
    · obtain ⟨after, linked, represents''⟩ :=
        linkRoots_spec rep' rootB rootA (Ne.symm related) (le_of_lt smaller)
      refine ⟨after, _, ?_, represents'', ?_⟩
      · simp only [disjointSetUnion, foundA, foundB, rep'.rank, some_bind]
        rw [if_neg apart, if_pos smaller]
        exact linked
      · intro pairs classes
        have kept := classes.congr ranks roots
        exact ⟨kept.partitions.link _ _ _ _ (Or.inr ⟨rfl, rfl⟩), kept.weighted.link _ _ _ _⟩
    · obtain ⟨after, linked, represents''⟩ := linkRoots_spec rep' rootA rootB related
        (not_lt.mp smaller)
      refine ⟨after, _, ?_, represents'', ?_⟩
      · simp only [disjointSetUnion, foundA, foundB, rep'.rank, some_bind]
        rw [if_neg apart, if_neg smaller]
        exact linked
      · intro pairs classes
        have kept := classes.congr ranks roots
        exact ⟨kept.partitions.link _ _ _ _ (Or.inl ⟨rfl, rfl⟩), kept.weighted.link _ _ _ _⟩

/-! ## Counting the roots -/

theorem countRoots_spec (nodes : List (Fin n)) (roots : ℕ) :
    (nodes.map Fin.val).foldlM (countRoot set.parent) roots = some (roots +
      nodes.countP fun node => decide (forest.IsRoot node)) := by
  induction nodes generalizing roots with
  | nil => rfl
  | cons node nodes ih =>
    simp only [List.map_cons, List.foldlM_cons, countRoot,
      rep.parent, some_bind, ih, List.countP_cons]
    by_cases isRoot : forest.IsRoot node
    · rw [if_pos (congrArg Fin.val isRoot), if_pos (decide_eq_true isRoot)]
      congr 1
      omega
    · rw [if_neg (fun same => isRoot (Fin.ext same)), if_neg (by simpa using isRoot)]
      rfl

theorem numRoots_spec : disjointSetNumRoots set = some (Finset.univ.filter forest.IsRoot).card := by
  rw [disjointSetNumRoots, rep.maxNodes, ← List.map_coe_finRange_eq_range, countRoots_spec rep,
    List.countP_eq_length_filter, zero_add]
  rfl

/-! ## Every sequence of calls -/

theorem perform_spec (operation : Operation n) :
    ∃ (after : DisjointSet) (forest' : RankedForest (Fin n)),
      perform set operation = some after ∧ Represents after forest' ∧
      ∀ pairs, forest.Classes pairs → forest'.Classes (pairs ++ unions [operation]) := by
  cases operation with
  | find a =>
    obtain ⟨after, compressed, found, rep', ranks, roots⟩ := find_spec rep a
    refine ⟨after, compressed, ?_, rep', ?_⟩
    · rw [perform, found, map_some]
    · intro pairs classes
      rw [unions, unions, List.append_nil]
      exact classes.congr ranks roots
  | union a b => exact union_spec rep a b

end

theorem unions_cons (operation : Operation n) (operations : List (Operation n)) :
    unions (operation :: operations) = unions [operation] ++ unions operations := by
  cases operation <;> rfl

theorem performAll_spec (operations : List (Operation n))
    {pairs : List (Fin n × Fin n)} (rep : Represents set forest) (classes : forest.Classes pairs) :
    ∃ (after : DisjointSet) (forest' : RankedForest (Fin n)),
      performAll set operations = some after ∧ Represents after forest' ∧
      forest'.Classes (pairs ++ unions operations) := by
  induction operations generalizing set forest pairs with
  | nil =>
    refine ⟨set, forest, rfl, rep, ?_⟩
    rwa [unions, List.append_nil]
  | cons operation operations ih =>
    obtain ⟨middle, forest', performed, rep', classes'⟩ := perform_spec rep operation
    obtain ⟨after, forest'', rest, represents'', classes''⟩ := ih rep' (classes' pairs classes)
    refine ⟨after, forest'', ?_, represents'', ?_⟩
    · rw [performAll, List.foldlM_cons, performed]
      exact rest
    · rwa [unions_cons, ← List.append_assoc]

theorem performAll_accepted {uninitialised start : DisjointSet} {maxNodes : Int}
    (accepted : disjointSetMake uninitialised maxNodes = some (0, start))
    (operations : List (Operation maxNodes.toNat)) :
    ∃ (set : DisjointSet) (forest : RankedForest (Fin maxNodes.toNat)),
      performAll start operations = some set ∧ Represents set forest ∧
      forest.Classes (unions operations) := by
  have below : maxNodes < disjointSetMax := by
    by_contra tooMany
    rw [disjointSetMake, if_pos (by omega)] at accepted
    cases accepted
  obtain ⟨start', made, rep⟩ := make_spec uninitialised below
  obtain rfl : start' = start := by
    rw [made] at accepted
    injection accepted with pair
    exact (Prod.mk.inj pair).2
  exact performAll_spec operations rep ⟨partitions_singletons _, weighted_singletons _⟩

/-- After any sequence of calls on an accepted set, two nodes have one root
exactly when the unions relate them, and there are as many roots as
classes. -/
theorem find_eq_iff_related_and_numRoots_eq_card
    (uninitialised start : DisjointSet) (maxNodes : Int) (accepted :
      disjointSetMake uninitialised maxNodes = some (0, start))
    (operations : List (Operation maxNodes.toNat)) :
    ∃ set, performAll start operations = some set ∧
      (∀ a b : Fin maxNodes.toNat, ∃ rootA middle rootB after,
        disjointSetFind set a = some (rootA, middle) ∧
        disjointSetFind middle b = some (rootB, after) ∧
        (rootA = rootB ↔
          Relation.EqvGen (fun left right => (left, right) ∈ unions operations) a b)) ∧
      disjointSetNumRoots set = some (Nat.card (Quotient (Relation.EqvGen.setoid
        fun left right => (left, right) ∈ unions operations))) := by
  obtain ⟨set, forest, performed, rep', partitions, _⟩ := performAll_accepted accepted operations
  refine ⟨set, performed, ?_, ?_⟩
  · intro a b
    obtain ⟨middle, compressed, foundA, representsMiddle, _, roots⟩ := find_spec rep' a
    obtain ⟨after, _, foundB, _, _⟩ := find_spec representsMiddle b
    refine ⟨_, middle, _, after, foundA, foundB, ?_⟩
    rw [roots, ← partitions a b]
    exact Fin.val_inj
  · rw [numRoots_spec rep', partitions.card_classes]

/-- Five nodes, two unions and a compressed path between them. -/
theorem find_eq_iff_related_fiveNodes :
    ∃ start set rootA middle rootB after, disjointSetMake
        { maxNodes := 0
          rank := Vector.replicate disjointSetMax 7
          parent := Vector.replicate disjointSetMax 7 } 5 = some (0, start) ∧
      performAll start ([.union 0 1, .find 1, .union 2 1] : List (Operation 5)) = some set ∧
      disjointSetFind set 0 = some (rootA, middle) ∧
      disjointSetFind middle 2 = some (rootB, after) ∧
      rootA = rootB := by
  obtain ⟨start, made, _⟩ := make_spec
    { maxNodes := 0
      rank := Vector.replicate disjointSetMax 7
      parent := Vector.replicate disjointSetMax 7 } (show (5 : Int) < disjointSetMax by decide)
  obtain ⟨set, performed, finds, _⟩ := find_eq_iff_related_and_numRoots_eq_card _ start 5 made
    ([.union 0 1, .find 1, .union 2 1] : List (Operation 5))
  obtain ⟨rootA, middle, rootB, after, foundA, foundB, iff⟩ := finds (0 : Fin 5) (2 : Fin 5)
  refine ⟨start, set, rootA, middle, rootB, after, made, performed, foundA, foundB, iff.mpr ?_⟩
  exact .trans _ (1 : Fin 5) _ (.rel _ _ (by decide)) (.symm _ _ (.rel _ _ (by decide)))

/-- After any sequence of calls ranks grow along the parent links, a class has at least as many
nodes as two to the rank of its root, and the way to a root has at most `log2(max_nodes)`
links. -/
theorem ranks_bounded (uninitialised start : DisjointSet) (maxNodes : Int) (accepted :
      disjointSetMake uninitialised maxNodes = some (0, start))
    (operations : List (Operation maxNodes.toNat)) :
    ∃ set, performAll start operations = some set ∧
      (∀ x : Fin maxNodes.toNat, ∃ (p : Fin maxNodes.toNat) (rankX rankP : ℕ),
        set.parent[x.val]? = some p.val ∧ set.rank[x.val]? = some rankX ∧
        set.rank[p.val]? = some rankP ∧ (p ≠ x → rankX < rankP) ∧
        (p = x → 2 ^ rankX ≤ (Finset.univ.filter fun other : Fin maxNodes.toNat =>
          (disjointSetFind set other).map Prod.fst = some x.val).card)) ∧
      ∀ x : Fin maxNodes.toNat,
        (findRoot set.parent (Nat.log 2 maxNodes.toNat + 1) x).isSome = true := by
  obtain ⟨set, forest, performed, rep, _, weighted⟩ := performAll_accepted accepted operations
  refine ⟨set, performed, ?_, ?_⟩
  · intro x
    refine ⟨forest.parent x, forest.rank x, _, rep.parent x, rep.rank x,
      rep.rank _, forest.rank_lt x, ?_⟩
    intro isRoot
    have large := weighted x
    rw [root_of_isRoot isRoot] at large
    refine large.trans (Finset.card_le_card ?_)
    intro other member
    obtain ⟨after, _, found, _⟩ := find_spec rep other
    have isTop : forest.root other = x := (Finset.mem_filter.mp member).2
    rw [Finset.mem_filter, found, isTop]
    exact ⟨Finset.mem_univ other, rfl⟩
  · intro x
    have bound := weighted.rank_le x
    rw [Fintype.card_fin] at bound
    rw [findRoot_spec rep.parent
      fun node => forest.rank (forest.root node) - forest.rank node]
    · rfl
    · omega
    · intro node notRoot
      have higher := forest.rank_lt node notRoot
      have below := forest.rank_le_rank_root (forest.parent node)
      rw [forest.root_parent] at below ⊢
      omega

theorem ranks_bounded_fiveNodes :
    ∃ start set, disjointSetMake
          ⟨0, Vector.replicate disjointSetMax 7, Vector.replicate disjointSetMax 7⟩ 5 =
        some (0, start) ∧
      performAll start ([.union 0 1, .union 2 3, .union 1 3] : List (Operation 5)) = some set ∧
      (findRoot set.parent (Nat.log 2 5 + 1) 0).isSome = true := by
  obtain ⟨start, made, _⟩ := make_spec
    ⟨0, Vector.replicate disjointSetMax 7, Vector.replicate disjointSetMax 7⟩
    (show (5 : Int) < disjointSetMax by decide)
  obtain ⟨set, performed, _, ways⟩ := ranks_bounded _ start 5 made
    ([.union 0 1, .union 2 3, .union 1 3] : List (Operation 5))
  exact ⟨start, set, made, performed, ways (0 : Fin 5)⟩

end Skyc.Utils.DisjointSets
