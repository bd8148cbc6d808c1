import Skyc.Lib.Memory

/-!
# Singly linked nodes in a heap

Access to an address that holds no node fails.  `Linked` says that a list of
addresses with their data is what one finds by following the pointers, up to a
given last pointer.
-/

namespace Skyc.Lib

open Function List

universe u

abbrev Addr := Nat

structure Node (Data : Type u) where
  next : Option Addr
  data : Data
deriving DecidableEq, Repr

/-- Nothing has been allocated from `fresh` on. -/
structure LinkedHeap (Data : Type u) where
  cells : Addr → Option (Node Data)
  fresh : Addr
  unused : ∀ address, fresh ≤ address → cells address = none

variable {Data : Type u}

namespace LinkedHeap

def empty : LinkedHeap Data where
  cells := fun _ => none
  fresh := 0
  unused := fun _ _ => rfl

variable {heap : LinkedHeap Data} {address : Addr}

variable (live : (heap.cells address).isSome = true)

include live in
theorem lt_fresh_of_isSome : address < heap.fresh := by
  by_contra outside
  rw [heap.unused address (Nat.not_lt.mp outside)] at live
  cases live

def write (heap : LinkedHeap Data) (address : Addr) (node : Node Data) : Option (LinkedHeap Data) :=
  if live : (heap.cells address).isSome = true then
    some
      { cells := update heap.cells address (some node)
        fresh := heap.fresh
        unused := by
          intro other beyond
          have bound := lt_fresh_of_isSome live
          rw [update_of_ne (Nat.ne_of_gt (Nat.lt_of_lt_of_le bound beyond))]
          exact heap.unused other beyond }
  else
    none

def free (heap : LinkedHeap Data) (address : Addr) : Option (LinkedHeap Data) :=
  if (heap.cells address).isSome = true then
    some
      { cells := update heap.cells address none
        fresh := heap.fresh
        unused := by
          intro other beyond
          by_cases same : other = address
          · rw [same, update_self]
          · rw [update_of_ne same]
            exact heap.unused other beyond }
  else
    none

/-- The new node is put at `fresh`. -/
def alloc (heap : LinkedHeap Data) (node : Node Data) : LinkedHeap Data where
  cells := update heap.cells heap.fresh (some node)
  fresh := heap.fresh + 1
  unused := by
    intro other beyond
    rw [update_of_ne (Nat.ne_of_gt beyond)]
    exact heap.unused other (Nat.le_of_succ_le beyond)

def setNext (heap : LinkedHeap Data) (address : Addr)
    (next : Option Addr) : Option (LinkedHeap Data) :=
  (heap.cells address).bind fun node =>
    heap.write address { node with next := next }

def setData (heap : LinkedHeap Data) (address : Addr) (data : Data) : Option (LinkedHeap Data) :=
  (heap.cells address).bind fun node =>
    heap.write address { node with data := data }

include live in
theorem write_spec (node : Node Data) :
    ∃ after, heap.write address node = some after ∧
      after.cells = update heap.cells address (some node) := by
  unfold write
  rw [dif_pos live]
  exact ⟨_, rfl, rfl⟩

include live in
theorem free_spec :
    ∃ after, heap.free address = some after ∧ after.cells = update heap.cells address none := by
  unfold free
  rw [if_pos live]
  exact ⟨_, rfl, rfl⟩

variable {node : Node Data}

theorem setNext_spec (present : heap.cells address = some node) (next : Option Addr) :
    ∃ after, heap.setNext address next = some after ∧
      after.cells = update heap.cells address (some { node with next := next }) := by
  unfold setNext
  rw [present]
  apply write_spec
  rw [present]
  rfl

theorem setData_spec (present : heap.cells address = some node) (data : Data) :
    ∃ after, heap.setData address data = some after ∧
      after.cells = update heap.cells address (some { node with data := data }) := by
  unfold setData
  rw [present]
  apply write_spec
  rw [present]
  rfl

end LinkedHeap

/-! ## Linked nodes -/

def headOr (nodes : List (Addr × Data)) (last : Option Addr) : Option Addr :=
  match nodes with
  | [] => last
  | node :: _ => some node.1

def lastOr (nodes : List (Addr × Data)) (first : Option Addr) : Option Addr :=
  match nodes with
  | [] => first
  | node :: rest => lastOr rest (some node.1)

/-- Following the pointers from node to node ends in `last`. -/
def Linked (cells : Addr → Option (Node Data)) : List (Addr × Data) → Option Addr → Prop
  | [], _ => True
  | node :: rest, last =>
    cells node.1 = some ⟨headOr rest last, node.2⟩ ∧ Linked cells rest last

variable {cells after : Addr → Option (Node Data)}
  {nodes front back : List (Addr × Data)} {last : Option Addr}

@[simp]
theorem headOr_nil : headOr ([] : List (Addr × Data)) last = last := rfl

@[simp]
theorem headOr_cons (node : Addr × Data) : headOr (node :: nodes) last = some node.1 := rfl

theorem headOr_append : headOr (front ++ back) last = headOr front (headOr back last) := by
  cases front with
  | nil | cons => rfl

theorem lastOr_append_singleton (front : List (Addr × Data)) (node : Addr × Data)
    (first : Option Addr) : lastOr (front ++ [node]) first = some node.1 := by
  induction front generalizing first with
  | nil => rfl
  | cons head rest ih => exact ih (some head.1)

theorem linked_append :
    Linked cells (front ++ back) last ↔
      Linked cells front (headOr back last) ∧ Linked cells back last := by
  induction front with
  | nil => simp [Linked]
  | cons node rest ih => simp only [cons_append, Linked, headOr_append, ih, and_assoc]

theorem Linked.congr (linked : Linked cells nodes last)
    (same : ∀ node ∈ nodes, after node.1 = cells node.1) : Linked after nodes last := by
  induction nodes with
  | nil => trivial
  | cons node rest ih =>
    constructor
    · rw [same node mem_cons_self]
      exact linked.1
    · apply ih linked.2
      intro other member
      exact same other (mem_cons_of_mem node member)

theorem Linked.update_of_notMem (linked : Linked cells nodes last) {address : Addr}
    (notMem : address ∉ nodes.map Prod.fst) (value : Option (Node Data)) :
    Linked (update cells address value) nodes last := by
  apply linked.congr
  intro node member
  apply update_of_ne
  intro same
  apply notMem
  rw [← same]
  exact mem_map_of_mem member

variable {node : Addr × Data}

theorem Linked.present (linked : Linked cells nodes last) (member : node ∈ nodes) :
    ∃ next, cells node.1 = some ⟨next, node.2⟩ := by
  induction nodes with
  | nil => cases member
  | cons first rest ih =>
    rcases mem_cons.mp member with same | later
    · subst node
      exact ⟨_, linked.1⟩
    · exact ih linked.2 later

theorem Linked.redirect {target : Option Addr} (linked : Linked cells (front ++ [node]) last)
    (nodup : ((front ++ [node]).map Prod.fst).Nodup) :
    Linked (update cells node.1 (some ⟨target, node.2⟩)) (front ++ [node]) target := by
  have apart : node.1 ∉ front.map Prod.fst := by
    rw [map_append, nodup_append] at nodup
    intro member
    exact nodup.2.2 _ member _ mem_cons_self rfl
  rw [linked_append] at linked ⊢
  constructor
  · exact linked.1.update_of_notMem apart _
  · exact ⟨update_self .., trivial⟩

theorem Linked.setData {address : Addr} {old new : Data} {next : Option Addr}
    (linked : Linked cells (front ++ (address, old) :: back) last) (nodup :
      ((front ++ (address, old) :: back).map Prod.fst).Nodup)
    (present : cells address = some ⟨next, old⟩) :
    Linked (update cells address (some ⟨next, new⟩)) (front ++ (address, new) :: back) last := by
  rw [map_append, nodup_append, map_cons, nodup_cons] at nodup
  rcases nodup with ⟨_, ⟨notBack, _⟩, apart⟩
  have notFront : address ∉ front.map Prod.fst := by
    intro member
    exact apart _ member _ mem_cons_self rfl
  rw [linked_append] at linked ⊢
  rcases linked with ⟨linkedFront, atAddress, linkedBack⟩
  simp only at atAddress
  rw [present, Option.some.injEq, Node.mk.injEq] at atAddress
  constructor
  · exact linkedFront.update_of_notMem notFront _
  · refine ⟨?_, linkedBack.update_of_notMem notBack _⟩
    simp only [update_self, atAddress.1]

theorem LinkedHeap.length_le_fresh {heap : LinkedHeap Data} (linked : Linked heap.cells nodes last)
    (nodup : (nodes.map Prod.fst).Nodup) : nodes.length ≤ heap.fresh := by
  have inRange : nodes.map Prod.fst ⊆ range heap.fresh := by
    intro address member
    rcases mem_map.mp member with ⟨node, inNodes, same⟩
    rcases linked.present inNodes with ⟨next, present⟩
    rw [mem_range, ← same]
    apply LinkedHeap.lt_fresh_of_isSome
    rw [present]
    rfl
  have bounded := (subperm_of_subset nodup inRange).length_le
  rwa [length_map, length_range] at bounded

end Skyc.Lib
