import Skyc.Lib.Memory

/-!
# Chains of next pointers

A memory of nodes that hold nothing but the address of the next one.  `Path`
says which nodes are met between two pointers.
-/

namespace Skyc.Lib.NextChain

open Function List

universe u

variable {Address : Type u} {next after : Address → Option Address}
  {start finish : Option Address} {nodes front back : List Address} {address node : Address}

/-- The nodes met on the way from one pointer to another. -/
def Path (next : Address → Option Address) :
    Option Address → List Address → Option Address → Prop
  | start, [], finish => start = finish
  | start, address :: rest, finish => start = some address ∧ Path next (next address) rest finish

theorem path_append :
    Path next start (front ++ back) finish ↔
      ∃ middle, Path next start front middle ∧ Path next middle back finish := by
  induction front generalizing start with
  | nil => simp only [nil_append, Path, exists_eq_left']
  | cons address rest ih => simp only [cons_append, Path, ih, and_assoc, exists_and_left]

theorem Path.congr (path : Path next start nodes finish)
    (same : ∀ address ∈ nodes, after address = next address) : Path after start nodes finish := by
  induction nodes generalizing start with
  | nil => exact path
  | cons address rest ih =>
    obtain ⟨isFirst, onward⟩ := path
    refine ⟨isFirst, ?_⟩
    rw [same address mem_cons_self]
    exact ih onward (forall_mem_cons.mp same).2

theorem Path.unique {others : List Address} (path : Path next start nodes none)
    (other : Path next start others none) : nodes = others := by
  induction nodes generalizing start others with
  | nil =>
    cases others with
    | nil => rfl
    | cons address rest => cases path.symm.trans other.1
  | cons address rest ih =>
    obtain ⟨isFirst, onward⟩ := path
    cases others with
    | nil => cases isFirst.symm.trans other
    | cons address' rest' =>
      cases isFirst.symm.trans other.1
      rw [ih onward other.2]

theorem Path.nodup (path : Path next start nodes none) : nodes.Nodup := by
  induction nodes generalizing start with
  | nil => exact nodup_nil
  | cons address rest ih =>
    refine nodup_cons.mpr ⟨?_, ih path.2⟩
    intro again
    obtain ⟨front, back, rfl⟩ := append_of_mem again
    -- from the second visit on the path would be both `back` and all of the rest
    obtain ⟨_, _, _, onward⟩ := path_append.mp path.2
    have lengths := congrArg length (path.2.unique onward)
    simp only [length_append, length_cons] at lengths
    omega

theorem Path.apart (path : Path next start (front ++ address :: back) none) :
    address ∉ front ∧ address ∉ back := by
  have nodup := nodup_middle.mp path.nodup
  rw [nodup_cons, mem_append, not_or] at nodup
  exact nodup.1

theorem Path.next_last (path : Path next start (front ++ [address]) finish) :
    next address = finish := by
  obtain ⟨_, _, _, isLast⟩ := path_append.mp path
  exact isLast

variable [DecidableEq Address]

theorem Path.update_of_notMem (path : Path next start nodes finish) (notMem : address ∉ nodes)
    (target : Option Address) : Path (update next address target) start nodes finish := by
  apply path.congr
  intro other member
  apply update_of_ne
  rintro rfl
  exact notMem member

theorem Path.redirect (path : Path next start (front ++ [address]) finish)
    (notMem : address ∉ front) (target : Option Address) :
    Path (update next address target) start (front ++ [address]) target := by
  obtain ⟨middle, toLast, isLast, _⟩ := path_append.mp path
  refine path_append.mpr ⟨middle, toLast.update_of_notMem notMem target, isLast, ?_⟩
  exact update_self ..

theorem Path.insertAfter (path : Path next start (front ++ address :: back) none)
    (new : node ∉ front ++ address :: back) :
    Path (update (update next node (next address)) address (some node)) start
      (front ++ address :: node :: back) none := by
  obtain ⟨notBefore, notBehind⟩ := path.apart
  rw [append_cons] at path new ⊢
  rw [mem_append, not_or] at new
  have distinct : node ≠ address := by
    rintro rfl
    exact new.1 (by simp)
  obtain ⟨middle, toAddress, onward⟩ := path_append.mp path
  refine path_append.mpr ⟨some node, ?_, rfl, ?_⟩
  · exact Path.redirect (toAddress.update_of_notMem new.1 _) notBefore _
  · rw [update_of_ne distinct, update_self, toAddress.next_last]
    exact (onward.update_of_notMem new.2 _).update_of_notMem notBehind _

theorem Path.removeAfter (path : Path next start (front ++ address :: node :: back) none) :
    Path (update next address (next node)) start (front ++ address :: back) none := by
  obtain ⟨notBefore, notBehind⟩ := path.apart
  rw [append_cons] at path ⊢
  obtain ⟨_, toAddress, _, onward⟩ := path_append.mp path
  refine path_append.mpr ⟨next node, toAddress.redirect notBefore _, ?_⟩
  exact onward.update_of_notMem (not_mem_of_not_mem_cons notBehind) _

end Skyc.Lib.NextChain
