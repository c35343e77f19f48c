import Stencil.Ir.Module

namespace Stencil.Ir.Function

def Step (f : Function) (a b : Nat) : Prop :=
  ∃ block, f.blocks[a]? = some block ∧ b ∈ block.taken

inductive Reaches (f : Function) : Nat → Nat → Prop
  | here (a : Nat) : Reaches f a a
  | step {a b c : Nat} (first : Step f a b) (more : Reaches f b c) : Reaches f a c

def unseen (f : Function) (seen : List Nat) : List Nat :=
  (List.range f.size).filter (· ∉ seen)

theorem unseen_lt (f : Function) (seen : List Nat) (id : Nat) (present : id < f.size)
    (fresh : id ∉ seen) : (f.unseen (id :: seen)).length < (f.unseen seen).length := by
  have split : f.unseen (id :: seen) = (f.unseen seen).filter (· ≠ id) := by
    simp only [unseen, List.filter_filter]
    apply List.filter_congr
    intro x _
    simp [not_or, eq_comm]
  rw [split]
  apply List.length_filter_lt_length_iff_exists.mpr
  exact ⟨id, by simp [unseen, present, fresh], by simp⟩

def search (f : Function) (target : Nat) (seen : List Nat) : List Nat → Bool
  | [] => false
  | id :: pending =>
    if id = target then true
    else match _found : f.blocks[id]? with
      | none => search f target seen pending
      | some block =>
        if id ∈ seen then search f target seen pending
        else search f target (id :: seen) (block.taken ++ pending)
termination_by pending => ((f.unseen seen).length, pending.length)
decreasing_by
  · exact Prod.Lex.right _ (by simp)
  · exact Prod.Lex.right _ (by simp)
  · exact Prod.Lex.left _ _ (unseen_lt f seen id (List.getElem?_eq_some_iff.mp _found).1 ‹_›)

def isReachable (f : Function) (target : Nat) : Bool :=
  f.search target [] [0]

end Stencil.Ir.Function
