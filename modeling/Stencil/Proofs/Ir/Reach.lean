import Mathlib.Logic.Relation
import Stencil.Ir.Builder

namespace Stencil.Ir

namespace Function

open List

variable {f : Function} {target : Nat}

theorem Reaches.trans {a b c : Nat} (fst : f.Reaches a b) (snd : f.Reaches b c) :
    f.Reaches a c := by
  induction fst with
  | here => exact snd
  | step next _ ih => exact .step next (ih snd)

/-- A search is through with a block, still has to go through it, or can go nowhere from it. -/
def Settled (f : Function) (target : Nat) (seen pending : List Nat) (a : Nat) : Prop :=
  a ∈ seen ∨ a ∈ pending ∨ (a ≠ target ∧ f.blocks[a]? = none)

def Covered (f : Function) (target : Nat) (seen pending : List Nat) : Prop :=
  ∀ a ∈ seen, a ≠ target ∧ ∀ b, f.Step a b → f.Settled target seen pending b

section

variable {seen pending seen' pending' : List Nat} {id a : Nat}

theorem Settled.next (settled : f.Settled target seen (id :: pending) a)
    (done : f.Settled target seen' pending' id) (old : seen ⊆ seen') (later : pending ⊆ pending') :
    f.Settled target seen' pending' a := by
  rcases settled with known | waiting | nowhere
  · exact .inl (old known)
  · rcases mem_cons.mp waiting with rfl | more
    · exact done
    · exact .inr (.inl (later more))
  · exact .inr (.inr nowhere)

theorem Covered.mono (covered : f.Covered target seen pending)
    (next : ∀ a, f.Settled target seen pending a → f.Settled target seen' pending' a) :
    ∀ a ∈ seen, a ≠ target ∧ ∀ b, f.Step a b → f.Settled target seen' pending' b :=
  fun a mem => (covered a mem).imp_right fun leads b step => next b (leads b step)

theorem Covered.not_reaches (covered : f.Covered target seen [])
    (settled : f.Settled target seen [] a) : ¬f.Reaches a target := by
  intro reaches
  induction reaches with
  | here =>
    rcases settled with lies | none | ⟨other, -⟩
    · exact (covered _ lies).1 rfl
    · cases none
    · exact other rfl
  | step next more ih =>
    rcases settled with lies | none | ⟨-, absent⟩
    · exact ih covered ((covered _ lies).2 _ next)
    · cases none
    obtain ⟨_, has, -⟩ := next
    cases absent.symm.trans has

end

theorem not_reaches_of_search (seen pending : List Nat) (failed : f.search target seen pending = false)
    (covered : f.Covered target seen pending) :
    ∀ a, f.Settled target seen pending a → ¬f.Reaches a target := by
  fun_induction search f target seen pending with
  | case1 => exact fun a => covered.not_reaches
  | case2 => cases failed
  | case3 seen id pending other absent ih =>
    have next := fun a (settled : f.Settled target seen (id :: pending) a) =>
      settled.next (.inr (.inr ⟨other, absent⟩)) (Subset.refl seen) (Subset.refl pending)
    exact fun a settled => ih failed (covered.mono next) a (next a settled)
  | case4 seen id pending other block got again ih =>
    have next := fun a (settled : f.Settled target seen (id :: pending) a) =>
      settled.next (.inl again) (Subset.refl seen) (Subset.refl pending)
    exact fun a settled => ih failed (covered.mono next) a (next a settled)
  | case5 seen id pending other block got fresh ih =>
    have next := fun a (settled : f.Settled target seen (id :: pending) a) =>
      settled.next (.inl (.head seen)) (subset_cons_self id seen)
        (subset_append_right block.taken pending)
    have here : ∀ b, f.Step id b → f.Settled target (id :: seen) (block.taken ++ pending) b := by
      rintro b ⟨_, found', step⟩
      cases got.symm.trans found'
      exact .inr (.inl (mem_append_left _ step))
    have covered := forall_mem_cons.mpr ⟨⟨other, here⟩, covered.mono next⟩
    exact fun a settled => ih failed covered a (next a settled)

theorem reaches_of_search (seen pending : List Nat) (got : f.search target seen pending) :
    ∃ a ∈ pending, f.Reaches a target := by
  fun_induction search f target seen pending with
  | case1 => cases got
  | case2 => exact ⟨target, .head _, .here target⟩
  | case3 seen id pending other absent ih | case4 seen id pending other block has again ih =>
    obtain ⟨a, mem, reaches⟩ := ih got
    exact ⟨a, .tail _ mem, reaches⟩
  | case5 seen id pending other block has fresh ih =>
  obtain ⟨a, mem, reaches⟩ := ih got
  rcases mem_append.mp mem with next | later
  · exact ⟨id, .head _, .step ⟨block, has, next⟩ reaches⟩
  · exact ⟨a, .tail _ later, reaches⟩

theorem isReachable_of_reaches (reaches : f.Reaches 0 target) : f.isReachable target := by
  cases got : f.isReachable target with
  | true => rfl
  | false =>
    have covered : f.Covered target [] [0] := fun _ mem => by cases mem
    exact absurd reaches (not_reaches_of_search [] [0] got covered 0 (.inr (.inl (.head _))))

theorem isReachable_iff : f.isReachable target ↔ f.Reaches 0 target := by
  refine ⟨fun got => ?_, isReachable_of_reaches⟩
  obtain ⟨a, mem, reaches⟩ := reaches_of_search [] [0] got
  exact mem_singleton.mp mem ▸ reaches

end Function

/-- The blocks that control can go on to. A branch on a number goes one way only. -/
def Terminator.Passes (b : Nat) : Terminator → Prop
  | .jump a => b = a
  | .branch cond yes no => b = yes ∧ cond ≠ .int 0 ∨ b = no ∧ ∀ n, cond = .int n → n = 0
  | .ret _ | .unreachable => False

def Function.Edge (f : Function) (a b : Nat) : Prop :=
  ∃ block t, f.blocks[a]? = some block ∧ block.terminator = some t ∧ t.Passes b

theorem Terminator.mem_taken_iff {t : Terminator} {b : Nat} : b ∈ t.taken ↔ t.Passes b := by
  cases t with
  | branch cond =>
    cases cond with
    | int n => by_cases zero : n = 0 <;> simp [taken, Passes, zero]
    | _ => simp [taken, successors, Passes]
  | _ => simp [taken, successors, Passes]

namespace Function

variable {f : Function} {a b : Nat}

theorem step_iff_edge : f.Step a b ↔ f.Edge a b := by
  simp only [Step, Edge, Block.taken]
  constructor
  · rintro ⟨block, got, mem⟩
    cases ends : block.terminator with
    | none => simp [ends] at mem
    | some t =>
      exact ⟨block, t, got, ends, Terminator.mem_taken_iff.mp (by simpa [ends] using mem)⟩
  rintro ⟨block, t, got, ends, passes⟩
  exact ⟨block, got, by simpa [ends] using Terminator.mem_taken_iff.mpr passes⟩

theorem reaches_iff : f.Reaches a b ↔ Relation.ReflTransGen f.Edge a b := by
  constructor
  · intro reaches
    induction reaches with
    | here => exact .refl
    | step fst _ ih => exact .head (step_iff_edge.mp fst) ih
  intro path
  induction path using Relation.ReflTransGen.head_induction_on with
  | refl => exact .here _
  | head fst _ ih => exact .step (step_iff_edge.mpr fst) ih

end Function

/-- The search for a block finds exactly those that a path leads to. -/
theorem Builder.isReachable_exact (b : Builder) (target : Nat) : b.isReachable target = true ↔
    ∃ f, b.currentFunction? = some f ∧ Relation.ReflTransGen f.Edge 0 target := by
  simp only [isReachable, Option.any_eq_true, Function.isReachable_iff, Function.reaches_iff]

end Stencil.Ir
