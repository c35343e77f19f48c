import Stencil.Proofs.Lowering.Lowers

namespace Stencil

open ScopeTree

namespace Session

structure Visible (s : Session) (f : Ir.Function) (owner : ScopeId) (start : Nat) : Prop where
  old : start ≤ s.tree.size
  slots : ∀ id p e addr, s.tree.parent? id = some p → s.tree.kind id = .var e →
    e.storage = .slot addr → p = owner ∨ start ≤ p → ∃ k, addr = .temp k ∧ f.HasSlot k e.type.ir
  around : ∀ a ∈ s.tree.ancestors s.tree.current, (s.tree.kind a).isBody →
    a = owner ∨ start ≤ a
  unqueued : s.tree.current ∉ s.bodies

namespace Visible

variable {s s' : Session} {f f' : Ir.Function} {owner : ScopeId} {start : Nat}

variable (visible : s.Visible f owner start)
include visible

theorem found (shaped : s.tree.Shaped) {name : String}
    {id : ScopeId} (found : s.tree.find? name = some id) {e : VariableEntry}
    (kind : s.tree.kind id = .var e) {addr : Ir.Value} (storage : e.storage = .slot addr) :
    ∃ k, addr = .temp k ∧ f.HasSlot k e.type.ir := by
  obtain ⟨a, outer, child⟩ := findFrom_some found
  obtain ⟨up, -⟩ := shaped.child child
  have admits := shaped.admitted id a up
  rw [kind, ScopeKind.admits, storage] at admits
  exact visible.slots id a e addr up kind storage (visible.around a outer admits)

theorem rebuilt (b : Ir.Builder) (slots : ∀ k type, f.HasSlot k type → f'.HasSlot k type) :
    (s.withBuilder b).Visible f' owner start where
  old := visible.old
  slots id p e addr around kind storage ours := by
    obtain ⟨k, same, slot⟩ := visible.slots id p e addr around kind storage ours
    exact ⟨k, same, slots k _ slot⟩
  around := visible.around
  unqueued := visible.unqueued

theorem grows (valid : s.Valid) (valid' : s'.Valid)
    (grows : s.Grows [] s') : s'.Visible f owner start where
  old := Nat.le_trans visible.old grows.tree.length
  slots id p e addr around kind storage ours := by
    rcases Nat.lt_or_ge id s.tree.size with old | young
    · have refined := grows.tree.kind id old
      rw [kind] at refined
      have before : s.tree.kind id = .var e := by
        cases h : s.tree.kind id <;> rw [h] at refined <;> cases refined
        rfl
      exact visible.slots id p e addr ((grows.tree.parent id old).symm.trans around) before storage
        ours
    have outer := grows.outer id p young around
    have admits := valid'.shaped.admitted id p around
    rw [kind, ScopeKind.admits, storage] at admits
    rw [show (s'.tree.kind p).isBody from admits] at outer
    cases outer
  around a mem body := by
    have lies := lt_of_alive valid.current
    rw [grows.current, grows.tree.ancestors lies] at mem
    have below := Nat.lt_of_le_of_lt (le_of_mem_ancestors mem) lies
    exact visible.around a mem ((grows.tree.kind a below).isBody.symm.trans body)
  unqueued mem := by
    obtain ⟨_, same, fresh⟩ := grows.bodies
    rw [grows.current, same] at mem
    rcases List.mem_append.mp mem with old | young
    · exact visible.unqueued old
    · exact Nat.lt_irrefl _ (Nat.lt_of_lt_of_le (lt_of_alive valid.current) (fresh _ young))

/-- A new scope in the body: a variable with its slot, or a block. -/
theorem grown (valid : s.Valid) {parent : ScopeId}
    {name : String} {kind : ScopeKind} {span : Span} (lies : parent < s.tree.size)
    (extended : s.Extends [] (s.grown parent name kind span))
    (slot : ∀ e addr, kind = .var e → e.storage = .slot addr →
      ∃ k, addr = .temp k ∧ f.HasSlot k e.type.ir) :
    (s.grown parent name kind span).Visible f owner start where
  old := Nat.le_trans visible.old extended.tree.length
  slots id p e addr around has storage ours := by
    change (s.tree.grown parent name kind span).kind id = _ at has
    change (s.tree.grown parent name kind span).parent? id = _ at around
    rcases Nat.lt_trichotomy id s.tree.size with old | rfl | outside
    · rw [kind_grown_old old] at has
      rw [parent_grown_old old] at around
      exact visible.slots id p e addr around has storage ours
    · rw [kind_grown_new lies] at has
      exact slot e addr has storage
    rw [ScopeTree.kind, ScopeTree.node_grown_outside outside] at has
    cases has
  around a mem body := by
    have current := lt_of_alive valid.current
    rw [show (s.grown parent name kind span).tree.current = s.tree.current from rfl,
      extended.tree.ancestors current] at mem
    have below := Nat.lt_of_le_of_lt (le_of_mem_ancestors mem) current
    exact visible.around a mem ((extended.tree.kind a below).isBody.symm.trans body)
  unqueued := visible.unqueued

theorem moved {t : ScopeTree} (nodes : t.nodes = s.tree.nodes)
    (around : ∀ a ∈ s.tree.ancestors t.current, (s.tree.kind a).isBody → a = owner ∨ start ≤ a)
    (unqueued : t.current ∉ s.bodies) : (s.withTree t).Visible f owner start := by
  have node : ∀ id, t.node id = s.tree.node id := fun id => by
    rw [node, node, nodes]
  constructor
  case old =>
    change start ≤ t.size
    rw [ScopeTree.size, nodes]
    exact visible.old
  case slots =>
    intro id p e addr parent kind
    change t.parent? id = _ at parent
    change t.kind id = _ at kind
    rw [ScopeTree.parent?, node] at parent
    rw [ScopeTree.kind, node] at kind
    exact visible.slots id p e addr parent kind
  case around =>
    intro a mem
    change a ∈ t.ancestors t.current at mem
    change (t.kind a).isBody → _
    rw [ancestors_congr fun id _ => congrArg ScopeNode.parent (node id)] at mem
    rw [kind, node]
    exact around a mem
  case unqueued => exact unqueued

end Visible

end Session

end Stencil
