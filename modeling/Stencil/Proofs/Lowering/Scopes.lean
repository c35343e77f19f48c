import Stencil.Proofs.Lowering.Blocks

namespace Stencil

open Analysis Tracked

structure Site.Beside (x y : Site) : Prop where
  draft : y.draft = x.draft
  block : y.block = x.block
  supply : y.supply = x.supply
  waiting : y.waiting = x.waiting
  builder : y.session.builder = x.session.builder
  assigns : y.assigns = x.assigns

namespace Site.Beside

variable {x y z : Site}

theorem trans (fst : x.Beside y) (snd : y.Beside z) : x.Beside z where
  draft := snd.draft.trans fst.draft
  block := snd.block.trans fst.block
  supply := snd.supply.trans fst.supply
  waiting := snd.waiting.trans fst.waiting
  builder := snd.builder.trans fst.builder
  assigns := snd.assigns.trans fst.assigns

theorem code (beside : x.Beside y) : y.code = x.code := by
  rw [Site.code, Site.code, beside.draft, beside.block]

theorem isOpen (beside : x.Beside y) (isOpen : x.IsOpen) : y.IsOpen := by
  rw [Site.IsOpen, beside.draft, beside.block]
  exact isOpen

end Site.Beside

section

variable (x : Site) {t : ScopeTree}

def Site.retree (nodes : t.nodes = x.tree.nodes) (alive : x.tree.isAlive t.current)
    (up : ∀ a ∈ x.tree.ancestors t.current, (x.tree.kind a).isBody →
      a = x.owner ∨ x.start ≤ a) (unqueued : t.current ∉ x.session.bodies) : Site where
  session := x.session.withTree t
  draft := x.draft
  block := x.block
  supply := x.supply
  types := x.types
  waiting := x.waiting
  owner := x.owner
  start := x.start
  assigns := x.assigns
  valid := (x.valid.relocated nodes alive).1
  linked := x.linked
  built := x.built.mono (x.valid.relocated nodes alive).2.context
  pending := x.pending
  visible := x.visible.moved nodes up unqueued

variable {x}

theorem leads_within {α : Type} {step : Analysis α} {s : Session} {scope : ScopeId}
    {done : α → Session → Prop} {failed : Diagnostic → Session → Prop} :
    Leads (within scope step) s done failed ↔ Leads step (s.withTree (s.tree.moveTo scope))
        (fun a s' => done a (s'.withTree (s'.tree.moveTo s.tree.current)))
        (fun d s' => failed d (s'.withTree (s'.tree.moveTo s.tree.current))) := by
  have run : within scope step s = EStateM.bind (attempt step) (fun result => do
      modifyTree (·.moveTo s.tree.current)
      fromExcept result) (s.withTree (s.tree.moveTo scope)) := rfl
  unfold Leads
  rw [run, EStateM.bind, attempt]
  cases step (s.withTree (s.tree.moveTo scope)) <;> exact .rfl

/-- What is done in another scope, with the insertion point back at the old one afterwards. -/
theorem within_keeps {α : Type} {step : Analysis α} {scope : ScopeId} {post : α → Site → Prop}
    (alive : x.tree.isAlive scope)
    (up : ∀ a ∈ x.tree.ancestors scope, (x.tree.kind a).isBody →
      a = x.owner ∨ x.start ≤ a) (unqueued : scope ∉ x.session.bodies)
    (inner : ∀ y, x.Beside y → y.session = x.session.withTree (x.tree.moveTo scope) →
      y.owner = x.owner → y.start = x.start → x.types = y.types → Keeps step y post) :
    Keeps (within scope step) x fun a z => ∃ y, x.session.Lowers y.session ∧
      x.draft.Continues x.supply y.draft y.supply ∧ post a y ∧ y.Beside z ∧
      z.session = y.session.withTree (y.tree.moveTo x.tree.current) := by
  let start : Site := x.retree (t := x.tree.moveTo scope) rfl alive up unqueued
  have moved := (x.valid.relocated (t := x.tree.moveTo scope) rfl alive).2
  have current := ScopeTree.lt_of_alive x.valid.current
  -- The old insertion point is still alive afterwards.
  have back : ∀ {s : Session}, s.Valid → start.session.Lowers s →
      s.tree.isAlive x.tree.current := by
    intro s _ lowers
    rw [(moved.trans lowers).tree.alive _ current]
    exact x.valid.current
  refine leads_within.mpr (Leads.mono (inner start ⟨rfl, rfl, rfl, rfl, rfl, rfl⟩ rfl rfl rfl rfl) ?_ ?_)
  · rintro a _ ⟨y, rfl, way, holds⟩
    have whole := moved.trans way.lowers
    have alive' := back y.valid way.lowers
    have same : y.tree.ancestors x.tree.current = x.tree.ancestors x.tree.current :=
      whole.tree.ancestors current
    have around' : ∀ a ∈ y.tree.ancestors x.tree.current, (y.tree.kind a).isBody →
        a = y.owner ∨ y.start ≤ a := by
      intro a mem body
      rw [same] at mem
      have below := Nat.lt_of_le_of_lt (ScopeTree.le_of_mem_ancestors mem) current
      rw [way.owner, way.start]
      exact x.visible.around a mem ((whole.tree.kind a below).isBody.symm.trans body)
    have unqueued' : x.tree.current ∉ y.session.bodies := by
      obtain ⟨_, bodies, fresh⟩ := whole.bodies
      intro mem
      rcases List.mem_append.mp (bodies ▸ mem) with old | young
      · exact x.visible.unqueued old
      · exact Nat.lt_irrefl _ (Nat.lt_of_lt_of_le current (fresh _ young))
    have home := (y.valid.relocated (t := y.tree.moveTo x.tree.current) rfl alive').2
    refine ⟨y.retree (t := y.tree.moveTo x.tree.current) rfl alive' around' unqueued', rfl,
      ⟨whole.trans home, way.draft, way.types, rfl, way.owner, way.start, way.assigns⟩,
      y, whole, way.draft, holds, ⟨rfl, rfl, rfl, rfl, rfl, rfl⟩, rfl⟩
  rintro d s ⟨excused, valid, lowers⟩
  obtain ⟨valid', home⟩ := valid.relocated (t := s.tree.moveTo x.tree.current) rfl
    (back valid lowers)
  exact ⟨excused, valid', (moved.trans lowers).trans home⟩

end

variable {x : Site} {name : String} {kind : ScopeKind} {span : Span}

def Site.Binds (x : Site) (kind : ScopeKind) : Prop :=
  kind = .block ∨ ∃ e k, kind = .var e ∧ e.storage = .slot (.temp k) ∧
    (e.type.Known x.tree ∧ e.type.isStorable) ∧ x.draft.HasSlot k e.type.ir

theorem Site.Binds.admits (binds : x.Binds kind) {outer : ScopeKind} (body : outer.isBody) :
    outer.admits kind := by
  rcases binds with rfl | ⟨e, k, rfl, storage, -⟩
  · exact body
  rw [ScopeKind.admits, storage]
  exact body

theorem Site.Binds.accounts (binds : x.Binds kind) {s : Session} (h : x.session.Extends [] s)
    (id : ScopeId) : s.Accounts id kind := by
  rcases binds with rfl | ⟨e, k, rfl, storage, ⟨known, storable⟩, -⟩
  · trivial
  refine ⟨⟨known.mono h.tree, storable⟩, fun _ _ other => ?_⟩
  rw [storage] at other
  cases other

theorem Site.Binds.slot (binds : x.Binds kind) : ∀ e addr, kind = .var e → e.storage = .slot addr →
    ∃ k, addr = .temp k ∧ x.draft.HasSlot k e.type.ir := by
  rintro e _ rfl storage
  rcases binds with block | ⟨_, k, same, storage', -, slot⟩
  · cases block
  obtain rfl := ScopeKind.var.inj same
  obtain rfl := Storage.slot.inj (storage'.symm.trans storage)
  exact ⟨k, rfl, slot⟩

theorem add_keeps (body : (x.tree.kind x.tree.current).isBody) (binds : x.Binds kind) :
    Keeps (add name kind span) x fun id y => id = x.tree.size ∧
      y.session = x.session.grown x.tree.current name kind span ∧ x.Beside y := by
  have lies := ScopeTree.lt_of_alive x.valid.current
  change Leads (addChild x.tree.current name kind span) x.session _ _
  refine addChild_leads (fun free => ?_) (stopped x)
  have plain : ∀ e, kind ≠ .function e := by
    rintro e rfl
    rcases binds with block | ⟨_, _, var, -⟩
    · cases block
    · cases var
  have template : (x.tree.kind x.tree.current).template? = none := by
    cases current : x.tree.kind x.tree.current <;> rw [current] at body <;>
      first | rfl | cases body
  have extended : x.session.Extends [] (x.session.grown x.tree.current name kind span) := by
    refine x.valid.extends_grown lies (.inr (.inl template)) (fun _ => ?_) ?_
    · rcases binds with rfl | ⟨_, _, rfl, -⟩ <;> exact ⟨nofun, nofun⟩
    · rcases binds with rfl | ⟨_, _, rfl, -⟩ <;> exact nofun
  have valid := x.valid.grown lies free (binds.admits body) extended.toIncludes
    (binds.accounts extended _) (fun e _ function => absurd function (plain e))
    (fun _ => x.valid.current) x.visible.unqueued
  let y : Site := { x with
    session := x.session.grown x.tree.current name kind span
    valid := valid
    built := x.built.mono extended.context
    visible := x.visible.grown x.valid lies extended binds.slot }
  exact ⟨y, rfl, ⟨.grown lies extended plain, .refl _ _, fun _ _ h => h, rfl, rfl, rfl, rfl⟩, rfl,
    rfl, rfl, rfl, rfl, rfl, rfl, rfl⟩

theorem generateName_keeps {stem : String} : Keeps (generateName stem) x fun name y =>
    '#' ∈ name.toList ∧ y.tree.nodes = x.tree.nodes ∧ x.Beside y := by
  have mark : '#' ∈ (x.tree.generateName stem).1.toList := by
    simp [ScopeTree.generateName, String.toList_append]
  let y : Site := x.retree (t := (x.tree.generateName stem).2) rfl x.valid.current
    x.visible.around x.visible.unqueued
  have lowers := (x.valid.relocated (t := (x.tree.generateName stem).2) rfl x.valid.current).2
  exact .step (y := y) rfl ⟨lowers, .refl _ _, fun _ _ h => h, rfl, rfl, rfl, rfl⟩
    ⟨mark, rfl, rfl, rfl, rfl, rfl, rfl, rfl⟩

end Stencil
