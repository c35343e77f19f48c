import Stencil.Proofs.Program.Register

/-!
The values of constants are found outside of all functions. Whatever instructions they need are
dropped; only literal results are accepted.
-/

namespace Stencil

open Analysis Tracked ScopeTree Ir.Builder ScopeKind

structure Course where
  session : Session
  valid : session.Valid
  idle : session.Idle
  current : session.tree.current = root

namespace Course

variable {x : Course}

abbrev tree (x : Course) : ScopeTree := x.session.tree

instance : Tracked Course where
  session x := x.session
  later x y := x.session.Lowers y.session
  failed x d s := d.Regular ∧ s.Valid ∧ x.session.Lowers s ∧ s.tree.current = root
  refl x := .refl x.session
  trans fst snd := fst.trans snd
  carried := by
    rintro x y d s way ⟨regular, valid, more, current⟩
    exact ⟨regular, valid, way.trans more, current⟩
  stopped x _ ordinary := ⟨ordinary.regular, x.valid, .refl x.session, x.current⟩

def next (x : Course) {s : Session} (valid : s.Valid) (lowers : x.session.Lowers s)
    (current : s.tree.current = root) : Course :=
  ⟨s, valid, lowers.function.trans x.idle, current⟩

theorem stage {α : Type} {step : Analysis α} {post : α → Stage [] → Prop}
    (inner : Keeps step (⟨x.session, x.valid⟩ : Stage []) post) :
    Keeps step x fun a y => x.session.Grows [] y.session ∧ post a ⟨y.session, y.valid⟩ := by
  refine Leads.mono inner ?_ ?_
  · rintro a s ⟨y, rfl, grows, holds⟩
    exact ⟨x.next y.valid grows.lowers (grows.current.trans x.current), rfl, grows.lowers, grows,
      holds⟩
  rintro d s ⟨ordinary, valid, grows⟩
  exact ⟨ordinary.regular, valid, grows.lowers, grows.current.trans x.current⟩

def ghost : Ir.Function := opening { name := "", params := [], result := .void }

def spot (x : Course) (scope : ScopeId) (outer : (x.tree.kind scope).isOuter)
    (alive : x.tree.isAlive scope) : Spot where
  session := x.session.withTree (x.tree.moveTo scope)
  draft := ghost
  block := 0
  supply _ _ := False
  types _ := none
  waiting := []
  owner := x.tree.size
  start := x.tree.size
  assigns := false
  valid := (x.valid.relocated (t := x.tree.moveTo scope) rfl alive).1
  linked := Or.inr x.idle
  built := .opening _ _ _ ⟨"entry", by simp, rfl⟩
  pending := Ir.Function.pending_opening _
  visible := {
    old := Nat.le_refl _
    slots := fun child p _ _ around _ _ ours => by
      have young : x.tree.size ≤ p :=
        ours.elim (fun same => Nat.le_of_eq same.symm) fun young => young
      exact absurd (x.valid.shaped.parent_lt around) (Nat.not_lt.mpr young)
    around := fun a mem body => by
      change a ∈ (x.tree.moveTo scope).ancestors scope at mem
      rw [ancestors_moveTo] at mem
      rw [show ((x.session.withTree (x.tree.moveTo scope)).tree.kind a) =
        x.tree.kind a from rfl, x.valid.shaped.outer_ancestors scope outer a mem] at body
      cases body
    unqueued := not_queued x.valid (isBody_of_isOuter outer) }
  isOpen := ⟨_, rfl, rfl⟩

def At (y : Course) (z : Spot) : Prop := z.session = y.session

theorem emitting {α : Type} {step : Analysis α} {z : Spot} {post : α → Spot → Prop} (here : x.At z)
    (inner : Keeps step z post)
    (steady : Leads step x.session (fun _ s => s.tree.current = root)
      fun _ s => s.tree.current = root) :
    Keeps step x fun a y => ∃ w, y.At w ∧ post a w := by
  unfold Keeps Leads at inner ⊢
  unfold Leads at steady
  rw [show Tracked.session z = x.session from here] at inner
  rw [show Tracked.session x = x.session from rfl]
  split at inner
  · rename_i a s run
    rw [run] at steady
    obtain ⟨w, rfl, way, holds⟩ := inner
    have lowers : x.session.Lowers w.session := here ▸ way.lowers
    exact ⟨x.next w.valid lowers steady, rfl, lowers, w, rfl, holds⟩
  rename_i d s run
  rw [run] at steady
  obtain ⟨excused, valid, lowers⟩ := inner
  exact ⟨excused.1, valid, here ▸ lowers, steady⟩

theorem convertTo_steady {v : TypedValue} {target : Ty} {implicit : Bool} {span : Span}
    {s : Session} (post : ScopeTree → Prop) (holds : post s.tree) :
    Leads (convertTo v target implicit span) s (fun _ s' => post s'.tree) fun _ s' => post s'.tree := by
  refine leads_get.mpr ?_
  split
  · exact holds
  · exact holds

variable {r : Resolver}

theorem valueIn_keeps (resolves : r.Sound) {e : Expr} {hint : Option Ty}
    {scope : ScopeId} (outer : (x.tree.kind scope).isOuter)
    (alive : x.tree.isAlive scope)
    (hinted : ∀ type, hint = some type → type.Known x.tree) :
    Keeps (within scope (e.lower r hint)) x fun v y => ∃ z, y.At z ∧ v.Sound z := by
  have moved := (x.valid.relocated (t := x.tree.moveTo scope) rfl alive).2
  have inner := Expr.lower_keeps (x := x.spot scope outer alive) (e := e) resolves
    fun type given => (hinted type given).mono moved.tree
  have rooted : ∀ {s : Session}, s.Valid → (x.spot scope outer alive).session.Lowers s →
      (s.withTree (s.tree.moveTo x.tree.current)).Valid ∧
        x.session.Lowers (s.withTree (s.tree.moveTo x.tree.current)) := by
    intro s valid lowers
    have whole := moved.trans lowers
    obtain ⟨valid', home⟩ := valid.relocated (t := s.tree.moveTo x.tree.current) rfl
      ((whole.tree.alive _ (lt_of_alive x.valid.current)).trans x.valid.current)
    exact ⟨valid', whole.trans home⟩
  refine leads_within.mpr (.mono inner ?_ ?_)
  · rintro v _ ⟨z, rfl, way, sound⟩
    obtain ⟨valid, lowers⟩ := rooted z.valid way.lowers
    have home : (z.tree.kind x.tree.current).isOuter := by
      rw [x.current, z.valid.shaped.root]
      rfl
    have alive' : z.tree.isAlive x.tree.current :=
      ((moved.trans way.lowers).tree.alive _ (lt_of_alive x.valid.current)).trans x.valid.current
    let back : Site := z.toSite.retree (t := z.tree.moveTo x.tree.current) rfl alive'
      (fun a mem body => by
        rw [z.valid.shaped.outer_ancestors _ home a mem] at body
        cases body)
      (not_queued z.valid (isBody_of_isOuter home))
    have known := (z.valid.relocated (t := z.tree.moveTo x.tree.current) rfl alive').2
    refine ⟨x.next valid lowers x.current, rfl, lowers, ⟨back, z.isOpen⟩, rfl, ⟨sound.usable.1, ?_⟩,
      sound.known.mono known.tree⟩
    exact .mono sound.usable.2 known.context fun _ _ h => h
  rintro d s ⟨excused, valid, lowers⟩
  obtain ⟨valid', lowers'⟩ := rooted valid lowers
  exact ⟨excused.1, valid', lowers', x.current⟩

variable {parent : ScopeId}

theorem constantValue_keeps (resolves : r.Sound) {d : ConstDecl}
    (outer : (x.tree.kind parent).isOuter)
    (alive : x.tree.isAlive parent) :
    Keeps (constantValue r d parent) x fun v y => ∃ z, y.At z ∧ v.Sound z := by
  unfold constantValue
  split
  · exact valueIn_keeps resolves outer alive (by simp)
  rename_i type _
  refine .bind (stage (Resolver.type_keeps resolves parent type ⟨x.session, x.valid⟩)) ?_
  rintro type y - ⟨grows, known⟩
  have lies := lt_of_alive alive
  refine .bind (valueIn_keeps resolves ((grows.tree.kind parent lies).isOuter.trans outer)
    ((grows.tree.alive parent lies).trans alive) fun _ given => Option.some.inj given ▸ known) ?_
  rintro v z more ⟨w, here, sound⟩
  have known' : type.Known w.tree := by
    rw [show w.tree = z.tree from congrArg Session.tree here]
    exact known.mono more.tree
  refine (emitting here (convertTo_keeps sound known')
    (convertTo_steady (·.current = root) z.current)).mono ?_
  rintro _ _ - ⟨w', here', sound', -⟩
  exact ⟨w', here', sound'⟩

variable {init : Ir.Init} {v : Ir.Value}

theorem isConstant_of_init (got : v.init? = some init) : v.isConstant := by
  cases v <;> first | rfl | cases got

theorem number_of_init (got : v.init? = some init)
    (content : List UInt8) : some init ≠ some (.bytes content) := by
  rintro ⟨⟩
  cases v <;> cases got

theorem typed_of_init (got : v.init? = some init) {s : Session}
    {type : Ir.Ty} (has : v.Has s.context [] (fun _ => none) type) (name : String)
    (constant : Bool) : Ir.Global.Typed ⟨name, type, some init, constant⟩ := by
  cases v with
  | int =>
    cases got
    obtain ⟨_, rfl, fitting⟩ := has
    exact .int fitting
  | float =>
    cases got
    obtain ⟨_, rfl⟩ := has
    exact .float
  | _ => cases got

/-- A constant with the global that holds its value. -/
theorem addConstant_keeps {x : Stage []} (name : String) {v : TypedValue}
    (init : Ir.Init) (exported : Bool) (span : Span)
    (outer : (x.tree.kind parent).isNamespace) (alive : x.tree.isAlive parent)
    (known : v.type.Known x.tree) (storable : v.type.isStorable)
    (got : v.value.init? = some init)
    (has : v.value.Has x.session.context [] (fun _ => none) v.type.ir) :
    Keeps (do
      let global := (← Analysis.tree).qualify parent name
      build (addGlobal { name := global, type := v.type.ir, init := some init, constant := true })
      let node ← addChild parent name (.var
        { type := v.type, storage := .known global v.value, constant := true }) span
      modifyTree (·.setExported node exported)) x := by
  refine .tree_bind ?_
  obtain ⟨valid, grows⟩ := x.valid.withGlobal []
    (g := ⟨x.tree.qualify parent name, v.type.ir, some init, true⟩) rfl
    fun orderly => orderly_withGlobal orderly (typed_of_init got has _ _) (number_of_init got)
  refine .bind (m := fun _ y => y.tree = x.tree ∧
    y.session.context.global (x.tree.qualify parent name) v.type.ir)
    (Keeps.build (a := ()) rfl valid grows ⟨rfl, _, List.mem_append_right _ (List.mem_singleton_self _),
      rfl, rfl⟩) ?_
  rintro _ y - ⟨same, present⟩
  have outer' : (y.tree.kind parent).isNamespace := by rw [same]; exact outer
  have body := isBody_of_isOuter (isOuter_of_isNamespace outer')
  refine .bind (Keeps.addChild body outer' (by simp) (.inr (.inl ?_))
    (fun _ => ⟨by simp, by simp⟩) ?_ (fun _ => by rw [same]; exact alive) (by simp)) ?_
  · cases kind : y.tree.kind parent <;> rw [kind] at outer' <;> first | rfl | cases outer'
  · intro free extended
    have known' : v.type.Known y.tree := by rw [same]; exact known
    refine ⟨⟨known'.mono extended.tree, storable⟩, ?_⟩
    rintro _ _ ⟨⟩
    have constant := isConstant_of_init got
    refine ⟨constant, Session.constant_has constant has, extended.context.global _ _ present, ?_⟩
    intro p up
    have place := lt_of_not_body body
    cases (parent_grown_new place).symm.trans up
    have qualified := extended.tree.qualify place name
    rw [show y.session.tree = x.tree from same] at qualified
    refine qualified.symm.trans (congrArg _ ?_)
    exact (name_grown_new place).symm
  rintro node z - -
  exact (Keeps.setExported node exported).mono fun _ _ _ _ => trivial

theorem defineConstant_keeps (resolves : r.Sound) {d : ConstDecl}
    {exported : Bool} (outer : (x.tree.kind parent).isNamespace)
    (alive : x.tree.isAlive parent) :
    Keeps (defineConstant r d parent exported) x := by
  refine .tree_bind (.check rfl fun _ => ?_)
  have lies := lt_of_alive alive
  refine .bind (constantValue_keeps resolves (isOuter_of_isNamespace outer) alive) ?_
  rintro v y way ⟨z, here, sound⟩
  refine .bind (requireStorable_keeps v.type y) ?_
  rintro _ _ - ⟨rfl, storable⟩
  split
  · exact .fail rfl
  rename_i init got
  have known : v.type.Known y.session.tree := congrArg Session.tree here ▸ sound.known
  have inner := addConstant_keeps (x := ⟨y.session, y.valid⟩) (v := v) d.name init exported d.span
    ((way.tree.kind parent lies).isNamespace.trans outer)
    ((way.tree.alive parent lies).trans alive) known storable got
    (Session.constant_has (isConstant_of_init got) sound.usable.2)
  exact (stage inner).mono fun _ _ _ _ => trivial

end Course

end Stencil
