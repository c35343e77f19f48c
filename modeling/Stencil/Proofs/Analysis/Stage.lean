import Stencil.Proofs.Analysis.Update

namespace Stencil

open ScopeTree

/-- A valid session. Steps may add fields to the `spared` templates. -/
structure Stage (spared : List ScopeId) where
  session : Session
  valid : session.Valid

namespace Stage

variable {spared : List ScopeId}

abbrev tree (x : Stage spared) : ScopeTree := x.session.tree

instance : Analysis.Tracked (Stage spared) where
  session := session
  later x y := x.session.Grows spared y.session
  failed x d s := d.Ordinary ∧ s.Valid ∧ x.session.Grows spared s
  refl x := .refl spared x.session
  trans fst snd := fst.trans snd
  carried := by
    rintro x y d s way ⟨ordinary, valid, more⟩
    exact ⟨ordinary, valid, way.trans more⟩
  stopped x _ ordinary := ⟨ordinary, x.valid, .refl spared x.session⟩

end Stage

namespace Analysis

open Tracked

variable {α : Type} {spared : List ScopeId} {x : Stage spared} {post : α → Stage spared → Prop}

namespace Keeps

theorem change {f : Session → Session} {post : Unit → Stage spared → Prop}
    (valid : (f x.session).Valid) (grows : x.session.Grows spared (f x.session))
    (holds : post () ⟨f x.session, valid⟩) : Keeps (modify f) x post :=
  Keeps.step rfl grows holds

theorem changeTree {f : ScopeTree → ScopeTree} {post : Unit → Stage spared → Prop}
    (valid : (x.session.withTree (f x.tree)).Valid)
    (grows : x.session.Grows spared (x.session.withTree (f x.tree)))
    (holds : post () ⟨_, valid⟩) : Keeps (modifyTree f) x post :=
  change valid grows holds

theorem build {step : Ir.Build α} {b : Ir.Builder} {a : α}
    (run : step x.session.builder = (a, b)) (valid : (x.session.withBuilder b).Valid)
    (grows : x.session.Grows spared (x.session.withBuilder b)) (holds : post a ⟨_, valid⟩) :
    Keeps (build step) x post := by
  refine .step ?_ grows holds
  change Analysis.build step x.session = _
  simp only [build_eq, run]
  rfl

theorem setExported (id : ScopeId) (exported : Bool) :
    Keeps (modifyTree (·.setExported id exported)) x fun _ y =>
      y.session = x.session.withTree (x.tree.setExported id exported) := by
  obtain ⟨valid, grows⟩ := x.valid.adjusted spared
    (adjusts_exported x.tree id exported) (x.valid.accounts id)
  exact changeTree valid grows rfl

variable {step : Analysis α}

theorem attempt (inner : Keeps step x post) :
    Keeps (attempt step) x fun result y => match result with
      | .ok a => post a y
      | .error d => d.Ordinary := by
  refine (leads_attempt step _).mpr (.mono inner (fun a s h => h) ?_)
  rintro d s ⟨ordinary, valid, grows⟩
  exact ⟨⟨s, valid⟩, rfl, grows, ordinary⟩

theorem pushDiagnostic {d : Diagnostic} {post : Unit → Stage spared → Prop} (regular : d.Regular)
    (holds : ∀ y, x.session.Grows spared y.session →
      y.session.report.entries = x.session.report.entries ++ [d] → post () y) :
    Keeps (pushDiagnostic d) x post := by
  obtain ⟨valid, grows⟩ := x.valid.reported spared regular
  exact change valid grows (holds ⟨_, valid⟩ grows rfl)

theorem reporting (inner : Keeps step x post) :
    Keeps (reporting step) x fun result y => y.session.report.entries = [] →
      ∃ a, result = some a ∧ post a y := by
  refine .bind inner.attempt ?_
  rintro (d | a) y way holds
  · refine .bind (m := fun _ z => z.session.report.entries ≠ [])
      (pushDiagnostic holds.regular fun z _ entries => ?_) ?_
    · rw [entries]
      exact List.concat_ne_nil _ _
    · exact fun _ _ _ some => Keeps.pure fun clean => absurd clean some
  · exact .pure fun _ => ⟨a, rfl, holds⟩

theorem spare {post : α → Stage [] → Prop}
    (inner : Keeps step (⟨x.session, x.valid⟩ : Stage []) post) :
    Keeps step x fun a y => x.session.Grows [] y.session ∧ post a ⟨y.session, y.valid⟩ := by
  refine Leads.mono inner ?_ ?_
  · rintro a s ⟨y, rfl, grows, holds⟩
    exact ⟨⟨y.session, y.valid⟩, rfl, grows.spare nofun, grows, holds⟩
  rintro d s ⟨ordinary, valid, grows⟩
  exact ⟨ordinary, valid, grows.spare nofun⟩

end Keeps

variable {parent : ScopeId} {name : String} {kind : ScopeKind} {span : Span}

theorem addChild_run (s : Session) : addChild parent name kind span s =
    if (s.tree.findChild? parent name).isSome then .error ((Problem.duplicate name).at span) s
    else .ok s.tree.size (s.grown parent name kind span) := by
  have run : addChild parent name kind span s =
      EStateM.bind (fromExcept (s.tree.addChild parent name kind span))
        (fun added => do modifyTree fun _ => added.2; return added.1) s := rfl
  rw [run, addChild_eq]
  split <;> rfl

/-- A scope that cannot be added changes nothing. -/
theorem addChild_leads {s : Session} {done : ScopeId → Session → Prop}
    {failed : Diagnostic → Session → Prop}
    (added : s.tree.findChild? parent name = none →
      done s.tree.size (s.grown parent name kind span))
    (refused : ∀ d : Diagnostic, d.Ordinary → failed d s) :
    Leads (addChild parent name kind span) s done failed := by
  unfold Leads
  rw [addChild_run]
  by_cases taken : (s.tree.findChild? parent name).isSome
  · rw [if_pos taken]
    exact refused _ rfl
  · rw [if_neg taken]
    exact added (Option.not_isSome_iff_eq_none.mp taken)

theorem addChild_fails (s : Session) : Leads (addChild parent name kind span) s (fun _ _ => True)
    fun d s' => d.Ordinary ∧ s' = s :=
  addChild_leads (fun _ => trivial) fun _ ordinary => ⟨ordinary, rfl⟩

theorem not_queued {s : Session} (valid : s.Valid) {id : ScopeId}
    (outer : (s.tree.kind id).isBody = false) : id ∉ s.bodies := by
  intro mem
  obtain ⟨⟨e, kind, -⟩, -⟩ := valid.queued id mem
  rw [kind] at outer
  cases outer

theorem lt_of_not_body {t : ScopeTree} {id : ScopeId} (outer : (t.kind id).isBody = false) :
    id < t.size := by
  refine lt_of_kind_ne_block ?_
  intro block
  rw [block] at outer
  cases outer

theorem lt_of_outer {t : ScopeTree} {id : ScopeId} (outer : (t.kind id).isOuter) : id < t.size :=
  lt_of_not_body (ScopeKind.isBody_of_isOuter outer)

theorem Keeps.addChild (outer : (x.tree.kind parent).isBody = false)
    (admits : (x.tree.kind parent).admits kind)
    (plain : ∀ e, kind ≠ .function e)
    (spares : kind.var? = none ∨ (x.tree.kind parent).template? = none ∨
      parent ∈ spared ∧ x.session.Unformed parent)
    (named : x.tree.Plain → (kind = .package → PlainName name) ∧
      ∀ e, kind = .template e → PlainName e.decl.name)
    (accounts : x.tree.findChild? parent name = none →
      x.session.Extends spared (x.session.grown parent name kind span) →
      (x.session.grown parent name kind span).Accounts x.tree.size kind)
    (alive : kind.var?.isSome → x.tree.isAlive parent)
    (fresh : ∀ e, kind = .template e → x.tree.size ∈ spared) :
    Keeps (addChild parent name kind span) x fun id y =>
      id = x.tree.size ∧ y.session = x.session.grown parent name kind span := by
  refine addChild_leads (fun free => ?_) (stopped x)
  have lies := lt_of_not_body outer
  have extended : x.session.Extends spared (x.session.grown parent name kind span) :=
    x.valid.extends_grown lies spares named fresh
  have valid := x.valid.grown lies free admits extended.toIncludes (accounts free extended)
    (fun e _ function => absurd function (plain e)) alive (not_queued x.valid outer)
  exact ⟨⟨_, valid⟩, rfl, Session.grows_grown lies extended outer plain, rfl, rfl⟩

end Analysis

end Stencil
