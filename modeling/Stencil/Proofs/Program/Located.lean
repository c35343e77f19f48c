import Stencil.Proofs.Grammar.Spans
import Stencil.Proofs.Lowering.Located
import Stencil.Proofs.Program.Walk

namespace Stencil

open Locates List Span Resolver Session Grammar Lies

variable {text span : Span} {r : Resolver} {parent : ScopeId} {exported : Bool}

theorem Lies.In.scopeKind {d : AliasDecl} (lies : In text d) : d.scopeKind.Located text := by
  rintro _ ⟨⟩
  exact lies

theorem registerAliases_lands {aliases : List AliasDecl} (lies : In text aliases) :
    Lands text (registerAliases parent aliases) := by
  induction aliases with
  | nil => exact idle
  | cons d ds ih =>
    obtain ⟨fst, rest⟩ := forall_mem_cons.mp lies
    exact bind (reporting (addChild fst.scopeKind fst.holds)) fun _ _ => ih rest

theorem registerDecl_lands (holds : text.Holds span) {d : Decl} (lies : In text d) :
    Lands text (registerDecl parent span d) := by
  cases d with
  | template d =>
    have kind : ∀ structName, (ScopeKind.template
        { decl := d, structName, instanceOf := none, implemented := [], actions := [] }).Located
        text := fun _ => ⟨lies, by simp⟩
    refine tree_bind fun t _ => ?_
    split
    · exact seq build fun _ => map (addChild (kind _) holds)
    · exact map (addChild (kind _) holds)
  | typeAlias => exact map (addChild lies.scopeKind holds)
  | spec d =>
    refine seq (addChild lies holds) fun _ => ?_
    exact seq (registerAliases_lands (lies.2.aliases.lift lies.1)) fun _ => idle
  | action =>
    refine seq (modify fun s located => { located with actions := ?_ }) fun _ => idle
    exact forall_mem_append.mpr ⟨located.actions, forall_mem_singleton.mpr lies⟩
  | func | const => exact idle

mutual

theorem registerItem_lands {parent : ScopeId} : ∀ i, In text i → Lands text (registerItem parent i)
  | .decl d exported span, lies => by
    have own : In text d := .lift lies.2 lies.1
    refine bind (reporting (registerDecl_lands lies.1 own)) fun node _ => ?_
    cases node with
    | none => exact idle
    | some node =>
    have record : ∀ node, Lands text (modify fun s =>
        { s with decls := s.decls ++ [{ decl := d, exported, span, parent, node }] }) := by
      intro _
      refine .modify fun s located => { located with decls := ?_ }
      exact forall_mem_append.mpr ⟨located.decls, forall_mem_singleton.mpr ⟨own, lies.1⟩⟩
    cases node with
    | none => exact record none
    | some node => exact seq (setExported node exported) fun _ => record (some node)
  | .package name items declSpan exported span, lies => by
    refine bind (reporting (addChild trivial lies.1)) fun node _ => ?_
    cases node with
    | none => exact idle
    | some node =>
      exact seq (setExported node exported) fun _ => registerItems_lands items lies.1 lies.2.2

theorem registerItems_lands {parent : ScopeId} : ∀ items {outer : Span},
    text.Holds outer → Item.AllIn outer items → Lands text (registerItems parent items)
  | [], _, _, _ => idle
  | i :: is, _, holds, lies =>
    seq (registerItem_lands i (.lift lies.1 holds)) fun _ => registerItems_lands is holds lies.2

end

section

variable (located : r.Located text) {d : ConstDecl} (lies : In text d)
include located lies

theorem constantValue_lands : Lands text (constantValue r d parent) := by
  have value := lies.2.value.lift lies.1
  unfold constantValue
  split
  · exact within (d.value.lower_lands located value)
  rename_i type given
  have type := (lies.2.type type given).lift lies.1
  refine seq (type_locates located _ type) fun _ => ?_
  exact seq (within (d.value.lower_lands located value)) fun _ => convertTo_lands value.holds

theorem defineConstant_lands : Lands text (defineConstant r d parent exported) := by
  have value := lies.2.value.lift lies.1
  refine tree_bind fun t _ => check lies.holds ?_
  refine seq (constantValue_lands located lies) fun _ => ?_
  refine seq (requireStorable_locates lies.holds) fun _ => ?_
  split
  · exact fail value.holds
  refine tree_bind fun t _ => seq build fun _ => ?_
  exact seq (addChild trivial lies.holds) fun node => setExported node exported

end

section

variable {d : DeclRecord} (lies : In text d.decl)

include lies

theorem DeclRecord.resolve_lands (holds : text.Holds d.span) : Lands text d.resolve := by
  have resolver : Locates text Analysis.resolver fun r =>
      r.Located text := get_bind fun s _ => pure s.resolver_located
  refine bind resolver fun r located => ?_
  split
  · split
    · exact seq (located.aliasTarget _ holds) fun _ => idle
    · exact idle
  · rename_i decl _ same
    rw [same] at lies
    exact defineConstant_lands located lies
  · exact idle

theorem DeclRecord.defineTemplate_lands : Lands text d.defineTemplate := by
  unfold DeclRecord.defineTemplate
  split
  · rename_i decl node same _
    rw [same] at lies
    split
    · exact get_bind fun s _ => defineTemplate_locates s.resolver_located lies
    · exact idle
  · exact idle

theorem DeclRecord.declare_lands : Lands text d.declare := by
  unfold DeclRecord.declare
  split
  · rename_i decl same
    rw [same] at lies
    exact get_bind fun s _ => declareFunction_locates s.resolver_located lies
  · exact get_bind fun s _ => declareSpec_locates s.resolver_located _
  · exact idle

end

theorem forEachDecl_lands {work : DeclRecord → Analysis Unit}
    (single : ∀ {d}, In text d.decl → text.Holds d.span → Lands text (work d))
    {ds : List DeclRecord} (lies : ∀ d ∈ ds, In text d.decl ∧ text.Holds d.span) :
    Lands text (forEachDecl work ds) := by
  induction ds with
  | nil => exact idle
  | cons d ds ih =>
    obtain ⟨fst, rest⟩ := forall_mem_cons.mp lies
    exact bind (reporting (single fst.1 fst.2)) fun _ _ => ih rest

theorem applyActions_lands {indices : List Nat} : Lands text (applyActions indices) := by
  induction indices with
  | nil => exact idle
  | cons index rest ih =>
  refine get_bind fun s inText => ?_
  extract_lets k
  have more : ∀ u, Lands text (k u) := fun _ => ih
  split
  · rename_i pending got
    have lies := inText.actions pending (mem_of_getElem? got)
    split
    · exact more ()
    refine seq (modify fun s inText => ?_) fun _ => ?_
    · exact { inText with actions := forall_mem_modify inText.actions fun _ holds => holds }
    exact bind (reporting (registerAction_locates s.resolver_located lies)) fun _ _ => more ()
  · exact more ()

theorem lowerBodies_lands {limit : Nat} : Lands text (lowerBodies limit) := by
  induction limit with
  | zero =>
    refine get_bind fun s inText => ?_
    split
    · exact idle
    -- bodies that are never reached are reported at the start of the text
    have spent : Lands text (.exhausted (α := Unit) {}) := exhausted inText.origin
    exact bind (reporting spent) fun _ _ => idle
  | succ limit ih =>
  refine get_bind fun s inText => ?_
  split
  · exact idle
  refine seq (set { inText with }) fun _ => ?_
  split
  · exact bind (reporting (lowerFunction_lands _)) fun _ _ => ih
  · exact ih

variable {m : Module}

theorem declareModule_lands (lies : In text m) : Lands text (declareModule m) := by
  refine seq (registerItems_lands m.items lies.1 (Item.allIn_iff.mpr lies.2)) fun _ => ?_
  refine get_bind fun s inText => ?_
  refine seq (forEachDecl_lands DeclRecord.resolve_lands inText.decls) fun _ => ?_
  refine get_bind fun s inText => ?_
  refine seq (forEachDecl_lands (fun own _ => DeclRecord.defineTemplate_lands own) inText.decls)
    fun _ => ?_
  refine get_bind fun s inText => ?_
  refine seq (forEachDecl_lands (fun own _ => DeclRecord.declare_lands own) inText.decls)
    fun _ => ?_
  refine get_bind fun s _ => seq applyActions_lands fun _ => ?_
  exact get_bind fun _ _ => idle

theorem analyzeModule_lands (lies : In text m) : Lands text (analyzeModule m) :=
  seq (declareModule_lands lies) fun _ => lowerBodies_lands

theorem Session.new_located (size : Nat) (name : String) : (new name).Located ⟨0, size⟩ where
  origin := ⟨.refl, .refl, Nat.zero_le _⟩
  tree := by
    intro n mem
    rw [mem_singleton.mp mem]
    trivial
  decls := by simp [new]
  actions := by simp [new]
  report := by simp [new]

theorem Session.Located.run {s : Session} (located : s.Located text)
    (lies : In text m) : (s.run m).Located text := by
  have analyzed := analyzeModule_lands lies s located
  rw [Session.run_eq]
  unfold Analysis.Leads at analyzed
  cases run : analyzeModule m s with
  | ok =>
    rw [run] at analyzed
    exact analyzed.1
  | error =>
    rw [run] at analyzed
    exact report_extend analyzed.2 (by simpa using analyzed.1)

theorem Session.Located.finalReport {s : Session} (located : s.Located text) :
    ∀ d ∈ s.finalReport.entries, d.Located text := by
  unfold Session.finalReport
  split
  · intro d mem
    rcases mem_append.mp mem with mem | mem
    · exact located.report d mem
    obtain ⟨_, -, rfl⟩ := mem_map.mp mem
    exact Problem.located located.origin
  · exact located.report

theorem Grammar.parse_error_within {α : Type} {rule : Nat → Parser α} {source : List Char}
    {post : Input → α → Input → Prop} {depth : Nat → Nat} {d : Diagnostic}
    (reads : ∀ n s, s.Sound → Reads (depth n) (rule n) s (post s))
    (failed : parse rule source = .error d) : d.span.Within (byteLength source) :=
  (parse_reports reads failed).within

theorem Grammar.parse_ok {α : Type} {rule : Nat → Parser α} {source : List Char}
    {post : α → Input → Prop} {depth : Nat → Nat} {a : α}
    (reads : ∀ n, Reads (depth n) (rule n) (.ofChars source) post)
    (parsed : parse rule source = .ok a) : ∃ s, post a s := by
  unfold parse at parsed
  dsimp only at parsed
  split at parsed
  · rename_i run
    cases parsed
    exact ⟨_, ((reads _).ok run).2⟩
  · cases parsed

theorem Module.parse_in {source : String} (parsed : Module.parse source = .ok m) :
    In ⟨0, byteLength source.toList⟩ m := by
  obtain ⟨s, lies, -⟩ :=
    parse_ok (fun n => reads_module n (Input.ofChars_sound _)) parsed
  exact lies

theorem Placed.span_within {stop start : Nat} {lexemes : List Lexeme}
    (placed : Placed stop start lexemes) : ∀ r ∈ lexemes, r.span.Within stop := by
  induction lexemes generalizing start with
  | nil => simp
  | cons r rest ih =>
    obtain ⟨-, ordered, -, more⟩ := placed
    exact forall_mem_cons.mpr ⟨⟨ordered, more.start_le⟩, ih more⟩

/-- Every place lies in the text, and syntax is nested. The nodes of the outline of a module lie in
the text, each inside of the node above it. Faults of the scanner, syntax errors, and everything
that is found wrong with a module, notes included, lie in the text as well. -/
theorem spans_nested_within_source (source : String) :
    (∀ m, Module.parse source = .ok m → ∀ path node, m.outline.descend? path = some node →
      node.span.Within (byteLength source.toList) ∧ ∀ c ∈ node.children,
        c.span.start ≤ c.span.stop ∧ node.span.Covers c.span) ∧
    (∀ d, .fault d ∈ Scan.lexemes source.toList → d.span.Within (byteLength source.toList)) ∧
    (∀ d, Module.parse source = .error d ∨ Expr.parse source = .error d →
      d.span.Within (byteLength source.toList)) ∧
    ∀ m, Module.parse source = .ok m → ∀ name, ∀ d ∈ (analyze name m).finalReport.entries,
      d.span.Within (byteLength source.toList) ∧
        ∀ note ∈ d.notes, note.2.Within (byteLength source.toList) := by
  refine ⟨?_, ?_, ?_, ?_⟩
  · intro m parsed path node got
    have lies := (m.outline_in (Module.parse_in parsed)).descend got
    refine ⟨lies.holds.2, ?_⟩
    intro c mem
    have own := (lies.children c mem).holds
    exact ⟨own.2.1, own.covers⟩
  · intro d mem
    exact Placed.span_within (Input.ofChars_sound source.toList) (.fault d) mem
  · rintro d (failed | failed)
    · exact Grammar.parse_error_within (fun n s sound => reads_module n sound) failed
    · exact Grammar.parse_error_within (fun n s sound => (finds_expr n).reads s sound) failed
  · intro m parsed name d mem
    have located := ((Session.new_located _ name).run (Module.parse_in parsed)).finalReport d mem
    exact ⟨located.1.2, fun note has => (located.2 note has).2⟩

end Stencil
