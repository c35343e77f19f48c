import Stencil.Analysis.Instance
import Stencil.Proofs.Grammar.Nested
import Stencil.Proofs.Scope.Removal

namespace Stencil

open Problem List Option ScopeTree ScopeKind Lies

section

variable (text : Span)

def Diagnostic.Located (d : Diagnostic) : Prop :=
  text.Holds d.span ∧ ∀ note ∈ d.notes, text.Holds note.2

/-- The declaration behind a scope lies in a text. -/
def ScopeKind.Located : ScopeKind → Prop
  | .function e => In text e.decl
  | .template e => In text e.decl ∧ ∀ a ∈ e.actions, In text a.1
  | .typeAlias e => In text e.decl
  | .spec d => In text d
  | _ => True

def ScopeTree.Located (t : ScopeTree) : Prop :=
  ∀ n ∈ t.nodes, n.kind.Located text

/-- All syntax that a session keeps, and all that it has reported, lies in a text. -/
structure Session.Located (s : Session) : Prop where
  origin : text.Holds {}
  tree : s.tree.Located text
  decls : ∀ d ∈ s.decls, In text d.decl ∧ text.Holds d.span
  actions : ∀ p ∈ s.actions, In text p.decl
  report : ∀ d ∈ s.report.entries, d.Located text

/-- A step keeps a session in a text, with a result for which something holds; if it fails, it does
so in the text. -/
def Locates {α : Type} (step : Analysis α) (post : α → Prop := fun _ => True) : Prop :=
  ∀ s : Session, s.Located text → Analysis.Leads step s (fun a s' => s'.Located text ∧ post a)
    fun d s' => d.Located text ∧ s'.Located text

end

variable {text : Span} {span : Span} {p : Problem}

theorem Problem.located (holds : text.Holds span) : (p.at span).Located text :=
  ⟨holds, by simp [Problem.at]⟩

variable {d : Diagnostic}

theorem Diagnostic.Located.withNote {remark : String}
    (located : d.Located text) (holds : text.Holds span) :
    (d.withNote remark span).Located text := by
  refine ⟨located.1, ?_⟩
  exact forall_mem_append.mpr ⟨located.2, forall_mem_singleton.mpr holds⟩

theorem forall_mem_modify {α : Type} {p : α → Prop} {f : α → α} {l : List α} {i : Nat}
    (all : ∀ a ∈ l, p a) (keeps : ∀ a, p a → p (f a)) : ∀ a ∈ l.modify i f, p a := by
  intro a mem
  obtain ⟨j, got⟩ := mem_iff_getElem?.mp mem
  rw [getElem?_modify] at got
  obtain ⟨b, has, rfl⟩ := map_eq_some_iff.mp got
  have holds := all b (mem_of_getElem? has)
  split
  · exact keeps b holds
  · exact holds

variable {id : ScopeId} {name : String}

namespace ScopeTree.Located

variable {t : ScopeTree}

variable (located : t.Located text)
include located

theorem kind (id : ScopeId) : (t.kind id).Located text := by
  unfold ScopeTree.kind node
  cases got : t.nodes[id]? with
  | none => trivial
  | some n => exact located n (mem_of_getElem? got)

theorem modifyNode {change : ScopeNode → ScopeNode}
    (keeps : ∀ n, n.kind.Located text → (change n).kind.Located text) :
    (t.modifyNode id change).Located text :=
  forall_mem_modify located keeps

theorem setKind {kind : ScopeKind} (holds : kind.Located text) : (t.setKind id kind).Located text :=
  located.modifyNode fun _ _ => holds

theorem addChild {parent id : ScopeId} {kind : ScopeKind}
    {t' : ScopeTree} (holds : kind.Located text)
    (added : t.addChild parent name kind span = .ok (id, t')) : t'.Located text := by
  unfold ScopeTree.addChild at added
  split at added
  · cases added
  cases added
  refine modifyNode ?_ fun _ holds => holds
  exact forall_mem_append.mpr ⟨located, forall_mem_singleton.mpr holds⟩

theorem remove (id : ScopeId) : (t.remove id).Located text := by
  intro n mem
  obtain ⟨i, got⟩ := mem_iff_getElem?.mp mem
  have own := located.kind i
  rw [← kind_remove t id, ScopeTree.kind, node, got] at own
  exact own

end ScopeTree.Located

namespace Locates

open Analysis

variable {α β : Type} {post : α → Prop}

theorem pure {a : α} (holds : post a) : Locates text (pure a) post :=
  fun _ located => ⟨located, holds⟩

theorem idle {a : α} : Locates text (Pure.pure a) :=
  pure trivial

variable {next : β → Analysis α} {step : Analysis β}

theorem bind {mid : β → Prop}
    (fst : Locates text step mid) (snd : ∀ b, mid b → Locates text (next b) post) :
    Locates text (step >>= next) post := by
  intro s located
  refine leads_bind.mpr (.mono (fst s located) ?_ fun _ _ h => h)
  exact fun b s' h => snd b h.2 s' h.1

theorem seq (fst : Locates text step)
    (snd : ∀ b, Locates text (next b) post) : Locates text (step >>= next) post :=
  bind fst fun b _ => snd b

theorem map {f : β → α} (inner : Locates text step fun b => post (f b)) :
    Locates text (f <$> step) post :=
  fun s located => leads_map.mpr (inner s located)

theorem throw (holds : d.Located text) : Locates text (.throw d) post :=
  fun _ located => ⟨holds, located⟩

section

variable (holds : text.Holds span)
include holds

theorem fail : Locates text (fail p span) post :=
  throw (located holds)

theorem fail_bind : Locates text (.fail p span >>= next) post := by
  have failed : Locates text (.fail (α := β) p span) fun _ => False := fail holds
  exact bind failed fun _ h => h.elim

variable {c : Prop} [Decidable c]

theorem check {rest : Analysis α} (passed : Locates text rest post) :
    Locates text (if c then Analysis.fail p span >>= fun _ : PUnit => rest else rest) post := by
  split
  · exact fail_bind holds
  · exact passed

theorem require {rest : Analysis α} (passed : Locates text rest post) :
    Locates text (if c then rest else Analysis.fail p span >>= fun _ : PUnit => rest) post := by
  split
  · exact passed
  · exact fail_bind holds

end

theorem choice {c : Prop} [Decidable c] {yes no : Analysis β}
    (fst : Locates text yes) (snd : Locates text no)
    (rest : ∀ b, Locates text (next b) post) :
    Locates text (if c then yes >>= next else no >>= next) post := by
  split
  · exact bind fst fun b _ => rest b
  · exact bind snd fun b _ => rest b

theorem get_bind {next : Session → Analysis α}
    (after : ∀ s, s.Located text → Locates text (next s) post) :
    Locates text (get >>= next) post :=
  fun s located => after s located s located

theorem tree_bind {next : ScopeTree → Analysis α}
    (after : ∀ t, t.Located text → Locates text (next t) post) :
    Locates text (tree >>= next) post :=
  fun s located => after s.tree located.tree s located

theorem modify {f : Session → Session} (keeps : ∀ s, s.Located text → (f s).Located text) :
    Locates text (modify f) :=
  fun s located => ⟨keeps s located, trivial⟩

theorem set {s : Session} (located : s.Located text) : Locates text (set s) :=
  fun _ _ => ⟨located, trivial⟩

theorem modifyTree {f : ScopeTree → ScopeTree} (keeps : ∀ t, t.Located text → (f t).Located text) :
    Locates text (modifyTree f) :=
  modify fun s located => { located with tree := keeps s.tree located.tree }

theorem build {step : Ir.Build α} : Locates text (build step) :=
  fun _ located => ⟨{ located with }, trivial⟩

theorem fromExcept {e : Except Diagnostic α} (failure : ∀ d, e = .error d → d.Located text)
    (success : ∀ a, e = .ok a → post a) : Locates text (fromExcept e) post := by
  cases e with
  | ok a => exact pure (success a rfl)
  | error d => exact throw (failure d rfl)

variable {step : Analysis α}

theorem attempt (inner : Locates text step post) : Locates text (attempt step) fun result =>
      (∀ d, result = .error d → d.Located text) ∧ ∀ a, result = .ok a → post a := by
  intro s located
  refine (leads_attempt step _).mpr (.mono (inner s located) ?_ ?_)
  · rintro a _ ⟨located, holds⟩
    refine ⟨located, by simp, ?_⟩
    rintro _ ⟨⟩
    exact holds
  rintro d _ ⟨failed, located⟩
  refine ⟨located, ?_, by simp⟩
  rintro _ ⟨⟩
  exact failed

theorem report_extend {s : Session} {ds : List Diagnostic} (located : s.Located text)
    (holds : ∀ d ∈ ds, d.Located text) :
    Session.Located text { s with report := s.report.extend ds } := by
  refine { located with report := ?_ }
  intro e mem
  rcases mem_append.mp mem with mem | mem
  · exact located.report e mem
  · exact holds e mem

theorem reporting (inner : Locates text step post) :
    Locates text (reporting step) fun result => ∀ a, result = some a → post a := by
  intro s located
  refine leads_reporting.mpr (.mono (inner s located) ?_ ?_)
  · rintro a _ ⟨located, holds⟩
    refine ⟨located, ?_⟩
    rintro _ ⟨⟩
    exact holds
  rintro d _ ⟨failed, located⟩
  exact ⟨report_extend located (by simpa using failed), by simp⟩

theorem addChild {parent : ScopeId} {kind : ScopeKind}
    (located : kind.Located text) (holds : text.Holds span) :
    Locates text (addChild parent name kind span) := by
  refine tree_bind ?_
  intro t inText
  have added : Locates text (.fromExcept (t.addChild parent name kind span))
      fun added => added.2.Located text := by
    refine fromExcept ?_ fun _ run => inText.addChild located run
    intro d failed
    unfold ScopeTree.addChild at failed
    split at failed
    · cases failed
      exact Problem.located holds
    · cases failed
  refine bind added ?_
  rintro ⟨_, _⟩ added
  exact seq (modifyTree fun _ _ => added) fun _ => idle

theorem within {scope : ScopeId} (inner : Locates text step post) :
    Locates text (within scope step) post := by
  refine tree_bind fun t _ => ?_
  refine seq (modifyTree fun _ located => located) fun _ => ?_
  refine bind (attempt inner) ?_
  rintro _ ⟨failure, success⟩
  refine seq (modifyTree fun _ located => located) fun _ => ?_
  exact fromExcept failure success

theorem modifyTemplate {f : TemplateEntry → TemplateEntry}
    (keeps : ∀ e, (template e).Located text → (template (f e)).Located text) :
    Locates text (modifyTemplate id f) := by
  refine modifyTree ?_
  intro t located
  cases kind : t.kind id with
  | template e =>
    have own := located.kind id
    rw [kind] at own
    exact located.setKind (keeps e own)
  | _ => exact located

theorem modifyAlias {f : AliasEntry → AliasEntry}
    (keeps : ∀ e, (f e).decl = e.decl) : Locates text (modifyAlias id f) := by
  refine modifyTree ?_
  intro t located
  cases kind : t.kind id with
  | typeAlias e =>
    have own := located.kind id
    rw [kind] at own
    refine located.setKind ?_
    show ∀ d ∈ (f e).decl, _
    rw [keeps]
    exact own
  | _ => exact located

theorem setExported (id : ScopeId) (exported : Bool) :
    Locates text (.modifyTree (·.setExported id exported)) :=
  modifyTree fun _ located => located.modifyNode fun _ holds => holds

theorem exhausted (holds : text.Holds span) : Locates text (exhausted span) post :=
  seq (modify fun _ located => { located with }) fun _ => fail holds

end Locates

open Locates

theorem Locates.fail_origin {α : Type} {post : α → Prop} : Locates text (.fail p {}) post :=
  fun s located => fail located.origin s located

/-- A resolver whose problems lie where it is asked from. -/
structure Resolver.Located (text : Span) (r : Resolver) : Prop where
  aliasTarget : ∀ id {span}, text.Holds span → Locates text (r.aliasTarget id span)
  instantiate : ∀ id args {span}, text.Holds span →
    Locates text (r.instantiate id args span)

section

variable {r : Resolver} {scope : ScopeId} {args : List Ty}

theorem requireStorable_locates {type : Ty} (holds : text.Holds span) :
    Locates text (requireStorable type span) := by
  cases type with
  | void | spec => exact fail holds
  | _ => exact idle

namespace Resolver

section

variable (located : r.Located text)
include located

theorem namespaceScope_locates (holds : text.Holds span) :
    Locates text (r.namespaceScope id span) := by
  refine tree_bind fun t _ => ?_
  cases t.kind id with
  | module | package | template | spec => exact idle
  | typeAlias =>
    refine seq (located.aliasTarget id holds) fun type => ?_
    cases type.structScope? with
    | some => exact idle
    | none => exact fail holds
  | function | var | block => exact fail holds

theorem descend_locates (holds : text.Holds span) {names : List String} :
    Locates text (r.descend name span id names) := by
  induction names generalizing id with
  | nil => exact idle
  | cons name names ih =>
  refine seq (namespaceScope_locates located holds) fun _ => ?_
  refine tree_bind fun t _ => ?_
  split
  · exact ih
  · exact fail holds

theorem lookupPath_locates (holds : text.Holds span) {path : List String} :
    Locates text (r.lookupPath path scope span) := by
  cases path with
  | nil => exact fail holds
  | cons fst rest =>
  refine tree_bind fun t _ => ?_
  split
  · exact descend_locates located holds
  · exact fail holds

theorem generic_locates (holds : text.Holds span) : Locates text (r.generic id args span) := by
  refine get_bind fun s _ => ?_
  split
  · exact idle
  · exact located.instantiate id args holds

end

theorem refuseArguments_locates {α : Type} {args : List α} (holds : text.Holds span) :
    Locates text (refuseArguments name args span) := by
  unfold refuseArguments
  split
  · exact idle
  · exact fail holds

section

variable (located : r.Located text)
include located

set_option linter.unusedSectionVars false

mutual

theorem type_locates {scope : ScopeId} : ∀ t, In text t → Locates text (r.type scope t)
  | .primitive _ _, _ => idle
  | .self span, lies => by
    refine tree_bind fun t _ => ?_
    split
    · exact idle
    · exact fail lies.1
  | .reference target span, lies =>
    seq (type_locates target (.lift lies.2 lies.1)) fun _ => idle
  | .array elem length span, lies => by
    refine seq (type_locates elem (.lift lies.2 lies.1)) fun type => ?_
    exact seq (requireStorable_locates lies.1) fun _ => idle
  | .function params result span, lies => by
    refine seq (types_locates params ((TypeSyntax.allIn_iff.mp lies.2.1).lift lies.1)) fun _ => ?_
    exact seq (resultType_locates result ((TypeSyntax.resultIn_iff.mp lies.2.2).lift lies.1))
      fun _ => idle
  | .named path args span, lies => by
    have arguments : Locates text (r.types scope args) :=
      types_locates args ((TypeSyntax.allIn_iff.mp lies.2).lift lies.1)
    refine seq (lookupPath_locates located lies.1) fun id => ?_
    refine tree_bind fun t _ => ?_
    cases t.kind id with
    | template =>
      dsimp only
      split
      · exact seq arguments fun _ => generic_locates located lies.1
      · exact seq (refuseArguments_locates lies.1) fun _ => idle
    | typeAlias =>
      dsimp only
      split
      · exact seq arguments fun _ => generic_locates located lies.1
      exact seq (refuseArguments_locates lies.1) fun _ =>
        located.aliasTarget id lies.1
    | spec => exact seq (refuseArguments_locates lies.1) fun _ => idle
    | module | package | function | var | block => exact fail lies.1

theorem types_locates {scope : ScopeId} : ∀ ts, In text ts → Locates text (r.types scope ts)
  | [], _ => idle
  | t :: ts, lies =>
    seq (type_locates t (lies t (.head _))) fun _ =>
      seq (types_locates ts fun u mem => lies u (.tail t mem)) fun _ => idle

theorem resultType_locates {scope : ScopeId} :
    ∀ result, In text result → Locates text (r.resultType scope result)
  | none, _ => idle
  | some t, lies => type_locates t (lies t rfl)

end

theorem resolveAlias_locates (holds : text.Holds span) : Locates text (r.resolveAlias id span) := by
  refine tree_bind fun t inText => ?_
  have own := inText.kind id
  cases kind : t.kind id with
  | typeAlias e =>
    rw [kind] at own
    dsimp only
    split
    · exact idle
    refine check holds (check holds ?_)
    split
    · exact idle
    rename_i target got
    obtain ⟨d, has, target'⟩ := bind_eq_some_iff.mp got
    have lies := own d has
    refine seq (modifyAlias fun _ => rfl) fun _ => ?_
    refine bind (attempt (type_locates located target
      ((lies.2.target target target').lift lies.1))) ?_
    rintro _ ⟨failure, success⟩
    refine seq (modifyAlias fun _ => rfl) fun _ => ?_
    exact fromExcept failure success
  | module | package | template | spec | function | var | block => exact fail holds

end

end Resolver

end

section

variable {r : Resolver} {parent template : ScopeId} {exported : Bool}

namespace Resolver

variable (located : r.Located text)
include located

theorem declareFunction_locates {decl : FuncDecl} (lies : In text decl) :
    Locates text (r.declareFunction parent decl exported) := by
  have name := lies.1.trans lies.2.name
  refine tree_bind fun t _ => ?_
  refine check name (check name ?_)
  refine seq (types_locates located _ ?_) fun _ => ?_
  · intro t mem
    obtain ⟨p, has, rfl⟩ := List.mem_map.mp mem
    have param := lies.2.params p has
    exact param.2.lift (lies.1.trans param.1)
  refine seq (resultType_locates located decl.result (lies.2.result.lift lies.1)) fun _ => ?_
  refine tree_bind fun t _ => ?_
  refine choice idle (map build) fun _ => ?_
  refine seq (addChild lies lies.holds) fun node => ?_
  refine seq (setExported node exported) fun _ => ?_
  split
  · exact modify fun s located => { located with }
  · exact idle

theorem declareFunctions_locates {decls : List FuncDecl} (lies : In text decls) :
    Locates text (r.declareFunctions parent exported decls) := by
  induction decls with
  | nil => exact idle
  | cons decl decls ih =>
    obtain ⟨fst, rest⟩ := forall_mem_cons.mp lies
    exact bind (reporting (declareFunction_locates located fst)) fun _ _ => ih rest

theorem declareFields_locates {fields : List FieldDecl} (lies : In text fields) :
    Locates text (r.declareFields template fields) := by
  induction fields with
  | nil => exact idle
  | cons field fields ih =>
  obtain ⟨fst, rest⟩ := forall_mem_cons.mp lies
  refine bind (type_locates located _ (fst.2.lift fst.1)) fun type _ => ?_
  refine seq (requireStorable_locates fst.1) fun _ => ?_
  refine seq (addChild trivial fst.1) fun _ => ?_
  exact seq (ih rest) fun _ => idle

theorem defineTemplate_locates {decl : TemplateDecl} (lies : In text decl) :
    Locates text (r.defineTemplate template decl exported) := by
  refine seq (declareFields_locates located (lies.2.fields.lift lies.1)) fun layout => ?_
  refine tree_bind fun t _ => ?_
  have rest : ∀ struct, Locates text (do
      Analysis.build (Ir.Builder.defineStruct struct layout)
      r.declareFunctions template exported decl.methods) fun _ => True := fun _ =>
    seq build fun _ => declareFunctions_locates located (lies.2.methods.lift lies.1)
  split
  all_goals
    dsimp only
    split
    · exact fail_bind lies.holds
    · exact rest _

theorem declareSpec_locates (spec : ScopeId) : Locates text (r.declareSpec spec) := by
  refine get_bind fun s inText => ?_
  have own := inText.tree.kind spec
  split
  · rename_i decl kind
    rw [kind] at own
    split
    · exact idle
    refine seq (set { inText with }) fun _ => ?_
    exact declareFunctions_locates located (own.2.methods.lift own.1)
  · exact idle

end Resolver

end

variable {action : ActionDecl}

theorem missingTypes_located {spec : SpecDecl} (lies : In text action) (required : In text spec) :
    ∀ d ∈ action.missingTypes spec name, d.Located text := by
  intro d mem
  obtain ⟨decl, has, rfl⟩ := List.mem_map.mp mem
  have own := required.2.aliases decl (mem_filter.mp has).1
  exact (located lies.holds).withNote (required.holds.trans own.holds)

variable {t : ScopeTree}

theorem functionFailure_located {template spec : ScopeId}
    {required : FuncDecl} (lies : In text action) (wanted : In text required)
    (failure : t.functionFailure? template spec action required = some d) : d.Located text := by
  have note := wanted.1.trans wanted.2.name
  unfold functionFailure? at failure
  split at failure
  · cases failure
    exact (located lies.holds).withNote note
  rename_i provided got
  have own := lies.2.methods provided (mem_of_find?_eq_some got)
  obtain ⟨_, -, failure⟩ := bind_eq_some_iff.mp failure
  obtain ⟨_, -, failure⟩ := bind_eq_some_iff.mp failure
  obtain ⟨_, -, failure⟩ := bind_eq_some_iff.mp failure
  cases failure
  exact (located (lies.holds.trans (own.1.trans own.2.name))).withNote note

theorem conformanceFailures_located {template spec : ScopeId}
    {decl : SpecDecl} (lies : In text action) (required : In text decl) :
    ∀ d ∈ t.conformanceFailures template spec action decl, d.Located text := by
  intro d mem
  rcases mem_append.mp mem with mem | mem
  · exact missingTypes_located lies required d mem
  obtain ⟨f, has, failure⟩ := mem_filterMap.mp mem
  exact functionFailure_located lies ((required.2.methods f has).lift required.1) failure

section

variable {r : Resolver} {scope template : ScopeId}

namespace Resolver

variable (located : r.Located text)
include located

theorem specOrType_locates {type : TypeSyntax} (lies : In text type) :
    Locates text (r.specOrType scope type) := by
  refine seq (type_locates located type lies) fun _ => ?_
  split
  · exact tree_bind fun t _ => idle
  · exact idle

theorem actionTarget_locates (lies : In text action) :
    Locates text (r.actionTarget action scope) := by
  have target := lies.2.target.lift lies.1
  unfold actionTarget
  extract_lets k
  have rest : ∀ direct, Locates text (k direct) := by
    intro direct
    cases direct with
    | some => exact idle
    | none =>
    refine seq (type_locates located _ target) fun _ => ?_
    split
    · exact idle
    · exact fail target.holds
  split
  · rename_i path span written
    rw [written] at target
    refine seq (lookupPath_locates located target.1) fun _ => ?_
    exact tree_bind fun _ _ => seq idle rest
  · exact seq idle rest

theorem defineAssociatedType_locates {decl : AliasDecl} (lies : In text decl) :
    Locates text (r.defineAssociatedType template decl) := by
  unfold defineAssociatedType
  split
  · exact fail lies.holds
  rename_i target written
  have target := (lies.2.target target written).lift lies.1
  refine seq (type_locates located _ target) fun _ => ?_
  refine seq (addChild ?_ lies.holds) fun _ => idle
  rintro _ ⟨⟩
  exact lies

theorem defineAssociatedTypes_locates {decls : List AliasDecl} (lies : In text decls) :
    Locates text (r.defineAssociatedTypes template decls) := by
  induction decls with
  | nil => exact idle
  | cons decl decls ih =>
    obtain ⟨fst, rest⟩ := forall_mem_cons.mp lies
    exact bind (reporting (defineAssociatedType_locates located fst)) fun _ _ => ih rest

theorem checkAction_locates (lies : In text action) {spec : ScopeId} :
    Locates text (r.checkAction template spec action) := by
  refine tree_bind fun t inText => ?_
  have own := inText.kind spec
  split
  · rename_i decl kind
    rw [kind] at own
    refine seq (declareSpec_locates located spec) fun _ => ?_
    refine tree_bind fun t _ => ?_
    dsimp only
    split
    · exact modifyTemplate fun _ holds => holds
    refine seq (modify fun s located => report_extend located
      (conformanceFailures_located lies own)) fun _ => ?_
    exact fail lies.holds
  · exact idle

theorem applyAction_locates (lies : In text action) :
    Locates text (r.applyAction template action scope) := by
  unfold applyAction
  extract_lets k
  have rest : ∀ spec, Locates text (k spec) := by
    intro spec
    refine seq (defineAssociatedTypes_locates located (lies.2.aliases.lift lies.1)) fun _ => ?_
    refine tree_bind fun t _ => ?_
    refine seq (declareFunctions_locates located (lies.2.methods.lift lies.1)) fun _ => ?_
    cases spec with
    | some => exact checkAction_locates located lies
    | none => exact idle
  split
  · exact seq idle rest
  rename_i written given
  have written := (lies.2.spec written given).lift lies.1
  refine seq (specOrType_locates located written) fun got => ?_
  cases got with
  | inl => exact seq idle rest
  | inr => exact fail_bind written.holds

theorem applyToEach_locates (lies : In text action) {templates : List ScopeId} :
    Locates text (r.applyToEach action scope templates) := by
  induction templates with
  | nil => exact idle
  | cons template templates ih =>
    exact bind (reporting (applyAction_locates located lies)) fun _ _ => ih

theorem registerAction_locates (lies : In text action) :
    Locates text (r.registerAction action scope) := by
  refine seq (actionTarget_locates located lies) fun _ => ?_
  refine tree_bind fun t _ => ?_
  split
  · refine seq (modifyTemplate ?_) fun _ => ?_
    · rintro e ⟨decl, actions⟩
      refine ⟨decl, ?_⟩
      exact forall_mem_append.mpr ⟨actions, forall_mem_singleton.mpr lies⟩
    · exact tree_bind fun _ _ => applyToEach_locates located lies
  · exact applyAction_locates located lies

theorem bindCandidates_locates {generic : Option ScopeId} {indices : List Nat} :
    Locates text (r.bindCandidates template generic indices) := by
  induction indices with
  | nil => exact idle
  | cons index rest ih =>
  refine get_bind fun s inText => ?_
  -- every branch goes on with the other indices
  extract_lets k
  have rest : ∀ u, Locates text (k u) := fun _ => ih
  split
  · rename_i pending got
    have lies := inText.actions pending (mem_of_getElem? got)
    refine bind (attempt (actionTarget_locates located lies)) fun target _ => ?_
    cases target with
    | error => exact rest ()
    | ok =>
    dsimp only
    split
    · refine seq (modify fun s inText => ?_) fun _ => ?_
      · exact { inText with actions := forall_mem_modify inText.actions fun _ holds => holds }
      · exact bind (reporting (registerAction_locates located lies)) fun _ _ => rest ()
    · exact rest ()
  · exact rest ()

theorem implements_locates {type : Ty} {spec : ScopeId} :
    Locates text (r.implements type spec) := by
  cases type with
  | struct =>
    refine tree_bind fun t _ => ?_
    split
    · exact idle
    refine seq ?_ fun _ => tree_bind fun _ _ => idle
    refine get_bind fun s _ => ?_
    split
    · exact bindCandidates_locates located
    · exact idle
  | _ => exact idle

end Resolver

end

structure ConstraintFailures.Located (text : Span) (found : ConstraintFailures) : Prop where
  failures : ∀ d ∈ found.failures, d.Located text
  first : ∀ span ∈ found.first, text.Holds span

theorem ConstraintFailures.Located.add {found : ConstraintFailures}
    (located : found.Located text) (failed : d.Located text) :
    ConstraintFailures.Located text
      { found with failures := found.failures ++ [d.recoverable] } := by
  refine { located with failures := ?_ }
  exact forall_mem_append.mpr ⟨located.failures, forall_mem_singleton.mpr failed⟩

def Generic.In (text : Span) : Generic → Prop
  | .template d => Lies.In text d
  | .typeAlias d => Lies.In text d

variable {g : Generic}

theorem Generic.In.params (lies : g.In text) : Lies.In text g.params := by
  cases g with
  | template | typeAlias => exact lies.2.generics.lift lies.1

theorem Generic.In.instanceKind (lies : g.In text) (id : ScopeId)
    (struct : String) : (g.instanceKind id struct).Located text := by
  cases g with
  | template => exact ⟨lies, by simp⟩
  | typeAlias =>
    rintro _ ⟨⟩
    exact lies

theorem ScopeTree.Located.generic
    (located : t.Located text) (got : t.generic? id = some g) : g.In text := by
  have own := located.kind id
  unfold generic? at got
  split at got
  · rename_i e kind
    rw [kind] at own
    split at got
    · cases got
      exact own.1
    · cases got
  · rename_i e kind
    rw [kind] at own
    split at got
    · obtain ⟨d, has, rfl⟩ := map_eq_some_iff.mp got
      exact own d has
    · cases got
  · cases got

section

variable {r : Resolver} {scope node generic : ScopeId}

namespace Resolver

variable (located : r.Located text)

section

variable (holds : text.Holds span) {arg : Ty} {got : ConstraintFailures}
include located holds

theorem checkConstraint_locates {constraint : TypeSyntax} (lies : In text constraint)
    (before : got.Located text) :
    Locates text (r.checkConstraint scope span name arg constraint got) (·.Located text) := by
  refine bind (attempt (specOrType_locates located lies)) ?_
  rintro result ⟨failure, -⟩
  cases result with
  | error d => exact pure (before.add (failure d rfl))
  | ok answer =>
  cases answer with
  | inr type => exact pure (before.add (d := (Problem.notSpec type.text).at constraint.span)
      (Problem.located lies.holds))
  | inl spec =>
  refine seq (implements_locates located) fun _ => ?_
  split
  · exact pure before
  refine tree_bind fun t _ => pure ?_
  refine { before.add ((Problem.located holds).withNote lies.holds) with first := ?_ }
  intro place mem
  cases first : got.first with
  | none =>
    rw [first] at mem
    cases mem
    exact lies.holds
  | some =>
    exact before.first place (first ▸ mem)

theorem checkParam_locates {constraints : List TypeSyntax} (lies : In text constraints)
    (before : got.Located text) :
    Locates text (r.checkParam scope span name arg constraints got) (·.Located text) := by
  induction constraints generalizing got with
  | nil => exact pure before
  | cons constraint constraints ih =>
    obtain ⟨fst, rest⟩ := forall_mem_cons.mp lies
    exact bind (checkConstraint_locates located holds fst before) fun _ after => ih rest after

theorem checkParams_locates {params : List GenericParam} {args : List Ty} (lies : In text params)
    (before : got.Located text) :
    Locates text (r.checkParams scope span params args got) (·.Located text) := by
  induction params generalizing args got with
  | nil => exact pure before
  | cons param params ih =>
  cases args with
  | nil => exact pure before
  | cons arg args =>
  obtain ⟨fst, rest⟩ := forall_mem_cons.mp lies
  exact bind (checkParam_locates located holds (fst.2.lift fst.1) before)
    fun _ after => ih rest after

theorem checkConstraints_locates {args : List Ty} (lies : g.In text) :
    Locates text (r.checkConstraints g args scope span) := by
  refine bind (checkParams_locates located holds lies.params ⟨by simp, by simp⟩) fun got after => ?_
  split
  · exact idle
  refine seq (modify fun s located => report_extend located after.failures) fun _ => throw ?_
  split
  · rename_i place fst
    exact (Problem.located holds).withNote (after.first place fst)
  · exact Problem.located holds

end

variable {args : List Ty}

theorem bindParams_locates {params : List GenericParam} (lies : In text params) :
    Locates text (bindParams node params args) := by
  induction params generalizing args with
  | nil => exact idle
  | cons param params ih =>
  cases args with
  | nil => exact idle
  | cons arg args =>
    obtain ⟨fst, rest⟩ := forall_mem_cons.mp lies
    exact seq (addChild (fun _ => nofun) fst.1) fun _ => ih rest

include located

theorem replayActions_locates {actions : List (ActionDecl × ScopeId)}
    (lies : ∀ a ∈ actions, In text a.1) :
    Locates text (r.replayActions node actions) := by
  induction actions with
  | nil => exact idle
  | cons action actions ih =>
    obtain ⟨fst, rest⟩ := forall_mem_cons.mp lies
    exact seq (applyAction_locates located fst) fun _ => ih rest

theorem declareInstance_locates (holds : text.Holds span) (lies : g.In text) :
    Locates text (r.declareInstance generic g args node name span) := by
  refine seq (bindParams_locates lies.params) fun _ => ?_
  cases g with
  | typeAlias => exact located.aliasTarget node holds
  | template =>
  refine seq (modify fun s located => { located with }) fun _ => ?_
  refine seq build fun _ => tree_bind fun t _ => ?_
  refine seq (defineTemplate_locates located lies) fun _ => ?_
  refine tree_bind fun t inText => ?_
  refine seq (replayActions_locates located ?_) fun _ => idle
  -- the actions that are replayed are those the generic template has kept
  have own := inText.kind generic
  cases kind : t.kind generic with
  | template =>
    rw [kind] at own
    exact own.2
  | _ => simp [template?]

theorem makeInstance_locates (holds : text.Holds span) :
    Locates text (r.makeInstance generic args span) := by
  refine tree_bind fun t inText => ?_
  cases got : t.generic? generic with
  | none => exact fail holds
  | some =>
  have lies := inText.generic got
  refine check holds ?_
  refine seq (checkConstraints_locates located holds lies) fun _ => ?_
  refine tree_bind fun t _ => ?_
  refine seq (addChild (lies.instanceKind generic _) holds) fun node => ?_
  refine seq (setExported node _) fun _ => ?_
  refine bind (attempt (declareInstance_locates located holds lies)) ?_
  rintro result ⟨failure, -⟩
  cases result with
  | ok => exact seq (modify fun s located => { located with }) fun _ => idle
  | error d =>
    -- the instance is taken back, and its failure passed on
    refine seq (modify fun s located => { located with }) fun _ => ?_
    exact seq (modifyTree fun _ inText => inText.remove node) fun _ => throw (failure d rfl)

omit located

/-- Following names through other declarations keeps to the text, however deep it goes. -/
theorem within_located (depth : Nat) : (Resolver.within depth).Located text := by
  induction depth with
  | zero => exact ⟨fun _ _ holds => exhausted holds, fun _ _ _ holds => exhausted holds⟩
  | succ depth ih =>
    exact ⟨fun _ _ holds => resolveAlias_locates ih holds,
      fun _ _ _ holds => makeInstance_locates ih holds⟩

end Resolver

end

theorem Session.resolver_located (s : Session) : s.resolver.Located text :=
  Resolver.within_located _

end Stencil
