import Stencil.Proofs.Program.Isolation
import Stencil.Proofs.Program.Typed

namespace Stencil

open List Option ScopeTree

theorem findIdx?_of_nodup {α κ : Type} [DecidableEq κ] (key : α → κ) {all : List α} {i : Nat} {a : α}
    (distinct : (all.map key).Nodup) (got : all[i]? = some a) :
    all.findIdx? (fun x => key x = key a) = some i := by
  obtain ⟨lies, rfl⟩ := List.getElem?_eq_some_iff.mp got
  refine findIdx?_eq_some_iff_getElem.mpr ⟨lies, decide_eq_true rfl, fun j earlier same => ?_⟩
  have before : j < (all.map key).length := by simpa using Nat.lt_trans earlier lies
  have here : i < (all.map key).length := by simpa using lies
  have again := @List.Nodup.getElem_inj_iff κ _ distinct j before i here
  exact Nat.ne_of_lt earlier (again.mp (by simpa using same))

namespace ScopeTree

def variableIds (t : ScopeTree) (id : ScopeId) : List ScopeId :=
  (t.children id).filter fun child => (t.kind child).isVariable

/-- A field has the same number wherever it is asked for. -/
structure Numbers (t : ScopeTree) (id child : ScopeId) (i : Nat) (type : Ty) : Prop where
  looked : t.indexOf? id (t.name child) = some i
  named : ∀ position, fieldFor? (t.layout id) position (some (t.name child)) =
    some (i, t.name child, type)
  unnamed : fieldFor? (t.layout id) i none = some (i, t.name child, type)

variable {t : ScopeTree} {id child : ScopeId} {i : Nat}

theorem map_fst_fields (t : ScopeTree) (id : ScopeId) :
    (t.fields id).map Prod.fst = t.variableIds id := by
  rw [fields, map_filterMap, variableIds, ← filterMap_eq_filter]
  refine filterMap_congr fun child _ => ?_
  cases var : (t.kind child).var? <;> simp [ScopeKind.isVariable, Option.guard, var]

theorem fields_of_variableIds (got : (t.variableIds id)[i]? = some child) :
    ∃ var, t.kind child = .var var ∧ (t.fields id)[i]? = some (child, var) := by
  rw [← map_fst_fields, getElem?_map] at got
  obtain ⟨field, here, rfl⟩ := map_eq_some_iff.mp got
  exact ⟨field.2, (mem_fields (mem_of_getElem? here)).2, here⟩

theorem Shaped.numbers (shaped : t.Shaped) {e : TemplateEntry} {var : VariableEntry}
    (kind : t.kind id = .template e) (here : (t.fields id)[i]? = some (child, var)) :
    t.Numbers id child i var.type := by
  obtain ⟨lies, isVar⟩ := mem_fields (mem_of_getElem? here)
  have layout := layout_eq shaped kind
  have place : (t.layout id)[i]? = some (t.name child, var.type) := by
    rw [layout, getElem?_map, here]
    rfl
  have distinct : ((t.fields id).map Prod.fst).Nodup := by
    rw [map_fst_fields]
    exact (shaped.once id).filter _
  -- A scope has no two children of the same name.
  have names : ((t.layout id).map Prod.fst).Nodup := by
    rw [layout, List.map_map]
    refine (distinct.of_map _).map_on fun x mem y mem' same => ?_
    have got := shaped.findChild (shaped.mem_names (mem_fields mem).1)
    have found' := shaped.findChild (shaped.mem_names (mem_fields mem').1)
    rw [show t.name x.1 = t.name y.1 from same, found'] at got
    exact inj_on_of_nodup_map distinct mem mem' (Option.some.inj got).symm
  constructor
  · rw [indexOf?, shaped.findChild (shaped.mem_names lies), bind_eq_bind, bind_some, isVar]
    exact findIdx?_of_nodup Prod.fst distinct here
  · intro _
    have got := findIdx?_of_nodup Prod.fst names place
    simp only [fieldFor?, got, place, bind_eq_bind, bind_some, Option.pure_def]
  · simp only [fieldFor?, place, map_some]

theorem Shaped.numbers_grown (shaped : t.Shaped) (lies : id < t.size) {name : String}
    {kind : ScopeKind} {span : Span} (free : t.findChild? id name = none) (none : kind.var? = none) :
    (t.grown id name kind span).layout id = t.layout id ∧
      ∀ other, (t.grown id name kind span).indexOf? id other = t.indexOf? id other := by
  have fields : (t.grown id name kind span).fields id = t.fields id :=
    (fields_grown_parent shaped lies).trans (by simp [none])
  constructor
  · rw [layout, layout, fields]
    refine filterMap_congr ?_
    rintro ⟨_, _⟩ mem
    dsimp only
    rw [name_grown_old (shaped.lt_of_mem_children (mem_fields mem).1)]
  intro other
  rw [indexOf?, indexOf?, fields, findChild?, node_grown_parent lies, lookup_cons]
  by_cases same : other = name
  · subst same
    rw [free]
    simp [kind_grown_new lies, ScopeKind.isVariable, none]
  rw [beq_false_of_ne same]
  cases got : (t.node id).names.lookup other with
  | none => simp [findChild?, got]
  | some =>
    have old := lt_of_parent (shaped.child got).1
    simp [findChild?, got, kind_grown_old old]

end ScopeTree

namespace Session

/-- The fields of live templates are numbered as their structs are laid out, and code addresses no
others. Functions and aliases that are added change no number. -/
structure Numbered (s : Session) : Prop where
  fields : ∀ id e body, s.tree.kind id = .template e → s.tree.isAlive id →
    s.builder.module.HasBody e.structName body → body.length = (s.tree.variableIds id).length ∧
      ∀ i child, (s.tree.variableIds id)[i]? = some child →
        ∃ var, s.tree.kind child = .var var ∧ body[i]? = some var.type.ir ∧
          s.tree.Numbers id child i var.type
  addressed : ∀ f ∈ s.builder.functions, ∀ b ∈ f.blocks, ∀ dst struct base index,
    .fieldAddr dst struct base index ∈ b.insts → ∀ body, s.builder.module.HasBody struct body →
      index < body.length
  stable : ∀ id name kind span new t, s.tree.isAlive id → kind.isVariable = false →
    s.tree.addChild id name kind span = .ok (new, t) → t.layout id = s.tree.layout id ∧
      ∀ other, t.indexOf? id other = s.tree.indexOf? id other

theorem Valid.numbered {s : Session} (valid : s.Valid) (idle : s.Idle)
    (formed : ∀ id, s.Formed id) : s.Numbered where
  fields id e body kind alive has := by
    obtain rfl := formed id e body kind alive has
    refine ⟨by rw [← map_fst_fields, length_map, length_map], ?_⟩
    intro i _ got
    obtain ⟨var, isVar, here⟩ := fields_of_variableIds got
    refine ⟨var, isVar, ?_, valid.shaped.numbers kind here⟩
    rw [getElem?_map, here]
    rfl
  addressed f mem b lies dst struct base index addressed body has := by
    obtain ⟨_, code⟩ := (valid.finished_of_mem idle mem (ne_nil_of_mem lies)).typed
    obtain ⟨_, ⟨-, _, ⟨id, e, _, kind, rfl, got, -⟩, -⟩, -⟩ := (code b lies).1 _ addressed
    have some := ne_nil_of_mem (mem_of_getElem? got)
    rw [formed id e body kind (valid.fields id (by rw [kind]; rfl) some) has, length_map]
    exact (List.getElem?_eq_some_iff.mp got).1
  stable id name kind span new t alive plain added := by
    rw [addChild_eq] at added
    split at added
    · cases added
    rename_i free
    cases added
    exact valid.shaped.numbers_grown (lt_of_alive alive) (not_isSome_iff_eq_none.mp free)
      (not_isSome_iff_eq_none.mp (Bool.eq_false_iff.mp plain))

/-- In all sessions from the first body to the end, fields are numbered as structs are laid out. -/
theorem Reached.fields_numbered {moduleName : String} {m : Module} {limits : Limits} (plain : Item.AllPlain m.items)
    {s : Session} (reached : Reached moduleName m limits s ∨ s = analyze moduleName m limits) : s.Numbered := by
  obtain ⟨start, standing⟩ := beforeBodies_standing moduleName m limits
  have numbered : ∀ {s'}, (beforeBodies moduleName m limits).Bodied s' → s'.Numbered := fun bodied =>
    bodied.valid.numbered bodied.idle fun id =>
      bodied.formed (standing.plain plain) id nofun fun _ => standing.formed plain id
  rcases reached with reached | rfl
  · exact numbered (Turns.bodied reached standing.valid standing.idle)
  · obtain ⟨s, reached, rests⟩ := analyze_reached moduleName m limits
    have bodied := Turns.bodied reached standing.valid standing.idle
    rcases rests with ⟨-, same⟩ | ⟨-, same⟩ <;> rw [same]
    · exact numbered bodied
    · exact numbered (bodied.trans (.overrun bodied.valid bodied.idle))

def mixedFields : Module :=
  Module.ofText ("spec S { type A } template Pair<T> \x7b left: T " ++
    "func get(self) => int { return self.right } right: int \x7d action S in Pair { type A = bool } " ++
    "func main() => int \x7b let p: Pair<bool> = { right: 1, left: true } return p.get() \x7d")

theorem Reached.fields_numbered_mixedFields : (analyze "m" mixedFields).report.entries = [] ∧
    ((analyze "m" mixedFields).builder.module.struct? "Pair<bool>").bind (·.fields) =
      some [.int 1, .int 32] ∧
    (analyze "m" mixedFields).Numbered := by
  obtain ⟨clean, plain, has⟩ : (analyze "m" mixedFields).report.entries = [] ∧
      Item.AllPlain mixedFields.items ∧
      ((analyze "m" mixedFields).builder.module.struct? "Pair<bool>").bind (·.fields) =
        some [.int 1, .int 32] := by
    decide +kernel
  exact ⟨clean, has, Reached.fields_numbered plain (Or.inr rfl)⟩

end Session

end Stencil
