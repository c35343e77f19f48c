import Stencil.Proofs.Analysis.Duties
import Stencil.Proofs.Ir.Continues
import Stencil.Proofs.Scope.Known
import Stencil.Proofs.Steps

/-!
What is true of the session at every step of an analysis, and what stays from one session to a
later one.
-/

namespace Stencil

open List ScopeTree

def ScopeTree.Plain (t : ScopeTree) : Prop :=
  ∀ id, (t.kind id = .package → PlainName (t.name id)) ∧
    ∀ e, t.kind id = .template e → PlainName e.decl.name

theorem ScopeTree.Extends.plain_before {t t' : ScopeTree} {spared : List ScopeId}
    (h : t.Extends spared t') (plain : t'.Plain) : t.Plain := by
  refine fun id => ⟨fun kind => ?_, fun e kind => ?_⟩
  · have lies := lt_of_kind_ne_block (by rw [kind]; nofun)
    have refined := h.kind id lies
    rw [kind] at refined
    exact h.name id lies ▸ (plain id).1 refined.package_eq
  obtain ⟨e', kind', decl, -⟩ := h.kind_template kind
  exact decl ▸ (plain id).2 e' kind'

namespace Session

/-- What the names in the code of a session stand for. A struct has the fields of the template
that it was made for. -/
def context (s : Session) : Ir.Context where
  function name params result := ∃ f ∈ s.builder.functions,
    f.name = name ∧ f.params = params ∧ f.result = result
  global name type := ∃ g ∈ s.builder.module.globals, g.name = name ∧ g.type = type
  field struct index type := ∃ id e field, s.tree.kind id = .template e ∧ e.structName = struct ∧
    (s.tree.fields id)[index]? = some field ∧ field.2.type.ir = type
  constant := Ir.Fitting

/-- The parameters in front of those that a function declares: the address of an instance. -/
def Receives (s : Session) (id : ScopeId) (mem : Bool) (params : List Ir.Ty) : Prop :=
  if mem then ∃ p e, s.tree.parent? id = some p ∧ s.tree.kind p = .template e ∧
    params = [.pointer (.struct e.structName)]
  else params = []

def Accounts (s : Session) (id : ScopeId) : ScopeKind → Prop
  | .var e => (e.type.Known s.tree ∧ e.type.isStorable) ∧ ∀ global value, e.storage = .known global value →
      value.isConstant ∧ value.Has s.context [] (fun _ => none) e.type.ir ∧
        s.context.global global e.type.ir ∧
        ∀ p, s.tree.parent? id = some p → global = s.tree.qualify p (s.tree.name id)
  | .function e => (∀ type ∈ e.signature.params, type.Known s.tree) ∧
      e.signature.result.Known s.tree ∧ e.signature.member = e.decl.hasSelf ∧
      (∀ p, s.tree.parent? id = some p →
        s.tree.name id = e.decl.name ∧ e.codeName = s.tree.qualify p e.decl.name) ∧
      ∀ c, e.code = some c → ∃ f receiver, s.builder.functions[c]? = some f ∧
        f.name = e.codeName ∧ f.params = receiver ++ e.signature.params.map Ty.ir ∧
        f.result = e.signature.result.ir ∧ s.Receives id e.signature.member receiver
  | .template e => ∀ p, s.tree.parent? id = some p →
      e.structName = s.tree.qualify p (s.tree.name id) ∧ Titled e.decl.name (s.tree.name id)
  | .typeAlias e => ∀ type, e.target = some type → type.Known s.tree
  | .module | .package | .block | .spec _ => True

/-- A session as the analysis keeps it. The function whose body is being built is left out. -/
structure Valid (s : Session) : Prop where
  shaped : s.tree.Shaped
  current : s.tree.isAlive s.tree.current
  accounts : ∀ id, s.Accounts id (s.tree.kind id)
  codes : ∀ id id' e e' c, s.tree.kind id = .function e → s.tree.kind id' = .function e' →
    e.code = some c → e'.code = some c → id = id'
  instances : ∀ entry ∈ s.instances, entry.2.Known s.tree
  fields : ∀ id, (s.tree.kind id).template?.isSome → s.tree.fields id ≠ [] →
    s.tree.isAlive id
  queue : s.bodies.Nodup
  queued : ∀ id ∈ s.bodies, (∃ e, s.tree.kind id = .function e ∧ e.code.isSome ∧
    e.decl.body.isSome) ∧ ∀ child, s.tree.parent? child ≠ some id
  finished : ∀ i f, s.builder.functions[i]? = some f →
    s.builder.function ≠ some i → f.blocks = [] ∨ f.Finished s.context
  late : s.builder.late = 0
  regular : ∀ d ∈ s.report.entries, d.Regular

def Laid (s : Session) (id : ScopeId) : Prop :=
  ∀ e, s.tree.kind id = .template e → s.tree.isAlive id → s.tree.fields id ≠ [] →
    s.builder.module.struct? e.structName =
      some ⟨e.structName, some ((s.tree.fields id).map (·.2.type.ir))⟩

def Formed (s : Session) (id : ScopeId) : Prop :=
  ∀ e body, s.tree.kind id = .template e → s.tree.isAlive id →
    s.builder.module.HasBody e.structName body → body = (s.tree.fields id).map (·.2.type.ir)

def Unformed (s : Session) (id : ScopeId) : Prop :=
  s.tree.Plain → ∀ e, s.tree.kind id = .template e → e.instanceOf = none →
    ¬s.builder.module.Defines e.structName

/-- An instance of a template is the one that is remembered for its arguments. Constraints on them
would have been checked after the memory was asked. -/
def Registered (s : Session) (id : ScopeId) : Prop :=
  ∀ e generic, s.tree.kind id = .template e → s.tree.isAlive id →
    e.instanceOf = some generic → ∃ args e0, s.tree.HasArguments id e.decl.generics args ∧
      s.tree.kind generic = .template e0 ∧ (e0.decl.isUnconstrained →
        s.instances.lookup (generic, args) = some (.struct e.structName id))

def Remembers (s s' : Session) : Prop :=
  ∀ generic e args type, s.tree.kind generic = .template e → e.decl.isUnconstrained →
    s.instances.lookup (generic, args) = some type →
    s'.instances.lookup (generic, args) = some type

/-- A session with the scopes and the code of another one. -/
structure Includes (spared : List ScopeId) (s s' : Session) : Prop where
  tree : s.tree.Extends spared s'.tree
  heads : ∀ (i : Nat) (f : Ir.Function), s.builder.functions[i]? = some f →
    ∃ f', s'.builder.functions[i]? = some f' ∧ f'.name = f.name ∧ f'.params = f.params ∧
      f'.result = f.result
  globals : s.builder.module.globals <+: s'.builder.module.globals

/-- A session in which everything of another one is still there. -/
structure Extends (spared : List ScopeId) (s s' : Session) : Prop
    extends s.Includes spared s' where
  report : s.report.entries <+: s'.report.entries
  decls : s'.decls = s.decls
  structs : ∀ name, s.builder.module.Defines name → s'.builder.module.Defines name
  orderly : s.builder.Orderly → s'.builder.Orderly
  actions : ∀ (index : Nat) (p : PendingAction), s.actions[index]? = some p →
    ∃ p', s'.actions[index]? = some p' ∧ p'.decl = p.decl ∧ p'.scope = p.scope ∧
      (p.applied → p'.applied)
  plain : s.tree.Plain → s'.tree.Plain
  laid : s.tree.Plain → s'.report.entries = [] → ∀ id, id ∉ spared →
    (id < s.tree.size → s.Laid id) → s'.Laid id
  formed : s.tree.Plain → ∀ id, (id ∈ spared → s.tree.Original id) →
    (id < s.tree.size → s.Formed id) → s'.Formed id
  undefined : s.tree.Plain → ∀ id e, id ∉ spared → s.tree.kind id = .template e →
    s.tree.isAlive id → s'.builder.module.Defines e.structName →
    s.builder.module.Defines e.structName
  memory : s.Remembers s'
  registered : ∀ id, id ∉ spared → (id < s.tree.size → s.Registered id) → s'.Registered id
  duties : s'.report.entries = [] → ∀ duty : Duty, duty.Apart spared → s.Meets duty → s'.Meets duty

structure Widens (spared : List ScopeId) (s s' : Session) : Prop extends s.Extends spared s' where
  current : s'.tree.current = s.tree.current
  names : ∀ a, a < s.tree.size → (s.tree.kind a).isBody →
    (s'.tree.node a).names = (s.tree.node a).names
  outer : ∀ id p, s.tree.size ≤ id → s'.tree.parent? id = some p →
    (s'.tree.kind p).isBody = false
  functions : ∃ new, s'.builder.functions = s.builder.functions ++ new ∧
    ∀ f ∈ new, f.blocks = []
  frame : s'.builder.function = s.builder.function ∧ s'.builder.block = s.builder.block ∧
    s'.builder.nextTemp = s.builder.nextTemp
  bodies : ∃ new, s'.bodies = s.bodies ++ new ∧ ∀ id ∈ new, s.tree.size ≤ id

structure Grows (spared : List ScopeId) (s s' : Session) : Prop extends s.Widens spared s' where
  lowered : ∀ id e, s.tree.size ≤ id → s'.tree.kind id = .function e →
    e.code.isSome → e.decl.body.isSome → id ∈ s'.bodies

section

variable {s s' : Session} {spared : List ScopeId}

theorem Includes.context (h : s.Includes spared s') : s.context.Within s'.context where
  function := by
    rintro name params result ⟨f, mem, rfl, rfl, rfl⟩
    obtain ⟨i, got⟩ := mem_iff_getElem?.mp mem
    obtain ⟨f', found', name, params, result⟩ := h.heads i f got
    exact ⟨f', mem_of_getElem? found', name, params, result⟩
  global := by
    rintro _ _ ⟨g, mem, same⟩
    exact ⟨g, h.globals.subset mem, same⟩
  field := by
    rintro _ _ _ ⟨id, e, field, kind, name, got, same⟩
    have lies := lt_of_template kind
    obtain ⟨e', kind', -, struct, -⟩ := h.tree.kind_template kind
    obtain ⟨⟨_, fields⟩, -⟩ := h.tree.fields id lies (by rw [kind]; rfl)
    refine ⟨id, e', field, kind', struct.trans name, ?_, same⟩
    rw [← fields, getElem?_append_left (List.getElem?_eq_some_iff.mp got).1, got]
  constant := fun _ _ allowed => allowed

theorem constant_has {params params' : List Ir.Ty} {types types' : Ir.Types} {v : Ir.Value}
    {type : Ir.Ty} (constant : v.isConstant) (has : v.Has s.context params types type) :
    v.Has s'.context params' types' type := by
  cases v <;> first | exact has | cases constant

variable {id : ScopeId}

theorem Receives.mono {mem : Bool} {params : List Ir.Ty}
    (receives : s.Receives id mem params) (h : s.Includes spared s')
    (lies : id < s.tree.size) : s'.Receives id mem params := by
  unfold Receives at receives ⊢
  split
  · rename_i isMember
    rw [if_pos isMember] at receives
    obtain ⟨p, e, up, kind, same⟩ := receives
    obtain ⟨e', kind', -, struct, -⟩ := h.tree.kind_template kind
    exact ⟨p, e', by rw [h.tree.parent id lies, up], kind', by rw [struct, same]⟩
  rename_i notMember
  rwa [if_neg notMember] at receives

theorem Accounts.mono {k : ScopeKind} (accounts : s.Accounts id k)
    (h : s.Includes spared s') (shaped : s.tree.Shaped) (lies : id < s.tree.size) :
    s'.Accounts id k := by
  have outer : ∀ p, s'.tree.parent? id = some p → s.tree.parent? id = some p ∧
      s'.tree.qualify p = s.tree.qualify p := by
    intro p up
    rw [h.tree.parent id lies] at up
    exact ⟨up, funext (h.tree.qualify (shaped.parent_lt up))⟩
  have same := h.tree.name id lies
  cases k with
  | var =>
    obtain ⟨⟨known, storable⟩, constant⟩ := accounts
    refine ⟨⟨known.mono h.tree, storable⟩, fun global value storage => ?_⟩
    obtain ⟨isConstant, has, present, named⟩ := constant global value storage
    refine ⟨isConstant, constant_has isConstant has, h.context.global _ _ present, ?_⟩
    intro p up
    obtain ⟨up, qualify⟩ := outer p up
    rw [same, qualify]
    exact named p up
  | function =>
    obtain ⟨params, result, mem, named, code⟩ := accounts
    refine ⟨fun type present => (params type present).mono h.tree, result.mono h.tree, mem, ?_, ?_⟩
    · intro p up
      obtain ⟨up, qualify⟩ := outer p up
      rw [same, qualify]
      exact named p up
    intro c given
    obtain ⟨f, receiver, got, name, params, result, receives⟩ := code c given
    obtain ⟨f', found', name', params', result'⟩ := h.heads c f got
    exact ⟨f', receiver, found', name'.trans name, params'.trans params, result'.trans result,
      receives.mono h lies⟩
  | template =>
    intro p up
    obtain ⟨up, qualify⟩ := outer p up
    rw [same, qualify]
    exact accounts p up
  | typeAlias => exact fun type target => (accounts type target).mono h.tree
  | module | package | block | spec d => trivial

theorem Unformed.mono (unformed : s.Unformed id)
    (tree : s.tree.Extends spared s'.tree) (lies : id < s.tree.size)
    (undefined : s.tree.Plain → ∀ e, s.tree.kind id = .template e →
      s'.builder.module.Defines e.structName → s.builder.module.Defines e.structName) :
    s'.Unformed id := by
  intro plain e kind original defined
  obtain ⟨e0, kind0, -, struct, instanceOf⟩ := tree.of_kind_template lies kind
  have plain0 := tree.plain_before plain
  exact unformed plain0 e0 kind0 (instanceOf ▸ original)
    (undefined plain0 e0 kind0 (struct ▸ defined))

theorem Remembers.of_eq (instances : s'.instances = s.instances) : s.Remembers s' := by
  intro _ e _ _ _ _ got
  rw [instances]
  exact got

theorem Registered.mono (registered : s.Registered id)
    (memory : s.Remembers s') (tree : s.tree.Extends spared s'.tree)
    (lies : id < s.tree.size) : s'.Registered id := by
  intro e generic kind alive ofGeneric
  obtain ⟨e', kind', decl, struct, instanceOf⟩ := tree.of_kind_template lies kind
  obtain ⟨args, e0, has, present, remembered⟩ := registered e' generic kind'
    ((tree.alive id lies).symm.trans alive) (instanceOf ▸ ofGeneric)
  obtain ⟨e₀', present', decl0, -⟩ := tree.kind_template present
  refine ⟨args, e₀', decl ▸ has.mono tree, present', fun unconstrained => ?_⟩
  rw [decl0] at unconstrained
  rw [struct]
  exact memory generic e0 args _ present unconstrained (remembered unconstrained)

theorem Valid.accounts_later (valid : s.Valid) (h : s.Includes spared s') (id : ScopeId) :
    s'.Accounts id (s.tree.kind id) := by
  by_cases lies : id < s.tree.size
  · exact (valid.accounts id).mono h valid.shaped lies
  rw [kind, node_outside (Nat.le_of_not_lt lies)]
  trivial

/-- Live templates have structs of their own. -/
theorem Valid.structName_injective (valid : s.Valid) (plain : s.tree.Plain) {id id' : ScopeId}
    {e e' : TemplateEntry} (kind : s.tree.kind id = .template e)
    (kind' : s.tree.kind id' = .template e') (alive : s.tree.isAlive id)
    (alive' : s.tree.isAlive id') (same : e.structName = e'.structName) : id = id' := by
  have place : ∀ {id e}, s.tree.kind id = .template e → ∃ p, s.tree.parent? id = some p ∧
      (s.tree.kind p).isNamespace ∧ e.structName = s.tree.qualify p (s.tree.name id) ∧
      Titled e.decl.name (s.tree.name id) := by
    intro id e kind
    have inner : id ≠ root := by
      rintro rfl
      rw [valid.shaped.root] at kind
      cases kind
    obtain ⟨p, up⟩ := valid.shaped.parent_of_ne_root (lt_of_template kind) inner
    have admits := valid.shaped.admitted id p up
    have accounts := valid.accounts id
    rw [kind] at admits accounts
    exact ⟨p, up, admits, accounts p up⟩
  obtain ⟨p, up, outer, name, titled⟩ := place kind
  obtain ⟨_, around', outer', name', titled'⟩ := place kind'
  exact valid.shaped.qualify_injective (fun i => (plain i).1) up around' alive alive' outer outer'
    ((plain id).2 e kind) ((plain id').2 e' kind') titled titled' (name ▸ name' ▸ same)

end

variable {s s' s'' : Session} {spared : List ScopeId}

theorem Extends.refl (spared : List ScopeId) (s : Session) : s.Extends spared s where
  tree := .refl spared s.tree
  heads _ f got := ⟨f, got, rfl, rfl, rfl⟩
  globals := prefix_rfl
  report := prefix_rfl
  decls := rfl
  structs _ defined := defined
  orderly h := h
  actions _ p has := ⟨p, has, rfl, rfl, id⟩
  plain h := h
  laid _ _ _ _ laid e kind := laid (lt_of_template kind) e kind
  formed _ _ _ before e body kind := before (lt_of_template kind) e body kind
  undefined _ _ _ _ _ _ defined := defined
  memory := .of_eq rfl
  registered _ _ registered e generic kind :=
    registered (lt_of_template kind) e generic kind
  duties _ _ _ meets := meets

theorem Extends.clean (h : s.Extends spared s') (clean : s'.report.entries = []) :
    s.report.entries = [] :=
  prefix_nil.mp (clean ▸ h.report)

theorem Extends.trans (fst : s.Extends spared s') (snd : s'.Extends spared s'') :
    s.Extends spared s'' where
  tree := fst.tree.trans snd.tree
  heads i f got := by
    obtain ⟨f', found', name, params, result⟩ := fst.heads i f got
    obtain ⟨f'', found'', name', params', result'⟩ := snd.heads i f' found'
    exact ⟨f'', found'', name'.trans name, params'.trans params, result'.trans result⟩
  globals := fst.globals.trans snd.globals
  report := fst.report.trans snd.report
  decls := snd.decls.trans fst.decls
  structs name defined := snd.structs name (fst.structs name defined)
  orderly h := snd.orderly (fst.orderly h)
  actions index p has := by
    obtain ⟨p', present', decl, scope, applied⟩ := fst.actions index p has
    obtain ⟨p'', present'', decl', scope', applied'⟩ := snd.actions index p' present'
    exact ⟨p'', present'', decl'.trans decl, scope'.trans scope, fun h => applied' (applied h)⟩
  plain h := snd.plain (fst.plain h)
  laid plain clean id unspared laid := by
    have before := snd.clean clean
    exact snd.laid (fst.plain plain) clean id unspared fun _ =>
      fst.laid plain before id unspared laid
  formed plain id excuse before := snd.formed (fst.plain plain) id
    (fun mem => (excuse mem).mono fst.tree) fun _ => fst.formed plain id excuse before
  undefined plain id e unspared kind alive defined := by
    obtain ⟨e', kind', -, struct, -⟩ := fst.tree.kind_template kind
    refine fst.undefined plain id e unspared kind alive (struct ▸ ?_)
    exact snd.undefined (fst.plain plain) id e' unspared kind'
      ((fst.tree.alive id (lt_of_template kind)).trans alive) (struct ▸ defined)
  memory generic e args type kind unconstrained got := by
    obtain ⟨e', kind', decl, -⟩ := fst.tree.kind_template kind
    exact snd.memory generic e' args type kind' (decl ▸ unconstrained)
      (fst.memory generic e args type kind unconstrained got)
  registered id unspared registered :=
    snd.registered id unspared fun _ => fst.registered id unspared registered
  duties clean duty apart meets := by
    have before := snd.clean clean
    exact snd.duties clean duty apart (fst.duties before duty apart meets)

theorem Widens.refl (spared : List ScopeId) (s : Session) : s.Widens spared s where
  toExtends := .refl spared s
  current := rfl
  names _ _ _ := rfl
  outer id p young up := absurd (lt_of_parent up) (Nat.not_lt.mpr young)
  functions := ⟨[], by simp, by simp⟩
  frame := ⟨rfl, rfl, rfl⟩
  bodies := ⟨[], by simp, by simp⟩

theorem Grows.refl (spared : List ScopeId) (s : Session) : s.Grows spared s where
  toWidens := .refl spared s
  lowered id e young kind := by
    exact absurd (lt_of_function kind) (Nat.not_lt.mpr young)

theorem appended_trans {α : Type} {a b c : List α} {P Q : α → Prop}
    (fst : ∃ new, b = a ++ new ∧ ∀ x ∈ new, P x) (snd : ∃ new, c = b ++ new ∧ ∀ x ∈ new, Q x)
    (weaker : ∀ x, Q x → P x) : ∃ new, c = a ++ new ∧ ∀ x ∈ new, P x := by
  obtain ⟨new, rfl, holds⟩ := fst
  obtain ⟨new', rfl, holds'⟩ := snd
  refine ⟨new ++ new', append_assoc .., forall_mem_append.mpr ⟨holds, ?_⟩⟩
  exact fun x mem => weaker x (holds' x mem)

theorem function_of_refined {t t' : ScopeTree} {id : ScopeId} {e : FunctionEntry}
    (refined : (t.kind id).Refined (t'.kind id)) (kind : t'.kind id = .function e) :
    t.kind id = .function e := by
  rw [kind] at refined
  cases h : t.kind id <;> rw [h] at refined <;> cases refined
  rfl

theorem Widens.trans (fst : s.Widens spared s') (snd : s'.Widens spared s'') :
    s.Widens spared s'' where
  toExtends := fst.toExtends.trans snd.toExtends
  current := snd.current.trans fst.current
  names a lies body := by
    have later := Nat.lt_of_lt_of_le lies fst.tree.length
    rw [snd.names a later ((fst.tree.kind a lies).isBody.trans body), fst.names a lies body]
  outer id p young up := by
    rcases Nat.lt_or_ge id s'.tree.size with old | new
    · rw [snd.tree.parent id old] at up
      have isBody := fst.outer id p young up
      by_cases outside : p < s'.tree.size
      · rw [(snd.tree.kind p outside).isBody, isBody]
      rw [kind, node_outside (Nat.le_of_not_lt outside)] at isBody
      cases isBody
    · exact snd.outer id p new up
  functions := appended_trans fst.functions snd.functions fun _ bare => bare
  frame := ⟨snd.frame.1.trans fst.frame.1, snd.frame.2.1.trans fst.frame.2.1,
    snd.frame.2.2.trans fst.frame.2.2⟩
  bodies := appended_trans fst.bodies snd.bodies fun _ => Nat.le_trans fst.tree.length

theorem Grows.trans (fst : s.Grows spared s') (snd : s'.Grows spared s'') : s.Grows spared s'' where
  toWidens := fst.toWidens.trans snd.toWidens
  lowered id e young kind code body := by
    rcases Nat.lt_or_ge id s'.tree.size with old | new
    · have before := function_of_refined (snd.tree.kind id old) kind
      obtain ⟨_, same, -⟩ := snd.bodies
      rw [same]
      exact mem_append_left _ (fst.lowered id e young before code body)
    · exact snd.lowered id e new kind code body

theorem Extends.spare {spared' : List ScopeId} (h : s.Extends spared s')
    (more : ∀ id ∈ spared, id ∈ spared') : s.Extends spared' s' where
  __ := h
  tree := h.tree.mono more
  laid plain clean id unspared := h.laid plain clean id fun mem => unspared (more id mem)
  formed plain id excuse := h.formed plain id fun mem => excuse (more id mem)
  undefined plain id e unspared := h.undefined plain id e fun mem => unspared (more id mem)
  registered id unspared := h.registered id fun mem => unspared (more id mem)
  duties clean duty apart := h.duties clean duty (apart.fewer more)

theorem Grows.spare {spared' : List ScopeId} (h : s.Grows spared s')
    (more : ∀ id ∈ spared, id ∈ spared') : s.Grows spared' s' :=
  { h with toExtends := h.toExtends.spare more }

end Session

end Stencil
