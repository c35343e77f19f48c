import Stencil.Proofs.Program.Code

namespace Stencil

open Analysis ScopeTree

def Ir.Module.Builds (m : Ir.Module) (path : List String) : Prop :=
  ∃ f ∈ m.functions, f.name = ".".intercalate path ∧ f.blocks ≠ []

namespace Session

variable {s : Session} {m : Module} {plainly : Prop} {id : ScopeId}

theorem Lowered.blocks {e : FunctionEntry} {code : Nat} (lowered : s.Lowered id)
    (kind : s.tree.kind id = .function e) (coded : e.code = some code) :
    ∃ f, s.builder.functions[code]? = some f ∧ f.blocks ≠ [] := by
  obtain ⟨_, _, _, _, _, f, _, ready, run, extended, same⟩ := lowered
  have later := extended.tree.kind id (lt_of_alive ready.alive)
  rw [ready.kind] at later
  obtain rfl := ScopeKind.function.inj (later.function_eq.symm.trans kind)
  cases ready.coded.symm.trans coded
  have built := ready.lowerFunction_leads (fun _ _ _ => True) fun u w frame y starts sound =>
    (starts.lowerBlock_keeps (Resolver.sound_within _) sound).mono fun _ _ _ _ => trivial
  unfold Leads at built
  rw [run] at built
  obtain ⟨-, u, w, _, y, z, last, built⟩ := built
  refine ⟨last.draft, same.trans built.function, fun none => ?_⟩
  have lies := last.pending.inside
  rw [Ir.Function.size, none] at lies
  exact Nat.not_lt_zero _ lies

section

variable (analyzed : s.Analyzed plainly) (fulfils : s.Fulfils m) (clean : s.report.entries = [])

include analyzed fulfils clean in
theorem Fulfils.builds {parent : ScopeId} {decl : FuncDecl} (declares : s.tree.Declares parent decl)
    (body : decl.body.isSome) :
    s.builder.module.Builds (s.tree.path parent ++ [decl.name]) := by
  obtain ⟨id, e, up, alive, kind, rfl, coded⟩ := declares
  have lowered : s.Lowered id := by
    refine (analyzed.settled clean id e kind coded body alive).resolve_left ?_
    rw [fulfils.drained]
    exact List.not_mem_nil
  obtain ⟨code, coded⟩ := Option.isSome_iff_exists.mp coded
  obtain ⟨f, has, blocks⟩ := lowered.blocks kind coded
  have accounts := analyzed.valid.accounts id
  rw [kind] at accounts
  obtain ⟨-, -, -, named, declared⟩ := accounts
  obtain ⟨g, -, present', name, -⟩ := declared code coded
  cases has.symm.trans present'
  refine ⟨f, List.mem_of_getElem? has, ?_, blocks⟩
  rw [name, (named parent up).2, qualify_eq]

include analyzed in
theorem Analyzed.structName {e : TemplateEntry}
    (kind : s.tree.kind id = .template e) : e.structName = ".".intercalate (s.tree.path id) := by
  have lies := lt_of_template kind
  have inner : id ≠ root := by
    rintro rfl
    rw [analyzed.valid.shaped.root] at kind
    cases kind
  obtain ⟨p, up⟩ := analyzed.valid.shaped.parent_of_ne_root lies inner
  have accounts := analyzed.valid.accounts id
  rw [kind] at accounts
  rw [(accounts p up).1, qualify_eq, analyzed.valid.shaped.path_child up]

include analyzed fulfils clean in
theorem Furnished.builds {e : TemplateEntry} (furnished : s.Furnished id)
    (kind : s.tree.kind id = .template e) (alive : s.tree.isAlive id)
    (concrete : e.isGeneric = false) :
    s.builder.module.Defines (".".intercalate (s.tree.path id)) ∧
      ∀ decl ∈ e.decl.methods, decl.body.isSome →
        s.builder.module.Builds (s.tree.path id ++ [decl.name]) := by
  obtain ⟨defined, declares⟩ := furnished e kind alive concrete
  exact ⟨analyzed.structName kind ▸ defined,
    fun decl mem => fulfils.builds analyzed clean (declares decl mem)⟩

end

/-- Everything that a module declares is in the code. -/
structure Complete (s : Session) (m : Module) : Prop where
  functions : ∀ path decl, m.Has path (.func decl) → decl.body.isSome →
    s.builder.module.Builds (path ++ [decl.name])
  templates : ∀ path decl, m.Has path (.template decl) → decl.generics = [] →
    s.builder.module.Defines (".".intercalate (path ++ [decl.name])) ∧
      ∀ method ∈ decl.methods, method.body.isSome →
        s.builder.module.Builds (path ++ [decl.name, method.name])
  actions : ∀ path decl, m.Has path (.action decl) → ∃ scope target e,
    s.tree.path scope = path ∧ s.Targets decl scope target ∧ s.tree.kind target = .template e ∧
      (e.isGeneric = false → e.instanceOf = none ∨ s.tree.isAlive target →
        ∀ method ∈ decl.methods, method.body.isSome →
          s.builder.module.Builds (s.tree.path target ++ [method.name]))
  instances : ∀ id e, s.tree.kind id = .template e → e.instanceOf ≠ none →
    s.tree.isAlive id → s.builder.module.Defines (".".intercalate (s.tree.path id)) ∧
      ∀ method ∈ e.decl.methods, method.body.isSome →
        s.builder.module.Builds (s.tree.path id ++ [method.name])
  scopes : ∀ id e parent, s.tree.kind id = .function e → s.tree.isAlive id →
    s.tree.parent? id = some parent → e.code.isSome → e.decl.body.isSome →
      s.builder.module.Builds (s.tree.path parent ++ [e.decl.name])

end Session

/-- An analysis that reports nothing has left nothing out. -/
theorem analyze_complete (moduleName : String) (m : Module) (limits : Limits)
    (clean : (analyze moduleName m limits).report.entries = []) :
    (analyze moduleName m limits).Complete m := by
  have analyzed := analyze_analyzed moduleName m limits
  have fulfils := analyze_fulfils moduleName m limits clean
  constructor
  case functions =>
    intro path decl has body
    obtain ⟨parent, rfl, declares⟩ := fulfils.honours path (.func decl) has
    exact fulfils.builds analyzed clean declares body
  case templates =>
    intro path decl has concrete
    obtain ⟨parent, node, e, rfl, rfl, houses, furnished⟩ :=
      fulfils.honours path (.template decl) has concrete
    have place := analyzed.valid.shaped.path_child houses.around
    rw [houses.name] at place
    have built := furnished.builds analyzed fulfils clean houses.kind houses.alive
      (by simp [TemplateEntry.isGeneric, concrete])
    rw [place] at built
    refine ⟨built.1, fun method mem body => ?_⟩
    have named := built.2 method mem body
    rwa [List.append_assoc, List.singleton_append] at named
  case actions =>
    intro path decl has
    obtain ⟨scope, rfl, -, target, e, kind, targets, declares⟩ :=
      fulfils.honours path (.action decl) has
    refine ⟨scope, target, e, rfl, targets, kind, fun concrete present method mem body => ?_⟩
    have alive := present.elim (fulfils.stays target e kind) id
    exact fulfils.builds analyzed clean (declares alive concrete method mem) body
  case instances =>
    intro id e kind isInstance alive
    have concrete : e.isGeneric = false := by
      cases instanceOf : e.instanceOf with
      | none => exact absurd instanceOf isInstance
      | some generic => simp [TemplateEntry.isGeneric, instanceOf]
    exact (fulfils.instances id e kind isInstance).builds analyzed fulfils clean kind alive concrete
  case scopes =>
    intro id e parent kind alive up code body
    exact fulfils.builds analyzed clean ⟨id, e, up, alive, kind, rfl, code⟩ body

def sizedBox : Module :=
  Module.ofText ("template Box<T> { x: T func size(self) => int { return 1 } } " ++
    "func f(b: &Box<int>) => int { return b.size() }")

theorem analyze_complete_sizedBox : (analyze "m" sizedBox).builder.module.Defines "Box<int>" ∧
    (analyze "m" sizedBox).builder.module.Builds ["Box<int>", "size"] := by
  obtain ⟨clean, alive, path, method⟩ : (analyze "m" sizedBox).report.entries = [] ∧
      (analyze "m" sizedBox).tree.isAlive 2 ∧ (analyze "m" sizedBox).tree.path 2 = ["Box<int>"] ∧
      (((analyze "m" sizedBox).tree.kind 2).template?.any fun e => e.instanceOf.isSome &&
        e.decl.methods.any fun decl => decl.name = "size" && decl.body.isSome) := by
    decide +kernel
  cases kind : (analyze "m" sizedBox).tree.kind 2 with
  | template e =>
    rw [kind] at method
    obtain ⟨isInstance, present⟩ := Bool.and_eq_true_iff.mp method
    obtain ⟨decl, mem, has⟩ := List.any_eq_true.mp present
    obtain ⟨name, body⟩ := Bool.and_eq_true_iff.mp has
    obtain ⟨defined, builds⟩ := (analyze_complete "m" sizedBox {} clean).instances 2 e kind
      (Option.isSome_iff_ne_none.mp isInstance) alive
    have built := builds decl mem body
    rw [path] at defined built
    rw [of_decide_eq_true name] at built
    exact ⟨defined, built⟩
  | _ =>
    rw [kind] at method
    cases method

end Stencil
