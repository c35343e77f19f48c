import Stencil.Proofs.Analysis.Stage

namespace Stencil

open List ScopeTree

theorem ScopeTree.qualify_remove (t : ScopeTree) (id i : ScopeId) (name : String) :
    (t.remove id).qualify i name = t.qualify i name :=
  qualify_congr (path_congr (fun a _ => parent_remove t id a) fun a _ => name_remove t id a) name

namespace Session

variable {s s' : Session} {node generic : ScopeId} {args : List Ty} {type : Ty}

theorem lookup_forget_other {key : ScopeId × List Ty} (other : key ≠ (generic, args)) :
    (s.forget generic args).instances.lookup key = s.instances.lookup key := by
  rw [forget]
  induction s.instances with
  | nil => rfl
  | cons entry entries ih =>
  obtain ⟨known, _⟩ := entry
  by_cases here : known = (generic, args)
  · have skipped := beq_eq_false_iff_ne.mpr (here ▸ other)
    rw [filter_cons_of_neg (by simp [here]), lookup_cons, skipped]
    exact ih
  · rw [filter_cons_of_pos (by simp [here]), lookup_cons, lookup_cons, ih]

theorem lookup_remember_same :
    (s.remember generic args type).instances.lookup (generic, args) = some type := by
  rw [remember, lookup_cons_self]

theorem lookup_remember_other {key : ScopeId × List Ty} (other : key ≠ (generic, args)) :
    (s.remember generic args type).instances.lookup key = s.instances.lookup key := by
  rw [remember, lookup_cons, beq_eq_false_iff_ne.mpr other]
  exact lookup_forget_other other

def Lacks (s : Session) (generic : ScopeId) (args : List Ty) : Prop :=
  ∀ e, s.tree.kind generic = .template e → e.decl.isUnconstrained →
    s.instances.lookup (generic, args) = none

def Sole (s : Session) (generic : ScopeId) (args : List Ty) (type : Ty) : Prop :=
  ∀ e, s.tree.kind generic = .template e → e.decl.isUnconstrained →
    ∀ old, s.instances.lookup (generic, args) = some old → old = type

theorem Lacks.sole (lacks : s.Lacks generic args) (type : Ty) : s.Sole generic args type := by
  intro e kind unconstrained _ got
  rw [lacks e kind unconstrained] at got
  cases got

theorem Lacks.mono {spared : List ScopeId} (lacks : s.Lacks generic args)
    (tree : s.tree.Extends spared s'.tree) (instances : s'.instances = s.instances)
    (lies : generic < s.tree.size) : s'.Lacks generic args := by
  intro e kind unconstrained
  obtain ⟨e0, kind0, decl, -⟩ := tree.of_kind_template lies kind
  rw [instances]
  exact lacks e0 kind0 (decl ▸ unconstrained)

theorem Remembers.remember (sole : s.Sole generic args type) :
    s.Remembers (s.remember generic args type) := by
  intro generic' e args' old kind unconstrained got
  by_cases same : (generic', args') = (generic, args)
  · obtain ⟨rfl, rfl⟩ := Prod.mk.inj same
    rw [lookup_remember_same, sole e kind unconstrained old got]
  rw [lookup_remember_other same]
  exact got

theorem Grows.forget (grows : s.Grows [node] s')
    (lacks : s.Lacks generic args) {name : String} (sole : s'.Sole generic args (.struct name node)) :
    s.Grows [node] (s'.forget generic args) := by
  refine { grows with
    memory := ?_, registered := ?_, laid := grows.laid, formed := grows.formed
    undefined := grows.undefined }
  · intro generic' e args' old kind unconstrained got
    rw [lookup_forget_other]
    · exact grows.memory generic' e args' old kind unconstrained got
    rintro same
    obtain ⟨rfl, rfl⟩ := Prod.mk.inj same
    rw [lacks e kind unconstrained] at got
    cases got
  intro id unspared registered e generic' kind alive ofGeneric
  obtain ⟨args', e0, has, present, remembered⟩ :=
    grows.registered id unspared registered e generic' kind alive ofGeneric
  refine ⟨args', e0, has, present, fun unconstrained => ?_⟩
  rw [lookup_forget_other]
  · exact remembered unconstrained
  rintro same
  obtain ⟨rfl, rfl⟩ := Prod.mk.inj same
  have own := sole e0 present unconstrained _ (remembered unconstrained)
  exact unspared (mem_singleton.mpr (Ty.struct.inj own).2)

theorem Grows.settle (grows : s.Grows [node] s') (young : s.tree.size ≤ node)
    (laid : s.tree.Plain → s'.Formed node ∧ s'.Laid node) (registered : s'.Registered node)
    (stays : s'.Stays node) (furnished : s'.report.entries = [] → s'.Furnished node) :
    s.Grows [] s' := by
  have apart : ∀ id, id < s.tree.size → id ∉ [node] := by
    intro _ lies mem
    rw [mem_singleton.mp mem] at lies
    exact Nat.lt_irrefl _ (Nat.lt_of_lt_of_le lies young)
  have tree : s.tree.Extends [] s'.tree :=
    { grows.tree with
      fields := fun id lies isTemplate =>
        have fields := grows.tree.fields id lies isTemplate
        ⟨fields.1, fun _ => fields.2 (apart id lies)⟩ }
  refine { grows with
    tree := tree, laid := ?_, formed := ?_, registered := ?_, duties := ?_
    undefined := fun plain id e _ kind =>
      grows.undefined plain id e (apart id (lt_of_template kind)) kind }
  · intro plain clean id _ before
    by_cases same : id = node
    · rw [same]
      exact (laid plain).2
    · exact grows.laid plain clean id (fun mem => same (mem_singleton.mp mem)) before
  · intro plain id _ before
    by_cases same : id = node
    · rw [same]
      exact (laid plain).1
    · exact grows.formed plain id (fun mem => absurd (mem_singleton.mp mem) same) before
  · intro id _ before
    by_cases same : id = node
    · rw [same]
      exact registered
    · exact grows.registered id (fun mem => same (mem_singleton.mp mem)) before
  intro clean duty _ before
  by_cases same : duty = .original node ∨ duty = .template node
  · rcases same with rfl | rfl
    · exact stays
    · exact furnished clean
  refine grows.duties clean duty ?_ before
  rw [not_or] at same
  cases duty with
  | original => exact fun mem => same.1 (congrArg _ (mem_singleton.mp mem))
  | template => exact fun mem => same.2 (congrArg _ (mem_singleton.mp mem))
  | action => trivial

variable (before : s.Valid) (valid : s'.Valid) (grows : s.Grows [node] s')
  (young : s.tree.size ≤ node) (alive : s'.tree.isAlive node)
  (holds : (s'.tree.kind node).alias?.isSome ∨ (s'.tree.kind node).template?.isSome)
  (declared : ∀ e, s'.tree.kind node = .typeAlias e → e.decl ≠ none)
  (isInstance : ∀ e, s'.tree.kind node = .template e → e.instanceOf ≠ none)

theorem Accounts.retracted {id : ScopeId} {k : ScopeKind} (accounts : s'.Accounts id k) :
    (s'.withTree (s'.tree.remove node)).Accounts id k := by
  cases k with
  | var =>
    simp only [Accounts, Ty.Known, withTree, kind_remove, parent_remove, name_remove,
      qualify_remove]
    refine ⟨accounts.1, fun global value storage => ?_⟩
    obtain ⟨constant, has, rest⟩ := accounts.2 global value storage
    exact ⟨constant, constant_has constant has, rest⟩
  | module | package | block | spec => trivial
  | function | template | typeAlias =>
    simpa only [Accounts, Ty.Known, Receives, withTree, kind_remove, parent_remove, name_remove,
      qualify_remove] using accounts

include valid holds in
theorem template_retracted {id : ScopeId} (isTemplate : (s'.tree.kind id).template?.isSome)
    (other : id ≠ node) : (s'.tree.remove node).fields id = s'.tree.fields id ∧
      (s'.tree.remove node).isAlive id = s'.tree.isAlive id := by
  have kept := template_kept valid.shaped holds isTemplate other
  have plain : (s'.tree.kind node).var? = none := by
    cases kind : s'.tree.kind node <;> rw [kind] at holds <;>
      first | rfl | exact holds.elim nofun nofun
  exact ⟨fields_remove kept plain, alive_remove_other kept⟩

include valid holds declared in
theorem Registered.retracted {id : ScopeId} (registered : s'.Registered id) (other : id ≠ node) :
    (s'.withTree (s'.tree.remove node)).Registered id := by
  intro e generic kind alive ofGeneric
  change (s'.tree.remove node).kind id = _ at kind
  rw [kind_remove] at kind
  obtain ⟨args, e0, has, present, remembered⟩ :=
    registered e generic kind (alive_of_alive_remove alive) ofGeneric
  have kept := template_kept valid.shaped holds (by rw [kind]; rfl) other
  exact ⟨args, e0, has.remove valid.shaped kept declared,
    (kind_remove _ _ _).trans present, remembered⟩

include valid holds in
theorem Meets.retracted {duty : Duty} (meets : s'.Meets duty) (apart : duty.Apart [node]) :
    (s'.withTree (s'.tree.remove node)).Meets duty := by
  cases duty with
  | original id | template id =>
    exact .remove valid.shaped holds meets fun same => apart (mem_singleton.mpr same)
  | action => exact fun p has applied => (meets p has applied).remove valid.shaped holds

include before valid grows young alive holds declared isInstance in
/-- A session stays valid when a scope that is not older than some earlier session is taken out
again. -/
theorem Valid.retracted : (s'.withTree (s'.tree.remove node)).Valid ∧
    s.Grows [] (s'.withTree (s'.tree.remove node)) := by
  have mem := holds.imp_left ScopeKind.isMember_of_alias
  have shaped := valid.shaped.remove alive mem
  have kind := kind_remove s'.tree node
  have parent := parent_remove s'.tree node
  have older : s'.tree.current < node := by
    rw [grows.current]
    exact Nat.lt_of_lt_of_le (lt_of_alive before.current) young
  have current := valid.shaped.current_remove mem older valid.current
  -- Without the node, the session is an extension of the one in which the node did not exist.
  have detached : s.Grows [node] (s'.withTree (s'.tree.remove node)) := by
    refine { grows with
      tree := valid.shaped.extends_remove grows.tree young holds
      plain := ?_, laid := ?_, formed := ?_, undefined := grows.undefined, registered := ?_
      duties := fun clean duty apart before =>
        (grows.duties clean duty apart before).retracted valid holds apart
      current := current.trans grows.current
      names := ?_, outer := ?_, lowered := ?_ }
    · intro plain
      exact plain_of_refined (fun id => (kind id).symm ▸ .same _)
        (name_remove s'.tree node) (grows.plain plain)
    · intro plain clean id unspared laid e isTemplate
      change (s'.tree.remove node).kind id = _ at isTemplate
      rw [kind] at isTemplate
      have other : id ≠ node := fun same => unspared (mem_singleton.mpr same)
      obtain ⟨fields, living⟩ := template_retracted valid holds (by rw [isTemplate]; rfl) other
      have laid' := grows.laid plain clean id unspared laid e isTemplate
      rw [← fields, ← living] at laid'
      exact laid'
    · intro plain id excuse formed e body isTemplate
      change (s'.tree.remove node).kind id = _ at isTemplate
      rw [kind] at isTemplate
      have other : id ≠ node := by
        rintro rfl
        exact Nat.not_lt.mpr young (excuse (mem_singleton_self id)).lt
      obtain ⟨fields, living⟩ := template_retracted valid holds (by rw [isTemplate]; rfl) other
      have formed' := grows.formed plain id excuse formed e body isTemplate
      rw [← fields, ← living] at formed'
      exact formed'
    · intro id unspared registered
      exact (grows.registered id unspared registered).retracted valid holds declared
        fun same => unspared (mem_singleton.mpr same)
    · intro a lies body
      have isBody : (s'.tree.kind a).isBody :=
        (grows.tree.kind a lies).isBody.trans body
      exact (valid.shaped.names_remove holds (Nat.lt_of_lt_of_le lies young) isBody).trans
        (grows.names a lies body)
    · intro id p new up
      change ((s'.tree.remove node).kind p).isBody = false
      rw [kind]
      exact grows.outer id p new ((parent id).symm.trans up)
    intro id e new isFunction
    exact grows.lowered id e new ((kind id).symm.trans isFunction)
  have gone : (s'.withTree (s'.tree.remove node)).tree.isAlive node ≠ true := by
    rw [show (s'.withTree (s'.tree.remove node)).tree.isAlive node = false from
      alive_remove_self s'.tree node]
    exact Bool.false_ne_true
  have settled := detached.settle young
    (fun _ => ⟨fun e _ _ living => absurd living gone, fun e _ living => absurd living gone⟩)
    (fun e _ _ living => absurd living gone)
    (fun e is original => absurd original (isInstance e ((kind node).symm.trans is)))
    fun _ e _ living => absurd living gone
  refine ⟨?_, settled⟩
  constructor
  case shaped => exact shaped
  case current =>
    change (s'.tree.remove node).isAlive (s'.tree.remove node).current
    have old := lt_of_alive before.current
    rw [current, grows.current]
    exact (settled.tree.alive _ old).trans before.current
  case accounts =>
    intro id
    change (s'.withTree (s'.tree.remove node)).Accounts id ((s'.tree.remove node).kind id)
    rw [kind]
    exact (valid.accounts id).retracted
  case codes =>
    intro id id' e e' c isFunction isFunction'
    exact valid.codes id id' e e' c ((kind id).symm.trans isFunction)
      ((kind id').symm.trans isFunction')
  case instances => simpa only [Ty.Known, Session.withTree, kind_remove] using valid.instances
  case fields =>
    intro id isTemplate some
    change ((s'.tree.remove node).kind id).template?.isSome = true at isTemplate
    rw [kind] at isTemplate
    by_cases same : id = node
    · rw [same] at some
      exact absurd (fields_remove_self s'.tree node) some
    obtain ⟨fields, living⟩ := template_retracted valid holds isTemplate same
    exact living.trans (valid.fields id isTemplate (fields ▸ some))
  case queue => exact valid.queue
  case queued =>
    intro id waiting
    obtain ⟨⟨e, isFunction, given⟩, childless⟩ := valid.queued id waiting
    exact ⟨⟨e, (kind id).trans isFunction, given⟩, fun child up =>
      childless child ((parent child).symm.trans up)⟩
  case finished =>
    intro i f got other
    obtain ⟨_, functions, bare⟩ := grows.functions
    change s'.builder.functions[i]? = some f at got
    rw [functions] at got
    rcases Nat.lt_or_ge i s.builder.functions.length with old | young
    · rw [getElem?_append_left old] at got
      have other' : s.builder.function ≠ some i := fun same => other (grows.frame.1.trans same)
      exact (before.finished i f got other').imp_right fun h => h.mono settled.context
    rw [getElem?_append_right young] at got
    exact .inl (bare f (mem_of_getElem? got))
  case late => exact valid.late
  case regular => exact valid.regular

end Session

end Stencil
