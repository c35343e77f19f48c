import Stencil.Proofs.Analysis.Stage

namespace Stencil

open Analysis Tracked Ty ScopeTree

variable {r : Resolver} {id scope : ScopeId} {span : Span} {x : Stage []}

abbrev KnownIn {spared : List ScopeId} (type : Ty) (x : Stage spared) : Prop := type.Known x.tree

/-- A resolver of the analysis that keeps sessions valid. -/
structure Resolver.Sound (r : Resolver) : Prop where
  depth : ∃ depth, r = within depth
  aliasTarget : ∀ id span (x : Stage []), Keeps (r.aliasTarget id span) x KnownIn
  instantiate : ∀ id args span (x : Stage []), (∀ arg ∈ args, arg.Known x.tree) →
    x.session.instances.lookup (id, args) = none → Keeps (r.instantiate id args span) x KnownIn

theorem Stage.known {spared : List ScopeId} {x y : Stage spared} {type : Ty}
    (way : later x y) (known : type.Known x.tree) : type.Known y.tree :=
  known.mono way.tree

theorem requireStorable_keeps {σ : Type} [Tracked σ] (type : Ty) (x : σ) :
    Keeps (requireStorable type span) x fun _ y => x = y ∧ type.isStorable := by
  cases type with
  | void | spec name id => exact .fail rfl
  | _ => exact .pure ⟨rfl, rfl⟩

namespace Resolver

/-- The scope behind a name can be a package or a type. -/
theorem namespaceScope_keeps (sound : r.Sound) :
    Keeps (r.namespaceScope id span) x fun scope y => (y.tree.kind scope).isOuter ∧
      ((x.tree.kind id).alias?.isSome → (y.tree.kind scope).template?.isSome) := by
  refine .tree_bind ?_
  cases kind : x.tree.kind id with
  | module | package | template e | spec d => exact .pure ⟨by rw [kind]; rfl, nofun⟩
  | typeAlias =>
    refine .bind (sound.aliasTarget id span x) ?_
    intro type y _ known
    cases got : type.structScope? with
    | none => exact .fail rfl
    | some =>
      have template := known.scope got
      exact .pure ⟨ScopeKind.isOuter_of_template template, fun _ => template⟩
  | function e | var e | block => exact .fail rfl

theorem descend_keeps (sound : r.Sound) {shown : String} (names : List String) :
    ∀ (id : ScopeId) (x : Stage []), Keeps (r.descend shown span id names) x := by
  induction names with
  | nil => exact fun id x => Keeps.pure trivial
  | cons name names ih =>
  intro _ x
  refine .bind (namespaceScope_keeps sound) ?_
  intro _ y _ _
  refine .tree_bind ?_
  split
  · exact ih _ y
  · exact .fail rfl

theorem lookupPath_keeps (sound : r.Sound) (path : List String) :
    Keeps (r.lookupPath path scope span) x := by
  cases path with
  | nil => exact .fail rfl
  | cons fst rest =>
  refine .tree_bind ?_
  split
  · exact descend_keeps sound rest _ x
  · exact .fail rfl

theorem generic_keeps (sound : r.Sound) {args : List Ty} (known : ∀ arg ∈ args, arg.Known x.tree) :
    Keeps (r.generic id args span) x KnownIn := by
  refine .get_bind ?_
  split
  · rename_i type got
    obtain ⟨_, _, whole, -⟩ := List.lookup_eq_some_iff.mp got
    refine .pure (x.valid.instances ((id, args), type) ?_)
    rw [show x.session.instances = _ from whole]
    simp
  rename_i unknown
  exact sound.instantiate id args span x known unknown

theorem refuseArguments_keeps {σ : Type} [Tracked σ] {α : Type} {shown : String} (args : List α)
    (x : σ) : Keeps (refuseArguments shown args span) x fun _ y => x = y := by
  unfold refuseArguments
  split
  · exact .pure rfl
  · exact .fail rfl

mutual

theorem type_keeps (sound : r.Sound) (scope : ScopeId) :
    ∀ (written : TypeSyntax) (x : Stage []), Keeps (r.type scope written) x KnownIn
  | .primitive p _, _ => Keeps.pure (known_ofPrimitive p)
  | .self _, x => by
    refine .tree_bind ?_
    split
    · rename_i type got
      exact .pure (selfType_known got)
    · exact .fail rfl
  | .reference target _, x =>
    Keeps.bind (type_keeps sound scope target x) fun _ _ _ known =>
      Keeps.pure (known_pointer.mpr known)
  | .array elem length _, x => by
    refine .bind (type_keeps sound scope elem x) ?_
    intro type y _ known
    refine .bind (requireStorable_keeps type y) ?_
    rintro _ _ _ ⟨rfl, -⟩
    exact .pure (known_array.mpr known)
  | .function params result _, x => by
    refine .bind (types_keeps sound scope params x) ?_
    intro types y _ known
    refine .bind (resultType_keeps sound scope result y) ?_
    intro type z way known'
    exact .pure (known_function.mpr ⟨fun arg mem => Stage.known way (known arg mem), known'⟩)
  | .named path args span, x => by
    refine .bind (lookupPath_keeps sound path) ?_
    intro id y _ _
    refine .tree_bind ?_
    cases kind : y.tree.kind id with
    | template e =>
      dsimp only
      split
      · refine .bind (types_keeps sound scope args y) ?_
        exact fun _ z _ known => generic_keeps sound known
      refine .bind (refuseArguments_keeps args y) ?_
      rintro _ _ _ rfl
      exact .pure (known_struct.mpr ⟨e, kind, rfl⟩)
    | typeAlias =>
      dsimp only
      split
      · refine .bind (types_keeps sound scope args y) ?_
        exact fun _ z _ known => generic_keeps sound known
      refine .bind (refuseArguments_keeps args y) ?_
      exact fun _ z _ _ => sound.aliasTarget id span z
    | spec =>
      refine .bind (refuseArguments_keeps args y) ?_
      exact fun _ z _ _ => Keeps.pure (known_spec _ _)
    | module | package | function e | var e | block => exact .fail rfl

theorem types_keeps (sound : r.Sound) (scope : ScopeId) :
    ∀ (written : List TypeSyntax) (x : Stage []),
      Keeps (r.types scope written) x fun types y => ∀ type ∈ types, type.Known y.tree
  | [], _ => Keeps.pure nofun
  | fst :: rest, x => by
    refine .bind (type_keeps sound scope fst x) ?_
    intro type y _ known
    refine .bind (types_keeps sound scope rest y) ?_
    intro types z way more
    refine .pure ?_
    exact List.forall_mem_cons.mpr ⟨Stage.known way known, more⟩

theorem resultType_keeps (sound : r.Sound) (scope : ScopeId) :
    ∀ (written : Option TypeSyntax) (x : Stage []), Keeps (r.resultType scope written) x KnownIn
  | none, _ => Keeps.pure known_void
  | some written, x => type_keeps sound scope written x

end

theorem setAlias_keeps {e : AliasEntry} (kind : x.tree.kind id = .typeAlias e)
    {change : AliasEntry → AliasEntry} (decl : (change e).decl = e.decl) (declared : e.decl ≠ none)
    (known : ∀ type, (change e).target = some type → type.Known x.tree) :
    Keeps (modifyAlias id change) x := by
  have adjusts : x.tree.Adjusts id fun n => { n with kind := .typeAlias (change e) } :=
    adjusts_kind (by rw [kind]; exact .typeAlias decl fun h => absurd h declared)
  obtain ⟨valid, grows⟩ := x.valid.adjusted [] adjusts known
  refine .changeTree ?_ ?_ trivial
  · simp only [kind]
    exact valid
  simp only [kind]
  exact grows

theorem alias_of_later {x y : Stage []} {e : AliasEntry} (way : later x y)
    (kind : x.tree.kind id = .typeAlias e) :
    ∃ e', y.tree.kind id = .typeAlias e' ∧ e'.decl = e.decl := by
  have lies := lt_of_kind_ne_block (by rw [kind]; nofun)
  have refined := way.tree.kind id lies
  rw [kind] at refined
  obtain ⟨e', kind', decl, -⟩ := refined.alias_eq
  exact ⟨e', kind', decl⟩

theorem resolveAlias_keeps (sound : r.Sound) : Keeps (r.resolveAlias id span) x KnownIn := by
  refine .tree_bind ?_
  cases kind : x.tree.kind id with
  | typeAlias e =>
    have accounts := x.valid.accounts id
    rw [kind] at accounts
    dsimp only
    cases target : e.target with
    | some type => exact .pure (accounts type target)
    | none =>
    refine .check rfl fun _ => Keeps.check rfl fun _ => ?_
    split
    · exact .pure (known_spec _ _)
    rename_i written given
    have declared : e.decl ≠ none := by
      intro none
      rw [none] at given
      cases given
    refine .bind (setAlias_keeps kind rfl declared ?_) ?_
    · exact fun type given => accounts type given
    intro _ y marked _
    refine .bind (type_keeps sound id written y).attempt ?_
    intro result z way holds
    obtain ⟨_, kind', decl⟩ := alias_of_later (trans marked way) kind
    refine .bind (setAlias_keeps kind' rfl (by rw [decl]; exact declared) ?_) ?_
    · intro _ given
      cases result with
      | ok => exact Option.some.inj given ▸ holds
      | error => cases given
    intro _ w settled _
    refine .fromExcept ?_ ?_
    · rintro _ rfl
      exact Stage.known settled holds
    rintro d rfl
    exact holds
  | _ => exact .fail rfl

end Resolver

end Stencil
