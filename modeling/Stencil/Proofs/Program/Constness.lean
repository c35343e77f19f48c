import Stencil.Proofs.Program.Returns

namespace Stencil

open Analysis Tracked ScopeTree

def VariableEntry.isConstant (e : VariableEntry) : Bool :=
  match e.storage with
  | .known .. => true
  | _ => e.constant

namespace Expr

/-- The name that a chain of members, entries and pointers starts with. -/
def root? : Expr → Option String
  | identifier name _ => some name
  | member object .. => object.root?
  | index base .. => base.root?
  | deref arg _ => arg.root?
  | _ => none

def holdsPointer (r : Resolver) (s : Session) (e : Expr) : Bool :=
  match meaning r true none e s with
  | .ok (.place p) _ => p.type.isPointer
  | _ => false

/-- Whether a pointer is followed on the way to a place, by `*`, a member or an entry. -/
def followsPointer (r : Resolver) (s : Session) : Expr → Bool
  | member object .. => object.followsPointer r s || object.holdsPointer r s
  | index base .. => base.followsPointer r s || base.holdsPointer r s
  | deref .. => true
  | _ => false

end Expr

def Meaning.Rooted (t : ScopeTree) (constant : Option String) : Meaning → Prop
  | .value _ => False
  | .place p => p.constant = constant
  | .function .. => True
  | .scope id => (t.kind id).alias?.isSome

section

variable {s u : Session} {p q : Place} {m : Meaning} {name : String} {span : Span}
  {constant : Option String}

theorem follow_constant (run : p.follow s = .ok q u) :
    q.type = p.type.pointee?.getD p.type ∧ u.tree = s.tree ∧
      q.constant = if p.type.isPointer then none else p.constant := by
  unfold Place.follow at run
  cases type : p.type <;> simp only [type] at run <;> cases run
  all_goals simp [type, Ty.pointee?, Ty.isPointer]

theorem element_constant {type : Ty} {length : Nat} {position : TypedValue}
    (run : elementPlace p type length position span s = .ok q u) : q.constant = p.constant := by
  unfold elementPlace at run
  repeat' split at run
  all_goals cases run
  all_goals rfl

section

variable {scope id : ScopeId} (shaped : s.tree.Shaped)
  (template : (s.tree.kind scope).template?.isSome)
  (got : s.tree.findChild? scope name = some id)

include shaped template got

theorem admitted_template : ((s.tree.kind id).function?.isSome ∨
    (s.tree.kind id).alias?.isSome) ∨ ∃ e, s.tree.kind id = .var e ∧ e.storage = .field := by
  have admits := shaped.admitted id scope (shaped.child got).1
  cases outer : s.tree.kind scope <;> rw [outer] at admits template <;> try cases template
  cases kind : s.tree.kind id <;> rw [kind] at admits <;> try cases admits
  · exact .inl (.inl rfl)
  · rename_i e
    cases stored : e.storage <;>
      simp [ScopeKind.admits, stored, ScopeKind.isBody, ScopeKind.isNamespace] at admits
    exact .inr ⟨e, rfl, stored⟩
  · exact .inl (.inr rfl)

theorem nodeMeaning_rooted (run : nodeMeaning true id name span s = .ok m u) :
    m.Rooted u.tree constant := by
  obtain ⟨t, _, read, run⟩ := bind_ok run
  cases read
  rcases admitted_template shaped template got with (function | isAlias) | ⟨e, kind, field⟩
  · cases kind : s.tree.kind id <;> rw [kind] at function <;> try cases function
    simp only [kind] at run
    cases run
    trivial
  · cases kind : s.tree.kind id <;> rw [kind] at isAlias <;> try cases isAlias
    simp only [kind] at run
    cases run
    exact congrArg (fun k => k.alias?.isSome) kind
  · simp only [kind, field] at run
    cases run

end

theorem instanceMember_rooted (shaped : s.tree.Shaped) (known : p.type.Known s.tree)
    (run : instanceMember true p name span s = .ok m u) :
    m.Rooted u.tree (if p.type.isPointer then none else p.constant) := by
  obtain ⟨q, v, followed, run⟩ := bind_ok run
  obtain ⟨type, tree, constant⟩ := follow_constant followed
  rw [← tree] at shaped
  cases shape : q.type with
  | struct struct scope =>
    have template : (v.tree.kind scope).template?.isSome := by
      have known' : q.type.Known v.tree := by
        rw [type, tree]
        cases target : p.type <;> rw [target] at known <;> exact known
      exact known'.scope (by rw [shape]; rfl)
    simp only [shape] at run
    obtain ⟨t, _, read, run⟩ := bind_ok run
    cases read
    cases child : v.tree.findChild? scope name with
    | none =>
      simp only [child] at run
      cases run
    | some id =>
    simp only [child] at run
    rcases admitted_template shaped template child with (function | isAlias) | ⟨e, kind, field⟩
    · cases kind : v.tree.kind id <;> rw [kind] at function <;> try cases function
      simp only [kind] at run
      cases run
      trivial
    · cases kind : v.tree.kind id <;> rw [kind] at isAlias <;> try cases isAlias
      simp only [kind] at run
      exact nodeMeaning_rooted shaped template child run
    · cases index : v.tree.indexOf? scope name <;>
        simp only [kind, field, if_true, index] at run <;> cases run
      exact constant
  | _ =>
    simp only [shape] at run
    cases run

end

namespace Expr

section

variable {r : Resolver} (resolves : r.Sound) {x : Spot} {u : Session} {m : Meaning} {name : String}
include resolves

theorem meaning_run {e : Expr} {reference : Bool}
    (run : meaning r reference none e x.session = .ok m u) :
    ∃ y : Spot, y.session = u ∧ m.Sound y := by
  have keeps := meaning_keeps resolves e reference none x (hintKnown_none x)
  unfold Keeps Leads at keeps
  rw [show session x = x.session from rfl, run] at keeps
  obtain ⟨y, same, -, sound⟩ := keeps
  exact ⟨y, same, sound⟩

theorem scopeMember_rooted {scope : ScopeId} {span : Span} {constant : Option String}
    (isAlias : (x.tree.kind scope).alias?.isSome)
    (run : memberMeaning r true (.scope scope) name span x.session = .ok m u) :
    m.Rooted u.tree constant := by
  obtain ⟨outer, _, named, run⟩ := bind_ok run
  have keeps := @Resolver.namespaceScope_keeps _ scope span ⟨x.session, x.valid⟩ resolves
  unfold Keeps Leads at keeps
  rw [show session (⟨x.session, x.valid⟩ : Stage []) = x.session from rfl, named] at keeps
  obtain ⟨y, rfl, -, -, template⟩ := keeps
  obtain ⟨t, _, read, run⟩ := bind_ok run
  cases read
  cases child : (session y).tree.findChild? outer name with
  | none =>
    simp only [child] at run
    cases run
  | some =>
    simp only [child] at run
    exact nodeMeaning_rooted y.valid.shaped (template isAlias) child run

theorem meaning_rooted {id : ScopeId} {e : VariableEntry} (got : x.tree.find? name = some id)
    (kind : x.tree.kind id = .var e) (chain : Expr) (root : chain.root? = some name)
    (run : meaning r true none chain x.session = .ok m u) : m.Rooted u.tree
      (if e.isConstant && !chain.followsPointer r x.session then some name else none) := by
  fun_induction root? chain generalizing m u with
  | case1 =>
    cases root
    rw [meaning, nameMeaning] at run
    obtain ⟨t, _, read, run⟩ := bind_ok run
    cases read
    simp only [got, nodeMeaning] at run
    obtain ⟨t, _, read, run⟩ := bind_ok run
    cases read
    cases stored : e.storage <;> simp only [kind, stored, if_true] at run <;> cases run <;>
      simp [Meaning.Rooted, VariableEntry.isConstant, stored, followsPointer]
  | case2 object mem nameSpan span ih =>
    obtain ⟨base, _, fst, run⟩ := bind_ok run
    have rooted := ih root fst
    obtain ⟨y, rfl, sound⟩ := meaning_run resolves fst
    cases base with
    | value => exact rooted.elim
    | place p =>
      obtain ⟨_, _, same, run⟩ := bind_ok run
      cases same
      have member := instanceMember_rooted y.valid.shaped sound.known run
      rw [show p.constant = _ from rooted] at member
      rw [followsPointer, holdsPointer, fst]
      cases pointer : p.type.isPointer <;> simpa [pointer] using member
    | function =>
      obtain ⟨_, _, read, run⟩ := bind_ok run
      cases read
      cases run
    | scope => exact scopeMember_rooted resolves rooted run
  | case3 base position span ih =>
    obtain ⟨base, _, fst, run⟩ := bind_ok run
    have rooted := ih root fst
    obtain ⟨p, rfl⟩ : ∃ p, base = .place p := by
      cases base with
      | value => exact rooted.elim
      | place p => exact ⟨p, rfl⟩
      | function | scope =>
        obtain ⟨_, _, failed, -⟩ := bind_ok run
        obtain ⟨_, _, read, failed⟩ := bind_ok failed
        cases read
        cases failed
    obtain ⟨_, _, same, run⟩ := bind_ok run
    cases same
    obtain ⟨q, _, followed, run⟩ := bind_ok run
    obtain ⟨-, -, constant⟩ := follow_constant followed
    obtain ⟨⟨type, length⟩, _, -, run⟩ := bind_ok run
    obtain ⟨_, _, -, run⟩ := bind_ok run
    obtain ⟨_, _, -, run⟩ := bind_ok run
    obtain ⟨place, _, elem, run⟩ := bind_ok run
    cases run
    rw [Meaning.Rooted, element_constant elem, constant, show p.constant = _ from rooted,
      followsPointer, holdsPointer, fst]
    cases pointer : p.type.isPointer <;> simp [pointer]
  | case4 =>
    obtain ⟨_, _, -, run⟩ := bind_ok run
    obtain ⟨v, _, -, run⟩ := bind_ok run
    cases target : v.type.pointee? <;> simp only [target] at run <;> cases run
    simp [Meaning.Rooted, followsPointer]
  | case5 => cases root

end

end Expr

def Spot.still (x : Spot) : Spot := ⟨{ x.toSite with assigns := false }, x.isOpen⟩

section

variable {r : Resolver} (resolves : r.Sound) {x : Spot}
include resolves

theorem Spot.lowerAssignment_exact {name : String} {id : ScopeId} {e : VariableEntry}
    {target : Expr} (root : target.root? = some name) (got : x.tree.find? name = some id)
    (kind : x.tree.kind id = .var e) {place : Place} {u : Session}
    (run : target.lowerPlace r x.session = .ok place u) (value : Expr) :
    ((∃ d v, lowerAssignment r target value x.session = .error d v ∧ d.kind = .constantAssigned) ↔
      e.isConstant ∧ target.followsPointer r x.session = false) ∧
    lowerAssignment r target value x.session =
      if e.isConstant ∧ target.followsPointer r x.session = false then
        .error ((Problem.constantAssigned name).at target.span) u
      else value.lowerInto r place.addr place.type u := by
  have constant : place.constant =
      if e.isConstant && !target.followsPointer r x.session then some name else none := by
    obtain ⟨m, _, fst, rest⟩ := bind_ok run
    have rooted := Expr.meaning_rooted resolves got kind target root fst
    cases m <;> cases rest
    exact rooted
  have eq : lowerAssignment r target value x.session =
      if e.isConstant ∧ target.followsPointer r x.session = false then
        .error ((Problem.constantAssigned name).at target.span) u
      else value.lowerInto r place.addr place.type u := by
    rw [lowerAssignment, bind_run run, constant]
    split <;> simp_all
    rfl
  refine ⟨?_, eq⟩
  rw [eq]
  split
  · rename_i refused
    exact ⟨fun _ => refused, fun _ => ⟨_, _, rfl, rfl⟩⟩
  · rename_i allowed
    refine ⟨?_, fun refused => absurd refused allowed⟩
    rintro ⟨d, v, failed, same⟩
    -- what is assigned is an expression, and expressions fail for other reasons
    have placed := Expr.lowerPlace_keeps (x := x.still) (e := target) resolves
    rw [Keeps, Leads, show session x.still = x.session from rfl, run] at placed
    obtain ⟨y, rfl, reached, sound⟩ := placed
    have keeps := Expr.lowerInto_keeps (e := value) resolves sound.usable sound.known
    rw [Keeps, Leads, failed] at keeps
    exact absurd same (keeps.1.2 reached.assigns).kind

end

/-- The body of a function up to its first statement. -/
def openingOf (id : ScopeId) (e : FunctionEntry) (code : Nat) (body : Block) : Analysis Frame := do
  let _ ← build (Ir.Builder.beginBody code)
  modifyTree (·.moveTo id)
  openBody id e.decl e.signature body.returns

variable {moduleName : String} {m : Module} {limits : Limits} {s u : Session} {id : ScopeId}
  {e : FunctionEntry} {code : Nat} {body : Block} {frame : Frame}

theorem Session.Ready.openingOf_run {f : Ir.Function} {receiver : List Ir.Ty} {t : Session}
    (ready : s.Ready id e code body f receiver)
    (run : openingOf id e code body s = .ok frame t) :
    ∃ y : Junction, y.session = t ∧ frame.Here none y := by
  have begin_run : build (Ir.Builder.beginBody code) s = .ok (some 0) (s.begun code f) :=
    Spot.build_run (Ir.Builder.beginBody_eq ready.present)
  have opens : Keeps (openBody id e.decl e.signature body.returns) ready.junction.toSite _ :=
    openBody_keeps ready.isOpen rfl ready.begins.1 ready.params ready.result ready.begins.2
  rw [openingOf, bind_run begin_run] at run
  rw [Keeps, Leads, show openBody _ _ _ _ (session ready.junction.toSite) = _ from run] at opens
  obtain ⟨_, rfl, -, _, _, y, rfl, starts, sound, -⟩ := opens
  exact ⟨y, rfl, starts.here sound⟩

/-- Wherever a body has an assignment to a member, an entry or a target of a variable, it is refused
exactly if the variable is a constant and no pointer is followed. A body with an assignment that is
refused is refused for the same reason. -/
theorem Session.Reached.lowerAssignment_constant (reached : Reached moduleName m limits s)
    (queued : id ∈ s.bodies) (alive : s.tree.isAlive id = true) :
    ∃ e code body, s.tree.kind id = .function e ∧ e.code = some code ∧ e.decl.body = some body ∧
      ∀ frame t, openingOf id e code body (s.taken id) = .ok frame t →
      ∀ target value span u,
        Part.Meets s.resolver frame (.assign target value span) u none (.block body) t →
      ∀ name scope v, target.root? = some name → u.tree.find? name = some scope →
        u.tree.kind scope = .var v → ∀ place w, target.lowerPlace s.resolver u = .ok place w →
        ((∃ d u', lowerAssignment s.resolver target value u = .error d u' ∧
            d.kind = .constantAssigned) ↔
          v.isConstant = true ∧ target.followsPointer s.resolver u = false) ∧
        (lowerAssignment s.resolver target value u =
          if v.isConstant = true ∧ target.followsPointer s.resolver u = false then
            .error ((Problem.constantAssigned name).at target.span) w
          else value.lowerInto s.resolver place.addr place.type w) ∧
        ∀ d u', lowerAssignment s.resolver target value u = .error d u' →
          ∃ t', lowerBlock s.resolver frame none body t = .error d t' := by
  obtain ⟨e, code, body, f, receiver, ready⟩ := reached.ready queued alive
  refine ⟨e, code, body, ready.kind, ready.coded, ready.body, ?_⟩
  intro frame t run target value span u meets name scope v root got kind place w placed
  have resolves : s.resolver.Sound := Resolver.sound_within _
  obtain ⟨y, same, here⟩ := ready.openingOf_run run
  obtain ⟨z, rfl, isOpen⟩ := meets.begins resolves y same here
  obtain ⟨exact, eq⟩ := Spot.lowerAssignment_exact (x := z.spot isOpen) resolves root got kind
    placed value
  exact ⟨exact, eq, fun d u' failed => meets.fails fun _ => ⟨u', failed⟩⟩

def enterBlock (span : Span) : Analysis Unit := do
  let scope ← add (← generateName "block") .block span
  modifyTree (·.moveTo scope)

theorem Part.Meets.of_enterBlock {r : Resolver} {st : Stmt} {list : List Stmt}
    {loop : Option LoopTargets} {span : Span} {there : Session} (run : enterBlock span s = .ok () u)
    (rest : Meets r frame st there loop (stmts list) u) :
    Meets r frame st there loop (block (.mk list span)) s := by
  refine .inside (.inside list span) (fun step d v failed => ?_) rest
  obtain ⟨name, t, named, run⟩ := bind_ok run
  obtain ⟨scope, t', added, run⟩ := bind_ok run
  cases run
  have moved : within scope (step loop) t' = EStateM.bind (attempt (step loop)) (fun result => do
      modifyTree (·.moveTo t'.tree.current)
      fromExcept result) { t' with tree := t'.tree.moveTo scope } := rfl
  refine ⟨v.withTree (v.tree.moveTo t'.tree.current),
    (bind_run named).trans ((bind_run added).trans ?_)⟩
  rw [moved, EStateM.bind, attempt, failed]
  rfl

/-- Whether the body of a method starts with an assignment to a place that starts with `self`. -/
def showsTarget (id : ScopeId) (follows : Bool) (s : Session) (e : FunctionEntry) (code : Nat) :
    Block → Bool
  | .mk (.assign target value place :: rest) span =>
    EStateM.run' (do
      let _ ← openingOf id e code (.mk (.assign target value place :: rest) span)
      enterBlock span
      leaveTerminated
      let u ← get
      let _ ← target.lowerPlace s.resolver
      return target.root? == some "self" && target.followsPointer s.resolver u == follows &&
        (u.tree.find? "self").any fun id => (u.tree.kind id).var?.any (·.isConstant))
          (s.taken id) == some true
  | _ => false

theorem meets_of_showsTarget {follows : Bool}
    (shows : showsTarget id follows s e code body) :
    ∃ target value place frame t u scope v p w,
      openingOf id e code body (s.taken id) = .ok frame t ∧
      Part.Meets s.resolver frame (.assign target value place) u none (.block body) t ∧
        target.root? = some "self" ∧ u.tree.find? "self" = some scope ∧ u.tree.kind scope = .var v ∧
          v.isConstant ∧ target.followsPointer s.resolver u = follows ∧
            target.lowerPlace s.resolver u = .ok p w := by
  unfold showsTarget at shows
  split at shows
  · rename_i target value place rest span
    obtain ⟨_, run⟩ := ok_of_run' (beq_iff_eq.mp shows)
    obtain ⟨frame, t, opened, run⟩ := bind_ok run
    obtain ⟨_, _, entered, run⟩ := bind_ok run
    obtain ⟨_, u, left, run⟩ := bind_ok run
    obtain ⟨_, _, read, run⟩ := bind_ok run
    cases read
    obtain ⟨p, w, placed, run⟩ := bind_ok run
    have holds := (EStateM.Result.ok.inj run).1
    rw [Bool.and_eq_true, Bool.and_eq_true, beq_iff_eq, beq_iff_eq] at holds
    obtain ⟨⟨root, follows⟩, constant⟩ := holds
    obtain ⟨scope, got, constant⟩ := (Option.any_eq_true _ _).mp constant
    obtain ⟨v, kind, constant⟩ := (Option.any_eq_true _ _).mp constant
    have fst : Part.Meets s.resolver frame (.assign target value place) u none
        (.stmts (.assign target value place :: rest)) _ := .inside (.first _ rest)
      (fun _ _ v failed => ⟨v, (bind_run left).trans (bind_run_error failed)⟩) .here
    refine ⟨target, value, place, frame, t, u, scope, v, p, w, opened, .of_enterBlock entered fst,
      root, got, ?_, constant, follows, placed⟩
    cases kind' : u.tree.kind scope <;> rw [kind'] at kind <;> cases kind
    rfl
  · cases shows

def assignedSelf : Module :=
  Module.ofText "template T { n: int func f(self) { self.n = 1 } func g(self) { self = self } }"

theorem lowerAssignment_constant_assignedSelf :
    let s := Session.beforeBodies "m" assignedSelf
    ∃ (allowed refused value value' : Expr) (u u' : Session),
      allowed.root? = some "self" ∧ refused.root? = some "self" ∧
        (¬∃ d v, lowerAssignment s.resolver allowed value u = .error d v ∧
          d.kind = .constantAssigned) ∧
        ∃ d v, lowerAssignment s.resolver refused value' u' = .error d v ∧
          d.kind = .constantAssigned := by
  intro s
  have shows : ∀ c ∈ [(3, true), (4, false)], c.1 ∈ s.bodies ∧ s.tree.isAlive c.1 ∧
      (s.tree.kind c.1).function?.any (fun e =>
        e.code.any fun code => e.decl.body.any (showsTarget c.1 c.2 s e code)) := by
    decide +kernel
  have assigned : ∀ c ∈ [(3, true), (4, false)], ∃ target value u, target.root? = some "self" ∧
      ((∃ d v, lowerAssignment s.resolver target value u = .error d v ∧
        d.kind = .constantAssigned) ↔ c.2 = false) := by
    intro c mem
    obtain ⟨queued, alive, holds⟩ := shows c mem
    obtain ⟨e, code, body, kind, coded, has, exact⟩ :=
      Session.Reached.lowerAssignment_constant .refl queued alive
    rw [kind, show (ScopeKind.function e).function? = some e from rfl, Option.any_some, coded,
      Option.any_some, has, Option.any_some] at holds
    obtain ⟨target, value, _, _, _, u, _, v, _, _, opened, meets, root, got, kind, constant, way,
      placed⟩ := meets_of_showsTarget holds
    refine ⟨target, value, u, root, ?_⟩
    rw [(exact _ _ opened _ _ _ u meets _ _ v root got kind _ _ placed).1, way]
    exact and_iff_right constant
  obtain ⟨allowed, value, u, root, taken⟩ := assigned (3, true) (by simp)
  obtain ⟨refused, value', u', root', refuses⟩ := assigned (4, false) (by simp)
  exact ⟨allowed, refused, value, value', u, u', root, root',
    fun h => Bool.noConfusion (taken.mp h), refuses.mpr rfl⟩

end Stencil
