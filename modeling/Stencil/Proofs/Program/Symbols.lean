import Mathlib.Data.List.Perm.Subperm
import Mathlib.Tactic.MkIffOfInductiveProp
import Stencil.Proofs.Program.Typed

/-!
Symbols, the names of functions and globals in the code. Only what an instance that was taken back
has left behind can make a symbol ambiguous.
-/

namespace Stencil

open Nat List ScopeTree ScopeKind

/-- A name that declarations can have: it is plain and does not start with a digit. -/
def SymbolName (name : String) : Prop :=
  PlainName name ∧ name.toList.head?.any Char.isDigit = false

instance : DecidablePred SymbolName := fun name =>
  inferInstanceAs (Decidable (PlainName name ∧ name.toList.head?.any Char.isDigit = false))

theorem isDigit_toString {n : Nat} {c : Char} (mem : c ∈ (toString n).toList) : c.isDigit := by
  rw [toString_eq_repr, toList_repr] at mem
  exact isDigit_of_mem_toDigits (by decide) (by decide) mem

theorem plain_toString (n : Nat) : PlainName (toString n) := by
  intro c mem
  constructor <;> rintro rfl <;> exact absurd (isDigit_toString mem) (by decide)

theorem head_toString (n : Nat) : (toString n).toList.head?.any Char.isDigit := by
  cases fst : (toString n).toList with
  | nil =>
    rw [toString_eq_repr, toList_repr] at fst
    exact absurd fst toDigits_ne_nil
  | cons => exact isDigit_toString (fst ▸ mem_cons_self ..)

variable {code : Nat}

namespace ScopeKind

def constant? : ScopeKind → Option String
  | var { storage := .known global _, .. } => some global
  | _ => none

def symbol? : ScopeKind → Option String
  | function { code := some _, codeName, .. } => some codeName
  | k => k.constant?

def code? : ScopeKind → Option Nat
  | function e => e.code
  | _ => none

variable {k : ScopeKind} {symbol : String}

theorem constant_eq_some (given : k.constant? = some symbol) :
    ∃ e value, k = .var e ∧ e.storage = .known symbol value := by
  unfold constant? at given
  split at given
  · cases given
    exact ⟨_, _, rfl, rfl⟩
  · cases given

theorem symbol_of_constant (given : k.constant? = some symbol) : k.symbol? = some symbol := by
  obtain ⟨e, _, rfl, -⟩ := constant_eq_some given
  exact given

theorem code_eq_some (given : k.code? = some code) : ∃ e, k = .function e ∧ e.code = some code := by
  cases k <;> first | exact ⟨_, rfl, given⟩ | cases given

theorem symbol_function {e : FunctionEntry} (given : e.code = some code) :
    (function e).symbol? = some e.codeName := by
  obtain ⟨_, _, _, _⟩ := e
  cases given
  rfl

theorem symbol_eq_some (given : k.symbol? = some symbol) :
    (∃ e, k = .function e ∧ e.codeName = symbol) ∨ k.constant? = some symbol := by
  unfold symbol? at given
  split at given
  · exact .inl ⟨_, rfl, Option.some.inj given⟩
  · exact .inr given

end ScopeKind

namespace ScopeTree

variable {t : ScopeTree} {id : ScopeId}

def symbol? (t : ScopeTree) (id : ScopeId) : Option String :=
  (t.kind id).symbol?

def constants (t : ScopeTree) : List String :=
  (List.range t.size).filterMap fun id => (t.kind id).constant?

/-- What has a symbol and specs have names that can be declared. -/
def Symbolic (t : ScopeTree) : Prop :=
  ∀ n ∈ t.nodes, (n.kind.symbol?.isSome || n.kind.spec?.isSome) → SymbolName n.name

instance (t : ScopeTree) : Decidable t.Symbolic :=
  inferInstanceAs (Decidable (∀ n ∈ t.nodes, _ → SymbolName n.name))

def Reached (t : ScopeTree) (id : ScopeId) : Prop :=
  t.isAlive id ∧ ∀ p ∈ t.parent? id, t.isAlive p

instance (t : ScopeTree) : DecidablePred t.Reached := fun id =>
  inferInstanceAs (Decidable (t.isAlive id ∧ ∀ p ∈ t.parent? id, t.isAlive p))

theorem Symbolic.name (symbolic : t.Symbolic)
    (declared : ((t.kind id).symbol?.isSome || (t.kind id).spec?.isSome)) :
    SymbolName (t.name id) := by
  have lies : id < t.size := by
    refine lt_of_kind_ne_block fun block => ?_
    rw [block] at declared
    cases declared
  have here : t.node id = t.nodes[id] := by
    rw [node, getElem?_eq_getElem lies]
    rfl
  rw [ScopeTree.name, here]
  rw [kind, here] at declared
  exact symbolic _ (getElem_mem lies) declared

theorem Symbolic.symbol {symbol : String} (symbolic : t.Symbolic)
    (has : t.symbol? id = some symbol) : SymbolName (t.name id) :=
  symbolic.name (by rw [show (t.kind id).symbol? = _ from has]; rfl)

theorem mem_constants {symbol : String} :
    symbol ∈ t.constants ↔ ∃ id, (t.kind id).constant? = some symbol := by
  refine mem_filterMap.trans ⟨fun ⟨id, _, given⟩ => ⟨id, given⟩, fun ⟨id, given⟩ => ?_⟩
  refine ⟨id, mem_range.mpr (lt_of_kind_ne_block fun block => ?_), given⟩
  rw [block] at given
  cases given

end ScopeTree

namespace Session

section

variable {s : Session} {id id' p p' : ScopeId} {symbol : String}

variable (valid : s.Valid)
include valid

theorem Valid.symbol_eq (has : s.tree.symbol? id = some symbol) :
    ∃ p, s.tree.parent? id = some p ∧ (s.tree.kind p).isOuter ∧
      symbol = s.tree.qualify p (s.tree.name id) := by
  have accounts := valid.accounts id
  have up : ∃ p, s.tree.parent? id = some p := by
    refine valid.shaped.parent_of_ne_root (lt_of_kind_ne_block fun block => ?_) ?_
    · rw [ScopeTree.symbol?, block] at has
      cases has
    rintro rfl
    rw [ScopeTree.symbol?, valid.shaped.root] at has
    cases has
  obtain ⟨p, up⟩ := up
  have admits := valid.shaped.admitted id p up
  refine ⟨p, up, ?_⟩
  obtain ⟨e, kind, rfl⟩ | given := symbol_eq_some has
  · rw [kind] at admits accounts
    obtain ⟨-, -, -, place, -⟩ := accounts
    exact ⟨admits, by rw [(place p up).1, (place p up).2]⟩
  obtain ⟨e, value, kind, stored⟩ := constant_eq_some given
  rw [kind] at admits accounts
  obtain ⟨-, -, -, place⟩ := accounts.2 symbol value stored
  refine ⟨ScopeKind.isOuter_of_isNamespace ?_, place p up⟩
  rw [ScopeKind.admits, stored] at admits
  exact admits

theorem Valid.titled (plain : s.tree.Plain) (symbolic : s.tree.Symbolic)
    (outer : (s.tree.kind p).isOuter) (inner : p ≠ root) :
    ∃ q base, s.tree.parent? p = some q ∧ (s.tree.kind q).isNamespace ∧ PlainName base ∧
      Titled base (s.tree.name p) := by
  have lies := Analysis.lt_of_outer outer
  obtain ⟨q, up⟩ := valid.shaped.parent_of_ne_root lies inner
  have admits := valid.shaped.admitted p q up
  have accounts := valid.accounts p
  cases kind : s.tree.kind p with
  | package =>
    rw [kind] at admits
    exact ⟨q, _, up, admits, (plain p).1 kind, .inl rfl⟩
  | template e =>
    rw [kind] at admits accounts
    exact ⟨q, _, up, admits, (plain p).2 e kind, (accounts q up).2⟩
  | spec =>
    rw [kind] at admits
    exact ⟨q, _, up, admits, (symbolic.name (by rw [kind]; rfl)).1, .inl rfl⟩
  | module =>
    rw [kind] at admits
    cases admits
  | _ =>
    rw [kind] at outer
    cases outer

theorem Valid.qualify_injective (plain : s.tree.Plain)
    (symbolic : s.tree.Symbolic) (outer : (s.tree.kind p).isOuter)
    (outer' : (s.tree.kind p').isOuter) (alive : s.tree.isAlive p)
    (alive' : s.tree.isAlive p') {name name' : String} (plain_name : PlainName name)
    (plain_name' : PlainName name') (same : s.tree.qualify p name = s.tree.qualify p' name') :
    p = p' ∧ name = name' := by
  -- The name of a declaration in a package or a type stands behind the last dot.
  have dotted : ∀ {p name}, p ≠ root →
      s.tree.qualify p name = ".".intercalate (s.tree.path p) ++ "." ++ name := fun inner =>
    if_neg inner
  have bare : ∀ name, s.tree.qualify root name = name := fun _ => by
    rw [ScopeTree.qualify, if_pos rfl]
  by_cases root : p = ScopeTree.root <;> by_cases root' : p' = ScopeTree.root
  · rw [root, root', bare, bare] at same
    exact ⟨root.trans root'.symm, same⟩
  · rw [root, bare, dotted root'] at same
    exact absurd same (plain_ne_dotted plain_name)
  · rw [root', bare, dotted root] at same
    exact absurd same.symm (plain_ne_dotted plain_name')
  rw [dotted root, dotted root'] at same
  obtain ⟨fronts, names⟩ := dotted_split plain_name plain_name' same
  obtain ⟨q, _, up, package, base_plain, titled⟩ :=
    valid.titled plain symbolic outer root
  obtain ⟨q', _, around', package', base_plain', titled'⟩ :=
    valid.titled plain symbolic outer' root'
  refine ⟨valid.shaped.qualify_injective (fun i => (plain i).1) up around' alive alive'
    package package' base_plain base_plain' titled titled' ?_, names⟩
  rw [qualify_eq, qualify_eq, ← valid.shaped.path_child up, ← valid.shaped.path_child around']
  exact fronts

theorem Valid.symbol_injective (plain : s.tree.Plain)
    (symbolic : s.tree.Symbolic) (way : s.tree.Reached id) (reached' : s.tree.Reached id')
    (has : s.tree.symbol? id = some symbol) (has' : s.tree.symbol? id' = some symbol) :
    id = id' := by
  obtain ⟨p, up, outer, rfl⟩ := valid.symbol_eq has
  obtain ⟨p', around', outer', same⟩ := valid.symbol_eq has'
  obtain ⟨rfl, names⟩ := valid.qualify_injective plain symbolic outer outer'
    (way.2 p up) (reached'.2 p' around') (symbolic.symbol has).1
    (symbolic.symbol has').1 same
  have got := valid.shaped.registered id p way.1 up
  have found' := valid.shaped.registered id' p reached'.1 around'
  rw [names, found'] at got
  exact (Option.some.inj got).symm

theorem Valid.symbol_ne_literalName (symbolic : s.tree.Symbolic)
    (has : s.tree.symbol? id = some symbol) (n : Nat) : symbol ≠ Ir.literalName n := by
  intro same
  obtain ⟨p, up, -, qualified⟩ := valid.symbol_eq has
  obtain ⟨plain, undigit⟩ := symbolic.symbol has
  have literal : Ir.literalName n = ".str" ++ "." ++ toString n := by
    congr 1
  rw [qualified, qualify_eq, literal] at same
  by_cases empty : s.tree.path p = []
  · rw [empty, nil_append, String.intercalate_singleton] at same
    exact plain_ne_dotted plain same
  rw [dotted_concat _ _ empty] at same
  have name := (dotted_split plain (plain_toString n) same).2
  rw [name, head_toString n] at undigit
  cases undigit

end

/-- Each function and each global belongs to a scope that can be reached: nothing was left over by
instances that were taken back. -/
@[mk_iff]
structure Owned (s : Session) : Prop where
  functions : ∀ code < s.builder.functions.length, ∃ id < s.tree.size,
    (s.tree.kind id).code? = some code ∧ s.tree.Reached id
  constants : ∀ id < s.tree.size, (s.tree.kind id).constant?.isSome →
    s.tree.Reached id
  globals : (s.builder.module.globals.filter (!·.isLiteral)).length ≤ s.tree.constants.length

instance : DecidablePred Owned := fun s =>
  decidable_of_iff' _ (owned_iff s)

/-- What a symbol stands for is not in doubt. -/
structure Distinguishes (s : Session) : Prop where
  structs : (s.builder.module.structs.map (·.name)).Nodup
  literals : s.builder.module.literals.Nodup
  symbols : ∀ id id' symbol, s.tree.Reached id → s.tree.Reached id' →
    s.tree.symbol? id = some symbol → s.tree.symbol? id' = some symbol → id = id'
  apart : ∀ id symbol, s.tree.symbol? id = some symbol → symbol ∉ s.builder.module.literals
  names : s.Owned → (s.builder.functions.map (·.name) ++
    s.builder.module.globals.map (·.name)).Nodup
  calls : s.Owned → ∀ id e code, s.tree.kind id = .function e → e.code = some code →
    s.builder.functions[code]?.isSome ∧
      s.builder.module.function? e.codeName = s.builder.functions[code]?

section

variable {s : Session} {id : ScopeId} {symbol : String}

theorem Owned.constant (owned : s.Owned) (given : (s.tree.kind id).constant? = some symbol) :
    s.tree.Reached id := by
  refine owned.constants id (lt_of_kind_ne_block fun block => ?_) (by rw [given]; rfl)
  rw [block] at given
  cases given

theorem Owned.function (owned : s.Owned) (valid : s.Valid) {f : Ir.Function}
    (got : s.builder.functions[code]? = some f) :
    ∃ id, (s.tree.kind id).code? = some code ∧ s.tree.Reached id ∧
      s.tree.symbol? id = some f.name := by
  obtain ⟨lies, -⟩ := List.getElem?_eq_some_iff.mp got
  obtain ⟨id, -, given, way⟩ := owned.functions code lies
  refine ⟨id, given, way, ?_⟩
  obtain ⟨e, kind, coded⟩ := code_eq_some given
  have accounts := valid.accounts id
  rw [kind] at accounts
  obtain ⟨-, -, -, -, code⟩ := accounts
  obtain ⟨f', _, found', name, -⟩ := code _ coded
  obtain rfl : f = f' := Option.some.inj (got.symm.trans found')
  rw [ScopeTree.symbol?, kind, symbol_function coded, name]

theorem Owned.globals_perm (owned : s.Owned) (valid : s.Valid) (plain : s.tree.Plain)
    (symbolic : s.tree.Symbolic)
    (apart : ∀ id symbol, s.tree.symbol? id = some symbol → symbol ∉ s.builder.module.literals) :
    s.tree.constants.Nodup ∧ (s.builder.module.literals ++ s.tree.constants).Perm
        (s.builder.module.globals.map (·.name)) := by
  have distinct : s.tree.constants.Nodup := by
    refine nodup_range.filterMap ?_
    intro _ _ _ given given'
    exact valid.symbol_injective plain symbolic (owned.constant given) (owned.constant given')
      (symbol_of_constant given) (symbol_of_constant given')
  have others : s.tree.constants.Perm
      ((s.builder.module.globals.filter (!·.isLiteral)).map (·.name)) := by
    have shorter := owned.globals
    rw [← length_map (·.name)] at shorter
    refine (subperm_of_subset distinct ?_).perm_of_length_le shorter
    intro symbol mem
    obtain ⟨id, given⟩ := mem_constants.mp mem
    obtain ⟨e, value, kind, stored⟩ := constant_eq_some given
    have accounts := valid.accounts id
    rw [kind] at accounts
    obtain ⟨-, -, ⟨g, has, rfl, -⟩, -⟩ := accounts.2 symbol value stored
    refine mem_map.mpr ⟨g, mem_filter.mpr ⟨has, ?_⟩, rfl⟩
    cases literal : g.isLiteral with
    | false => rfl
    | true =>
      refine absurd ?_ (apart id g.name (symbol_of_constant given))
      exact mem_map_of_mem (mem_filter.mpr ⟨has, literal⟩)
  refine ⟨distinct, (others.append_left _).trans ?_⟩
  rw [Ir.Module.literals, ← map_append]
  exact (filter_append_perm Ir.Global.isLiteral _).map _

end

theorem Analyzed.distinguishes {plainly : Prop} {s : Session} (analyzed : s.Analyzed plainly)
    (plain : s.tree.Plain) (symbolic : s.tree.Symbolic) : s.Distinguishes := by
  have valid := analyzed.valid
  obtain ⟨structs, numbered, -⟩ := analyzed.orderly
  have numbers : s.builder.module.literals.Nodup := by
    rw [numbered]
    exact nodup_range.map Ir.literalName_injective
  have apart : ∀ id symbol, s.tree.symbol? id = some symbol →
      symbol ∉ s.builder.module.literals := by
    intro _ _ has mem
    rw [numbered] at mem
    obtain ⟨n, -, same⟩ := mem_map.mp mem
    exact valid.symbol_ne_literalName symbolic has n same.symm
  have functions : s.Owned → (s.builder.functions.map (·.name)).Nodup := by
    intro owned
    refine nodup_iff_getElem?_ne_getElem?.mpr fun i j before bound same => ?_
    rw [length_map] at bound
    have fst := getElem?_eq_getElem (Nat.lt_trans before bound)
    have snd := getElem?_eq_getElem bound
    obtain ⟨_, given, way, has⟩ := owned.function valid fst
    obtain ⟨_, given', reached', has'⟩ := owned.function valid snd
    rw [getElem?_map, getElem?_map, fst, snd, Option.map_some, Option.map_some] at same
    rw [← same] at has'
    obtain rfl := valid.symbol_injective plain symbolic way reached' has has'
    exact Nat.ne_of_lt before (Option.some.inj (given.symm.trans given'))
  have names : s.Owned → (s.builder.functions.map (·.name) ++
      s.builder.module.globals.map (·.name)).Nodup := by
    intro owned
    obtain ⟨distinct, perm⟩ := owned.globals_perm valid plain symbolic apart
    refine ((perm.append_left _).nodup_iff).mp ?_
    refine nodup_append.mpr ⟨functions owned, nodup_append.mpr ⟨numbers, distinct, ?_⟩, ?_⟩
    · rintro name literal _ mem rfl
      obtain ⟨id, given⟩ := mem_constants.mp mem
      exact apart id name (symbol_of_constant given) literal
    rintro _ mem _ other rfl
    obtain ⟨f, present, rfl⟩ := mem_map.mp mem
    obtain ⟨_, got⟩ := mem_iff_getElem?.mp present
    obtain ⟨id, given, way, has⟩ := owned.function valid got
    rcases mem_append.mp other with literal | constant
    · exact apart id f.name has literal
    -- One scope would be a function and a constant.
    obtain ⟨_, given'⟩ := mem_constants.mp constant
    obtain rfl := valid.symbol_injective plain symbolic way (owned.constant given') has
      (symbol_of_constant given')
    obtain ⟨e, kind, -⟩ := code_eq_some given
    rw [kind] at given'
    cases given'
  refine ⟨structs, numbers, fun id _ _ => valid.symbol_injective plain symbolic, apart, names, ?_⟩
  intro owned id e code kind coded
  have accounts := valid.accounts id
  rw [kind] at accounts
  obtain ⟨-, -, -, -, code⟩ := accounts
  obtain ⟨f, _, got, name, -⟩ := code _ coded
  rw [got, ← name]
  exact ⟨rfl, Ir.find?_of_nodup (functions owned) (mem_of_getElem? got)⟩

end Session

/-- In every module that the analysis leads to, a symbol stands for one scope. If each function and
each global has its owner, then no two of them have the same name, and calls reach what they were
resolved to. -/
theorem analyze_symbols (moduleName : String) (m : Module) (limits : Limits) (plain : Item.AllPlain m.items)
    (symbolic : (analyze moduleName m limits).tree.Symbolic) : (analyze moduleName m limits).Distinguishes := by
  have analyzed := analyze_analyzed moduleName m limits
  exact analyzed.distinguishes (analyzed.plain plain) symbolic

def manySymbols : Module :=
  Module.ofText ("package p { const f: int = 1 func g() {} } spec S { func f(self) } " ++
    "template Box<T> { x: T func g(self) {} } action S in Box<int> { func f(self) {} } " ++
    "const g: int = 2 " ++
    "func f() \x7b let a: Box<int> let b: Box<bool> a.f() b.g() p.g() let t = \"text\" \x7d")

theorem analyze_symbols_manySymbols : (analyze "m" manySymbols).report.entries = [] ∧
    ((analyze "m" manySymbols).builder.functions.map (·.name) ++
      (analyze "m" manySymbols).builder.module.globals.map (·.name)).Nodup := by
  obtain ⟨clean, plain, symbolic, owned⟩ : (analyze "m" manySymbols).report.entries = [] ∧
      Item.AllPlain manySymbols.items ∧ (analyze "m" manySymbols).tree.Symbolic ∧
      (analyze "m" manySymbols).Owned := by
    decide +kernel
  exact ⟨clean, (analyze_symbols "m" manySymbols {} plain symbolic).names owned⟩

/-- The declaration that an instance has left behind has the name of one that is used. -/
theorem analyze_staleInstance_symbols : (analyze "m" staleInstance).report.entries = [] ∧
    (analyze "m" staleInstance).tree.Symbolic ∧
    ¬((analyze "m" staleInstance).builder.functions.map (·.name)).Nodup := by
  rw [staleInstance, Module.ofText_eq_ofChars]
  simp only [String.toList_append, String.reduceToList]
  decide +kernel

end Stencil
