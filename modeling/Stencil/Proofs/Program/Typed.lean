import Stencil.Proofs.Program.Code

namespace Stencil

open List Module

theorem Ir.find?_of_nodup {α : Type} {key : α → String} {a : α} :
    ∀ {all : List α}, (all.map key).Nodup → a ∈ all → all.find? (key · == key a) = some a
  | fst :: rest, distinct, mem => by
    obtain ⟨fresh, distinct⟩ := nodup_cons.mp distinct
    rcases mem_cons.mp mem with rfl | later
    · exact find?_cons_of_pos (beq_self_eq_true _)
    have other : key fst ≠ key a := fun same =>
      fresh (mem_map.mpr ⟨a, later, same.symm⟩)
    rw [find?_cons_of_neg (by simpa using other)]
    exact find?_of_nodup distinct later

namespace Ir

/-- No two functions of a module and no two of its globals have the same name. -/
structure Module.Unambiguous (m : Module) : Prop where
  functions : (m.functions.map (·.name)).Nodup
  globals : (m.globals.map (·.name)).Nodup

def Module.context (m : Module) : Context where
  function name params result :=
    ∃ f, m.function? name = some f ∧ f.params = params ∧ f.result = result
  global name type := ∃ g, m.global? name = some g ∧ g.type = type
  field struct index type := ∃ s fields, m.struct? struct = some s ∧ s.fields = some fields ∧
    fields[index]? = some type
  constant _ _ := True

/-- All code of a function keeps the typing rules, with one type for each temporary. -/
def Function.Typed (Γ : Context) (f : Function) : Prop :=
  ∃ types : Types, ∀ b ∈ f.blocks, (∀ inst ∈ b.insts, inst.Typed Γ f.params types) ∧
    ∀ t, b.terminator = some t → t.Typed Γ f.params types f.result

theorem Function.Finished.typed {Γ : Context} {f : Function} (finished : f.Finished Γ) :
    f.Typed Γ := by
  obtain ⟨⟨_, types, _, draft⟩, -⟩ := finished
  refine ⟨types, fun b mem => ?_⟩
  obtain ⟨i, got⟩ := mem_iff_getElem?.mp mem
  exact ⟨(draft.fits i b got).typed, (draft.fits i b got).returned⟩

end Ir

theorem Session.Analyzed.context {plainly : Prop} {s : Session} (analyzed : s.Analyzed plainly)
    (given : plainly) (clean : s.report.entries = []) (distinct : s.builder.module.Unambiguous) :
    s.context.Within s.builder.module.context where
  function := by
    rintro _ _ _ ⟨f, mem, rfl, rfl, rfl⟩
    exact ⟨f, Ir.find?_of_nodup distinct.functions mem, rfl, rfl⟩
  global := by
    rintro _ _ ⟨g, mem, rfl, rfl⟩
    exact ⟨g, Ir.find?_of_nodup distinct.globals mem, rfl⟩
  field := by
    rintro _ _ _ ⟨id, e, _, kind, rfl, got, rfl⟩
    have some := ne_nil_of_mem (mem_of_getElem? got)
    have alive := analyzed.valid.fields id (by rw [kind]; rfl) some
    refine ⟨_, _, analyzed.laid given clean id e kind alive some, rfl, ?_⟩
    rw [getElem?_map, got]
    rfl
  constant := fun _ _ _ => trivial

/-- Without problems and with unambiguous names, all code is well typed. -/
theorem analyze_typed (moduleName : String) (m : Module) (limits : Limits) (plain : Item.AllPlain m.items)
    (clean : (analyze moduleName m limits).report.entries = [])
    (distinct : (analyze moduleName m limits).builder.module.Unambiguous) :
    ∀ f ∈ (analyze moduleName m limits).builder.functions,
      f.Typed (analyze moduleName m limits).builder.module.context := by
  intro f mem
  have analyzed := analyze_analyzed moduleName m limits
  by_cases body : f.blocks = []
  · exact ⟨fun _ => none, fun b lies => by rw [body] at lies; cases lies⟩
  · exact ((analyzed.finished mem body).mono (analyzed.context plain clean distinct)).typed

def fieldAndConstant : Module :=
  ofText ("template T { x: int } const one: int = 1 " ++
    "func g(t: &T) => int { return t.x + one } func f() => int { let t: T return g(&t) }")

theorem analyze_typed_fieldAndConstant : (analyze "m" fieldAndConstant).report.entries = [] ∧
    ∀ f ∈ (analyze "m" fieldAndConstant).builder.functions,
      f.Typed (analyze "m" fieldAndConstant).builder.module.context := by
  have clean : (analyze "m" fieldAndConstant).report.entries = [] := by decide +kernel
  exact ⟨clean, analyze_typed "m" fieldAndConstant {} (by decide +kernel) clean
    ⟨by decide +kernel, by decide +kernel⟩⟩

def Module.ofChars (source : List Char) : Module :=
  (Grammar.parse Grammar.module source).toOption.getD default

theorem Module.ofText_eq_ofChars (source : String) :
    ofText source = ofChars source.toList := rfl

theorem Ir.Function.Typed.slot_passed {m : Ir.Module} {f g : Ir.Function} (typed : f.Typed m.context)
    {b : Ir.Block} (mem : b ∈ f.blocks) {k : Nat} {type : Ir.Ty}
    (slot : .alloca k type ∈ b.insts) {dst : Option Nat} {name : String} {args : List Ir.Value}
    {result : Ir.Ty} (call : .call dst (.function name) args result ∈ b.insts)
    (callee : m.function? name = some g) {i : Nat} (passed : args[i]? = some (.temp k)) :
    g.params[i]? = some (.pointer type) := by
  obtain ⟨_, code⟩ := typed
  obtain ⟨_, rfl, known⟩ := (code b mem).1 _ slot
  obtain ⟨_, ⟨⟨_, has, matching⟩, -⟩, -⟩ := (code b mem).1 _ call
  obtain ⟨_, _, ⟨g', present, rfl, -⟩, same⟩ := has
  obtain rfl : g = g' := Option.some.inj (callee.symm.trans present)
  obtain ⟨rfl, -⟩ := Ir.Ty.function.inj (Ir.Ty.pointer.inj same)
  obtain ⟨lies, here⟩ := List.getElem?_eq_some_iff.mp passed
  have fits := forall₂_iff_get.mp matching
  have other : i < g.params.length := fits.1 ▸ lies
  have has := fits.2 i lies other
  rw [get_eq_getElem, get_eq_getElem, here] at has
  rw [getElem?_eq_getElem other, ← Option.some.inj ((known k rfl).symm.trans has)]

def staleInstance : Module :=
  ofText ("spec S {} spec S2 {} spec U {} template T { x: int } template W { x: int } " ++
    "template H<P> { p: &P } template G<Q> { q: Q func f(self, h: &H<G<Q>>) {} } " ++
    "package p { template G { y: int } } template K<P: S2> { p: P } action T.Sp in G {} " ++
    "action W { func g(self, k: &K<p.G>) {} } action U in T { type Sp = S } " ++
    "action S2 in G<int> {} action S2 in p.G {} " ++
    "func main() { let g: G<int> let h: H<G<int>> g.f(&h) }")

/-- The declaration that is left over makes a call in a module without problems ill typed. -/
theorem analyze_staleInstance : (analyze "m" staleInstance).report.entries = [] ∧
    ¬∀ f ∈ (analyze "m" staleInstance).builder.functions,
      f.Typed (analyze "m" staleInstance).builder.module.context := by
  have got : (analyze "m" staleInstance).report.entries = [] ∧
      (∃ f ∈ (analyze "m" staleInstance).builder.functions, ∃ b ∈ f.blocks,
        .alloca 1 (.struct "H<G<int>>#2") ∈ b.insts ∧
        .call none (.function "G<int>.f") [.temp 0, .temp 1] .void ∈ b.insts) ∧
      ((analyze "m" staleInstance).builder.module.function? "G<int>.f").map (·.params) =
        some [.pointer (.struct "G<int>"), .pointer (.struct "H<G<int>>")] := by
    rw [staleInstance, Module.ofText_eq_ofChars]
    simp only [String.toList_append, String.reduceToList]
    decide +kernel
  generalize analyze "m" staleInstance = s at got
  obtain ⟨clean, ⟨f, mem, b, lies, slot, call⟩, params⟩ := got
  refine ⟨clean, fun typed => ?_⟩
  obtain ⟨g, callee, params⟩ := Option.map_eq_some_iff.mp params
  have snd := (typed f mem).slot_passed lies slot call callee (i := 1) rfl
  rw [params] at snd
  revert snd
  decide

end Stencil
