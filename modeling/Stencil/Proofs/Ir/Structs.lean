import Mathlib.Data.List.Range
import Stencil.Ir.Builder
import Stencil.Proofs.Ir.Range

namespace Stencil.Ir

open List

def Module.HasBody (m : Module) (name : String) (fields : List Ty) : Prop :=
  m.struct? name = some ⟨name, some fields⟩

theorem Module.HasBody.unique {m : Module} {name : String} {fields fields' : List Ty}
    (has : m.HasBody name fields) (has' : m.HasBody name fields') : fields = fields' :=
  Option.some.inj (Struct.mk.inj (Option.some.inj (has.symm.trans has'))).2

def Module.Defines (m : Module) (name : String) : Prop :=
  ∃ fields, m.struct? name = some ⟨name, some fields⟩

def literalName (n : Nat) : String := ".str." ++ toString n

theorem literalName_injective : Function.Injective literalName := by
  intro n n' same
  have digits : Nat.toDigits 10 n = Nat.toDigits 10 n' := by
    have chars := congrArg String.toList same
    simpa [literalName, String.toList_append, Nat.toString_eq_repr, Nat.toList_repr] using chars
  rw [← Nat.ofDigitChars_ten_toDigits (n := n), digits, Nat.ofDigitChars_ten_toDigits]

def Global.isLiteral (g : Global) : Bool :=
  match g.init with
  | some (.bytes _) => true
  | _ => false

def Module.literals (m : Module) : List String :=
  (m.globals.filter Global.isLiteral).map (·.name)

/-- A global is a number or a text, and an integer fits its type. -/
inductive Global.Typed : Global → Prop
  | int {name : String} {n : Int} {bits : Nat} {constant : Bool} (fitting : Fitting n bits) :
    Typed ⟨name, .int bits, some (.int n), constant⟩
  | float {name : String} {x : Float} {bits : Nat} {constant : Bool} :
    Typed ⟨name, .float bits, some (.float x), constant⟩
  | bytes {name : String} {content : List UInt8} {count : Nat} {constant : Bool} :
    Typed ⟨name, .array (.int 8) count, some (.bytes content), constant⟩

/-- Structs differ by their names, literals are numbered in their order, and globals have the type of
what they start as. -/
structure Builder.Orderly (b : Builder) : Prop where
  structs : (b.module.structs.map (·.name)).Nodup
  literals : b.module.literals = (List.range b.nextString).map literalName
  typed : ∀ g ∈ b.module.globals, g.Typed

namespace Builder

variable {name other : String} {fields : List Ty} {structs : List Struct} {b : Builder}

theorem find_setFields_other (apart : other ≠ name) :
    (setFields name fields structs).find? (·.name = other) = structs.find? (·.name = other) := by
  induction structs with
  | nil => rfl
  | cons s rest ih =>
  rw [setFields]
  split
  · rename_i same
    have differs : ¬s.name = other := fun h => apart (h.symm.trans same)
    simp [differs]
  · simp only [find?_cons, ih]

theorem find_setFields_same (has : (structs.find? (·.name = name)).isSome) :
    (setFields name fields structs).find? (·.name = name) = some ⟨name, some fields⟩ := by
  induction structs with
  | nil => cases has
  | cons s rest ih =>
  rw [setFields]
  split
  · rename_i same
    subst same
    simp
  rename_i differs
  simp only [find?_cons, differs, decide_false] at has ⊢
  exact ih has

def withStruct (b : Builder) (name : String) : Builder :=
  if (b.module.struct? name).isSome then b
  else { b with module.structs := b.module.structs ++ [⟨name, none⟩] }

theorem declareStruct_run (name : String) (b : Builder) :
    declareStruct name b = ((), b.withStruct name) := rfl

def withFields (b : Builder) (name : String) (fields : List Ty) : Builder :=
  { b.withStruct name with
    module.structs := setFields name fields (b.withStruct name).module.structs }

theorem defineStruct_run (name : String) (fields : List Ty) (b : Builder) :
    defineStruct name fields b = ((), b.withFields name fields) := rfl

theorem withStruct_eq (b : Builder) (name : String) : b.withStruct name =
    { b with module.structs := (b.withStruct name).module.structs } := by
  unfold withStruct
  split <;> rfl

theorem struct_withStruct_isSome (b : Builder) (name : String) :
    ((b.withStruct name).module.struct? name).isSome := by
  unfold withStruct
  split
  · assumption
  · simp [Module.struct?]

/-- Declaring a struct gives none its fields and takes none away. -/
theorem hasBody_withStruct : (b.withStruct name).module.HasBody other fields ↔
    b.module.HasBody other fields := by
  unfold withStruct
  split
  · rfl
  unfold Module.HasBody Module.struct?
  rw [find?_append]
  cases b.module.structs.find? (·.name = other) with
  | some => rfl
  | none => by_cases same : name = other <;> simp [same]

theorem hasBody_withFields_same (b : Builder) (name : String) (fields : List Ty) :
    (b.withFields name fields).module.HasBody name fields :=
  find_setFields_same (struct_withStruct_isSome b name)

theorem hasBody_withFields_other {layout : List Ty} (apart : other ≠ name) :
    (b.withFields name layout).module.HasBody other fields ↔ b.module.HasBody other fields :=
  (iff_of_eq (congrArg (· = _) (find_setFields_other apart))).trans hasBody_withStruct

theorem defines_withFields (defined : b.module.Defines other) :
    (b.withFields name fields).module.Defines other := by
  by_cases same : other = name
  · subst same
    exact ⟨fields, hasBody_withFields_same b other fields⟩
  obtain ⟨known, has⟩ := defined
  exact ⟨known, (hasBody_withFields_other same).mpr has⟩

theorem defines_withStruct (defined : b.module.Defines other) :
    (b.withStruct name).module.Defines other := by
  obtain ⟨known, has⟩ := defined
  exact ⟨known, hasBody_withStruct.mpr has⟩

theorem Orderly.congr {b' : Builder} (orderly : b.Orderly)
    (structs : b'.module.structs = b.module.structs)
    (globals : b'.module.globals = b.module.globals) (strings : b'.nextString = b.nextString) :
    b'.Orderly := by
  refine ⟨structs ▸ orderly.structs, ?_, globals ▸ orderly.typed⟩
  rw [Module.literals, globals, strings]
  exact orderly.literals

theorem nodup_withStruct (distinct : (b.module.structs.map (·.name)).Nodup) (name : String) :
    ((b.withStruct name).module.structs.map (·.name)).Nodup := by
  unfold withStruct
  split
  · exact distinct
  rename_i absent
  rw [map_append, nodup_append]
  refine ⟨distinct, by simp, ?_⟩
  rintro _ mem _ here same
  obtain ⟨s, has, rfl⟩ := mem_map.mp mem
  rw [map_singleton, mem_singleton] at here
  refine absent (find?_isSome.mpr ⟨s, has, decide_eq_true ?_⟩)
  exact same.trans here

theorem orderly_withStruct (orderly : b.Orderly) (name : String) : (b.withStruct name).Orderly := by
  refine ⟨nodup_withStruct orderly.structs name, ?_, ?_⟩
  · rw [withStruct_eq]
    exact orderly.literals
  rw [withStruct_eq]
  exact orderly.typed

theorem names_setFields (structs : List Struct) :
    (setFields name fields structs).map (·.name) = structs.map (·.name) := by
  induction structs with
  | nil => rfl
  | cons s rest ih =>
  rw [setFields]
  split
  · rfl
  · rw [map_cons, map_cons, ih]

theorem nodup_withFields (distinct : (b.module.structs.map (·.name)).Nodup) (name : String)
    (fields : List Ty) : ((b.withFields name fields).module.structs.map (·.name)).Nodup := by
  rw [withFields, names_setFields]
  exact nodup_withStruct distinct name

theorem orderly_withFields (orderly : b.Orderly) (name : String) (fields : List Ty) :
    (b.withFields name fields).Orderly := by
  obtain ⟨-, literals, typed⟩ := orderly_withStruct orderly name
  exact ⟨nodup_withFields orderly.structs name fields, literals, typed⟩

theorem Orderly.integers (orderly : b.Orderly) : ∀ g ∈ b.module.globals, ∀ n,
    g.init = some (.int n) → ∃ bits, g.type = .int bits ∧ Fitting n bits := by
  intro g mem n number
  cases orderly.typed g mem with
  | int fitting =>
    cases number
    exact ⟨_, rfl, fitting⟩
  | float | bytes => cases number

variable {g : Global}

theorem typed_concat (orderly : b.Orderly) (last : g.Typed) :
    ∀ g' ∈ b.module.globals ++ [g], g'.Typed := by
  exact forall_mem_append.mpr ⟨orderly.typed, forall_mem_singleton.mpr last⟩

theorem orderly_withLiteral (orderly : b.Orderly) {content : List UInt8}
    (typed : g.Typed) (text : g.init = some (.bytes content))
    (named : g.name = literalName b.nextString) :
    ({ b with module.globals := b.module.globals ++ [g], nextString := b.nextString + 1 } :
      Builder).Orderly := by
  refine ⟨orderly.structs, ?_, typed_concat orderly typed⟩
  have before := orderly.literals
  rw [Module.literals] at before ⊢
  rw [filter_append, map_append, before, range_succ, map_append]
  simp [Global.isLiteral, text, named]

theorem orderly_withGlobal (orderly : b.Orderly) (typed : g.Typed)
    (other : ∀ content, g.init ≠ some (.bytes content)) :
    ({ b with module.globals := b.module.globals ++ [g] } : Builder).Orderly := by
  refine ⟨orderly.structs, ?_, typed_concat orderly typed⟩
  have skipped : g.isLiteral = false := by
    unfold Global.isLiteral
    split
    · rename_i content text
      exact absurd text (other content)
    · rfl
  have before := orderly.literals
  rw [Module.literals] at before ⊢
  rw [filter_append, filter_singleton, skipped]
  simpa using before

theorem withFields_eq (b : Builder) (name : String) (fields : List Ty) : b.withFields name fields =
      { b with module.structs := (b.withFields name fields).module.structs } := by
  unfold withFields
  rw [withStruct_eq]

end Builder

end Stencil.Ir
