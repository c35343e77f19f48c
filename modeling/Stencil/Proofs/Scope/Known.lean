import Stencil.Proofs.Scope.Removal
import Stencil.Analysis.Declare

namespace Stencil

namespace Ty

def isStorable : Ty → Bool
  | .void | .spec _ _ => false
  | .int _ _ | .float _ | .pointer _ | .array _ _ | .struct _ _ | .function _ _ _ => true

mutual

def templates : Ty → List (String × ScopeId)
  | .struct name scope => [(name, scope)]
  | .pointer target => templates target
  | .array elem _ => templates elem
  | .function params result _ => templatesOf params ++ templates result
  | .void | .int _ _ | .float _ | .spec _ _ => []

def templatesOf : List Ty → List (String × ScopeId)
  | [] => []
  | type :: types => templates type ++ templatesOf types

end

mutual

def isNarrow : Ty → Bool
  | .int bits _ => bits ≤ 64
  | .pointer target => isNarrow target
  | .array elem _ => isNarrow elem
  | .function params result _ => areNarrow params && isNarrow result
  | .void | .float _ | .struct _ _ | .spec _ _ => true

def areNarrow : List Ty → Bool
  | [] => true
  | type :: types => isNarrow type && areNarrow types

end

/-- The integers of a type are narrow, and every template that it mentions is in the tree under the
same struct name. -/
def Known (t : ScopeTree) (type : Ty) : Prop :=
  type.isNarrow ∧
    ∀ name id, (name, id) ∈ type.templates → ∃ e, t.kind id = .template e ∧ e.structName = name

variable {t t' : ScopeTree} {spared : List ScopeId} {type elem target result : Ty}

theorem Known.mono (known : type.Known t) (h : t.Extends spared t') : type.Known t' := by
  refine ⟨known.1, fun name id mem => ?_⟩
  obtain ⟨e, kind, same⟩ := known.2 name id mem
  obtain ⟨e', kind', -, struct, -⟩ := h.kind_template kind
  exact ⟨e', kind', struct.trans same⟩

theorem known_scalar (narrow : type.isNarrow) (h : type.templates = []) : type.Known t := by
  refine ⟨narrow, fun _ _ mem => ?_⟩
  rw [h] at mem
  cases mem

theorem known_void : Known t .void := known_scalar rfl rfl

theorem known_int {bits : Nat} (signed : Bool) (narrow : bits ≤ 64) : Known t (.int bits signed) :=
  known_scalar (decide_eq_true narrow) rfl

theorem Known.bits_le (known : type.Known t) (integer : type.ir = .int type.bits) :
    type.bits ≤ 64 := by
  cases type <;> first | exact of_decide_eq_true known.1 | cases integer

theorem known_bool : Known t .bool := known_int false (by decide)

theorem known_float (bits : Nat) : Known t (.float bits) := known_scalar rfl rfl

theorem known_spec (name : String) (scope : ScopeId) : Known t (.spec name scope) :=
  known_scalar rfl rfl

theorem known_ofPrimitive (p : Primitive) : Known t (.ofPrimitive p) := by
  cases p <;> exact known_scalar rfl rfl

theorem known_pointer : Known t (.pointer target) ↔ target.Known t := Iff.rfl

theorem known_array {length : Nat} : Known t (.array elem length) ↔ elem.Known t := Iff.rfl

theorem known_struct {name : String} {scope : ScopeId} :
    Known t (.struct name scope) ↔ ∃ e, t.kind scope = .template e ∧ e.structName = name := by
  simp [Known, isNarrow, templates]

theorem mem_templatesOf {types : List Ty} {entry : String × ScopeId} :
    entry ∈ templatesOf types ↔ ∃ type ∈ types, entry ∈ type.templates := by
  induction types with
  | nil => simp [templatesOf]
  | cons fst rest ih => simp [templatesOf, ih]

theorem areNarrow_iff {types : List Ty} : areNarrow types ↔ ∀ type ∈ types, type.isNarrow := by
  induction types with
  | nil => simp [areNarrow]
  | cons fst rest ih => simp [areNarrow, ih]

theorem known_function {params : List Ty} {mem : Bool} : Known t (.function params result mem) ↔
      (∀ type ∈ params, type.Known t) ∧ result.Known t := by
  constructor
  · rintro ⟨narrow, known⟩
    obtain ⟨narrow, narrow'⟩ := Bool.and_eq_true_iff.mp narrow
    refine ⟨fun type has => ⟨areNarrow_iff.mp narrow type has, fun name id inner => ?_⟩,
      narrow', fun name id inner => ?_⟩
    · exact known name id (List.mem_append_left _ (mem_templatesOf.mpr ⟨type, has, inner⟩))
    · exact known name id (List.mem_append_right _ inner)
  rintro ⟨params, result⟩
  refine ⟨Bool.and_eq_true_iff.mpr ⟨areNarrow_iff.mpr fun type has => (params type has).1,
    result.1⟩, fun name id has => ?_⟩
  rcases List.mem_append.mp has with inner | inner
  · obtain ⟨type, has, inner⟩ := mem_templatesOf.mp inner
    exact (params type has).2 name id inner
  · exact result.2 name id inner

theorem Known.scope {id : ScopeId} (known : type.Known t) (got : type.structScope? = some id) :
    (t.kind id).template?.isSome := by
  cases type <;> simp only [structScope?, Option.some.injEq, reduceCtorEq] at got
  subst got
  obtain ⟨e, kind, -⟩ := known_struct.mp known
  rw [kind]
  rfl

end Ty

namespace ScopeTree

variable {t : ScopeTree} {scope : ScopeId} {type : Ty}

theorem selfType_known (got : t.selfType? scope = some type) : type.Known t := by
  obtain ⟨id, -, h⟩ := Option.bind_eq_some_iff.mp got
  cases kind : t.kind id <;> rw [kind] at h <;> cases h
  all_goals first
    | exact Ty.known_spec _ _
    | exact Ty.known_struct.mpr ⟨_, kind, rfl⟩

end ScopeTree

end Stencil
