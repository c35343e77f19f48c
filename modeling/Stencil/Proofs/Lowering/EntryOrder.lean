import Stencil.Proofs.Lowering.Literals

namespace Stencil

variable {a b c d e : Ty}

def numberTypes : List Ty :=
  .double :: widths.flatMap fun w => [.int w false, .int w true]

theorem mem_numberTypes (usual : a.isUsual) (numeric : a.isNumeric) :
    a ∈ numberTypes := by
  rcases numeric_cases usual numeric with ⟨w, width, signed, rfl⟩ | rfl
  · refine .tail _ (List.mem_flatMap.mpr ⟨w, width, ?_⟩)
    cases signed <;> simp
  · exact .head _

theorem commonType_numbers : ∀ a ∈ numberTypes, ∀ b ∈ numberTypes,
    (commonType a b).any Ty.isNumeric := by
  decide +kernel

theorem commonType_numbers_swap : ∀ a ∈ numberTypes, ∀ b ∈ numberTypes, ∀ c ∈ numberTypes,
    (commonType a b).bind (commonType · c) = (commonType a c).bind (commonType · b) := by
  decide +kernel

theorem commonType_comm (a b : Ty) : commonType a b = commonType b a := by
  unfold commonType
  by_cases same : a = b
  · rw [same]
  rw [if_neg same, if_neg (Ne.symm same)]
  cases a.isSigned <;> cases b.isSigned <;> simp [Bool.or_comm, Nat.max_comm]

theorem commonType_other (common : commonType a b = some c)
    (other : ¬(a.isNumeric ∧ b.isNumeric)) : a = b ∧ c = a := by
  unfold commonType at common
  split at common
  · exact ⟨‹_›, (Option.some.inj common).symm⟩
  rw [if_pos (by simpa [imp_iff_not_or] using other)] at common
  cases common

theorem commonType_swap (usual : a.isUsual) (usual' : b.isUsual)
    (usual'' : c.isUsual) (fst : commonType a b = some d)
    (snd : commonType d c = some e) :
    ∃ d', commonType a c = some d' ∧ commonType d' b = some e := by
  by_cases numeric : a.isNumeric ∧ b.isNumeric
  · have left := mem_numberTypes usual numeric.1
    have right := mem_numberTypes usual' numeric.2
    by_cases last : c.isNumeric
    · have swap := commonType_numbers_swap a left b right c (mem_numberTypes usual'' last)
      rw [fst, Option.bind_some, snd] at swap
      exact Option.bind_eq_some_iff.mp swap.symm
    have number := commonType_numbers a left b right
    rw [fst] at number
    obtain ⟨rfl, -⟩ := commonType_other snd fun both => last both.2
    exact absurd number last
  obtain ⟨rfl, rfl⟩ := commonType_other fst numeric
  obtain ⟨rfl, rfl⟩ := commonType_other snd fun both => numeric ⟨both.1, both.1⟩
  exact ⟨_, fst, fst⟩

theorem literalType_usual {item : Expr} (got : literalType item = .ok a) : a.isUsual := by
  cases item with
  | int n =>
    cases got
    simp [Ty.isUsual, (minUnsignedWidth_least n.toNat_lt).1]
  | array =>
    obtain ⟨_, _, _, _, -, -, -, rfl⟩ := Expr.literalType_array got
    rfl
  | unary op arg =>
    cases op <;> cases arg <;> simp [literalType] at got <;> subst got
    · simp [Ty.isUsual, minSignedWidth_mem]
    · rfl
  | float | bool | string =>
    simp [literalType] at got
    subst got
    rfl
  | _ => simp [literalType] at got

namespace Expr

variable {items items' : List Expr}

theorem widenedType_cons_iff {item : Expr} : widenedType a (item :: items) = .ok c ↔
    ∃ t wider, literalType item = .ok t ∧ commonType a t = some wider ∧
      widenedType wider items = .ok c := by
  refine ⟨widenedType_cons, ?_⟩
  rintro ⟨t, _, known, common, rest⟩
  simp only [widenedType, known, bind, Except.bind, common, rest]

theorem widenedType_perm (perm : items.Perm items') (usual : a.isUsual)
    (got : widenedType a items = .ok c) : widenedType a items' = .ok c := by
  induction perm generalizing a with
  | nil => exact got
  | cons item _ ih =>
    obtain ⟨t, wider, known, common, rest⟩ := widenedType_cons_iff.mp got
    have usual' := (commonType_widens usual (literalType_usual known) common).2.2.1
    exact widenedType_cons_iff.mpr ⟨t, wider, known, common, ih usual' rest⟩
  | swap =>
    obtain ⟨t, _, known, common, got⟩ := widenedType_cons_iff.mp got
    obtain ⟨t', wider', known', common', rest⟩ := widenedType_cons_iff.mp got
    obtain ⟨between, fst, snd⟩ := commonType_swap usual (literalType_usual known)
      (literalType_usual known') common common'
    refine widenedType_cons_iff.mpr ⟨t', between, known', fst, ?_⟩
    exact widenedType_cons_iff.mpr ⟨t, wider', known, snd, rest⟩
  | trans _ _ ih ih' => exact ih' usual (ih usual got)

theorem literalType_array_cons {fst : Expr} {rest : List Expr} {span : Span} :
    literalType (array (fst :: rest) span) = .ok c ↔ ∃ a elem, literalType fst = .ok a ∧
      widenedType a rest = .ok elem ∧ c = .array elem (rest.length + 1) := by
  constructor
  · intro got
    obtain ⟨_, _, a, elem, same, head, tail, rfl⟩ := literalType_array got
    cases same
    exact ⟨a, elem, head, tail, rfl⟩
  rintro ⟨a, _, head, tail, rfl⟩
  simp only [literalType, head, tail, bind, Except.bind]
  rfl

theorem array_perm (perm : items.Perm items') (span span' : Span)
    (got : literalType (array items span) = .ok c) :
    literalType (array items' span') = .ok c := by
  induction perm generalizing span span' with
  | nil => cases items <;> simp [literalType] at got
  | cons item perm =>
    obtain ⟨a, elem, head, tail, rfl⟩ := literalType_array_cons.mp got
    have tail' := widenedType_perm perm (literalType_usual head) tail
    exact literalType_array_cons.mpr ⟨a, elem, head, tail', by rw [perm.length_eq]⟩
  | swap =>
    obtain ⟨a, elem, head, tail, rfl⟩ := literalType_array_cons.mp got
    obtain ⟨t, wider, known, common, rest⟩ := widenedType_cons_iff.mp tail
    rw [commonType_comm] at common
    refine literalType_array_cons.mpr ⟨t, elem, known, ?_, rfl⟩
    exact widenedType_cons_iff.mpr ⟨a, wider, head, common, rest⟩
  | trans _ _ ih ih' => exact ih' span span' (ih span span got)

/-- An array literal has a type in every order of its entries or in none, and always the same. -/
theorem literalType_array_perm (perm : items.Perm items') (span span' : Span) (type : Ty) :
    literalType (array items span) = .ok type ↔ literalType (array items' span') = .ok type :=
  ⟨array_perm perm span span', array_perm perm.symm span' span⟩

/-- A negative entry at the end widens the entries before it. -/
theorem literalType_array_perm_negativeLast :
    literalType (array [.int 3 {}, .int 300 {}, .unary .neg (.int 1 {}) {}] {}) =
        .ok (.array (.int 32 true) 3) ∧
      literalType (array [.unary .neg (.int 1 {}) {}, .int 300 {}, .int 3 {}] {}) =
        .ok (.array (.int 32 true) 3) := by
  have got : literalType (array [.int 3 {}, .int 300 {}, .unary .neg (.int 1 {}) {}] {}) =
      .ok (.array (.int 32 true) 3) := by rfl
  exact ⟨got, (literalType_array_perm (List.reverse_perm _).symm {} {} _).mp got⟩

end Expr

end Stencil
