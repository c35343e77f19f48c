import Stencil.Proofs.Lowering.Operation

namespace Stencil

open Analysis Ir

namespace Ir.Builder

variable {b : Builder} {id : Nat}

def appended (b : Builder) (id : Nat) (inst : Inst) : Builder :=
  { b.modifyBlock id fun block => { block with insts := block.insts ++ [inst] } with
    nextTemp := b.nextTemp + 1
    late := if b.isTerminated id then b.late + 1 else b.late }

theorem emitInto_eq (current : b.block = some id) (inst : Nat → Inst) :
    emitInto inst b = (.temp b.nextTemp, b.appended id (inst b.nextTemp)) := by
  obtain ⟨_, function, _, _, _, _⟩ := b
  cases current
  cases function <;> rfl

theorem block?_appended {block : Block} (here : b.block? id = some block) (inst : Inst) :
    (b.appended id inst).block? id = some { block with insts := block.insts ++ [inst] } := by
  obtain ⟨f, current, has⟩ := Option.bind_eq_some_iff.mp here
  obtain ⟨i, attached, got⟩ := Option.bind_eq_some_iff.mp current
  rw [functions] at got
  simp [block?, currentFunction?, appended, functions, modifyBlock, modifyFunction, attached, got,
    has]

end Ir.Builder

/-- An integer constant of an integer type or of truth values, or a floating-point constant of such
a type. -/
def TypedValue.IsLiteral (v : TypedValue) : Prop :=
  (∃ n bits signed, v = ⟨.int n, .int bits signed⟩) ∨ ∃ x bits, v = ⟨.float x, .float bits⟩

def Emits (b : Builder) (id : Nat) (v w : TypedValue) (b' : Builder) : Prop :=
  ∃ inst, b' = b.appended id inst ∧ inst.operands.head? = some v.value ∧
    inst.dst? = some b.nextTemp ∧ w.value = .temp b.nextTemp

variable {v w : TypedValue} {target : Ty} {c : Conversion} {implicit : Bool} {p : Problem}
  {b b' : Builder} {id : Nat}

theorem Emits.of_emitInto (current : b.block = some id) (inst : Nat → Inst)
    (source : ∀ t, (inst t).operands.head? = some v.value) (dst : ∀ t, (inst t).dst? = some t)
    (run : (Builder.emitInto inst >>= fun a => pure ⟨a, target⟩) b = (w, b')) :
    w.type = target ∧ Emits b id v w b' := by
  have result : (Builder.emitInto inst >>= fun a => pure (⟨a, target⟩ : TypedValue)) b =
      (⟨(Builder.emitInto inst b).1, target⟩, (Builder.emitInto inst b).2) := rfl
  rw [result, Builder.emitInto_eq current] at run
  cases run
  exact ⟨rfl, _, rfl, source _, dst _, rfl⟩

theorem conversion_kind (got : conversion v.value v.type target implicit = .error p) :
    p.kind = .noConversion := by
  unfold conversion at got
  dsimp only at got
  repeat' split at got
  all_goals cases got <;> rfl

theorem conversion_explicit (got : conversion v.value v.type target true = .ok c) :
    conversion v.value v.type target false = .ok c := by
  unfold conversion at got ⊢
  cases value : v.value.int? <;> grind

theorem conversion_float (float : v.type.isFloat) (integer : target.isInteger) :
    conversion v.value v.type target true = .error (needsCast v.type target) ∧
      ∃ c, conversion v.value v.type target false = .ok c := by
  have apart : target.isFloat = false := by cases target <;> first | rfl | cases integer
  simp [conversion, float, integer, apart]

theorem foldCast?_literal {kind : CastKind} (literal : v.IsLiteral)
    (got : conversion v.value v.type target implicit = .ok (.instruction kind)) :
    foldCast? kind v.value target ≠ none := by
  rcases literal with ⟨n, bits, signed, rfl⟩ | ⟨x, bits, rfl⟩
  · have other : (Ty.int bits signed).isFloat = false ∧ (Ty.int bits signed).isPointer = false :=
      ⟨rfl, rfl⟩
    simp only [conversion, other, Bool.false_and, Bool.false_eq_true, if_false] at got
    repeat' split at got
    all_goals cases got <;> simp [foldCast?]
  have other : (Ty.float bits).isInteger = false ∧ (Ty.float bits).isBool = false ∧
      (Ty.float bits).isPointer = false := ⟨rfl, rfl, rfl⟩
  simp only [conversion, other, Bool.false_and, Bool.false_eq_true, if_false] at got
  repeat' split at got
  all_goals cases got <;> simp [foldCast?]

theorem Conversion.apply_exact (named : target ≠ .int 1 true)
    (got : conversion v.value v.type target implicit = .ok c) (current : b.block = some id)
    (run : c.apply v target b = (w, b')) :
    w.type = target ∧ (b' = b ∨ ¬v.IsLiteral ∧ Emits b id v w b') := by
  obtain ⟨value, source⟩ := v
  cases c with
  | reinterpret => cases value <;> cases run <;> exact ⟨rfl, .inl rfl⟩
  | test =>
    obtain ⟨integer, bool⟩ := conversion_fits got
    obtain rfl : target = .bool := by
      unfold Ty.isBool at bool
      split at bool
      · simp_all
      · cases bool
    cases value with
    | int =>
      cases run
      exact ⟨rfl, .inl rfl⟩
    | _ =>
    obtain ⟨type, emits⟩ := Emits.of_emitInto current
      (.compare · .ne source.ir source.isSigned _ (.int 0)) (fun _ => rfl) (fun _ => rfl) run
    refine ⟨type, .inr ⟨?_, emits⟩⟩
    rintro (⟨_, _, _, ⟨⟩⟩ | ⟨_, _, ⟨⟩⟩) <;> cases integer
  | instruction kind =>
  cases folded : foldCast? kind value target with
  | some =>
    simp only [Conversion.apply, folded] at run
    cases run
    exact ⟨rfl, .inl rfl⟩
  | none =>
  simp only [Conversion.apply, folded] at run
  obtain ⟨type, emits⟩ := Emits.of_emitInto (v := ⟨value, source⟩) current
    (.cast · kind source.ir target.ir value) (fun _ => rfl) (fun _ => rfl) run
  exact ⟨type, .inr ⟨fun literal => foldCast?_literal literal got folded, emits⟩⟩

section

variable {s s' : Session} {span : Span} {d : Diagnostic}

theorem convertTo_effect (named : target ≠ .int 1 true) (current : s.builder.block = some id)
    (run : convertTo v target implicit span s = .ok w s') : w.type = target ∧
      (s' = s ∨ ¬v.IsLiteral ∧ Emits s.builder id v w s'.builder ∧
        s' = { s with builder := s'.builder }) := by
  by_cases same : v.type = target
  · rw [convertTo_same same] at run
    cases run
    exact ⟨same, .inl rfl⟩
  cases got : conversion v.value v.type target implicit with
  | error =>
    rw [convertTo_error same got] at run
    cases run
  | ok c =>
  rw [convertTo_ok same got] at run
  cases run
  obtain ⟨type, kept | ⟨other, emits⟩⟩ := c.apply_exact named got current rfl
  · exact ⟨type, .inl (by rw [kept])⟩
  · exact ⟨type, .inr ⟨other, emits, rfl⟩⟩

theorem convertTo_refused (run : convertTo v target implicit span s = .error d s') :
    d.problem.kind = .noConversion ∧ s' = s := by
  by_cases same : v.type = target
  · rw [convertTo_same same] at run
    cases run
  cases got : conversion v.value v.type target implicit with
  | error =>
    rw [convertTo_error same got] at run
    cases run
    exact ⟨conversion_kind got, rfl⟩
  | ok =>
    rw [convertTo_ok same got] at run
    cases run

theorem convertTo_explicit (run : convertTo v target true span s = .ok w s') :
    convertTo v target false span s = .ok w s' := by
  by_cases same : v.type = target
  · rwa [convertTo_same same] at run ⊢
  cases got : conversion v.value v.type target true with
  | error =>
    rw [convertTo_error same got] at run
    cases run
  | ok =>
    rw [convertTo_ok same got] at run
    rwa [convertTo_ok same (conversion_explicit got)]

end

/-- The outcome of a conversion: a value of the target, with at most one instruction emitted and none
for a literal, or a refusal that changes nothing. What is converted implicitly is cast in the same
way, and a float becomes an integer only by a cast. The one target left out is the signed type of one
bit, which has no name. -/
theorem convertTo_exact (v : TypedValue) {target : Ty} (named : target ≠ .int 1 true) {s : Session}
    {id : Nat} {block : Ir.Block} (current : s.builder.block = some id)
    (opened : s.builder.block? id = some block) (span : Span) :
    (∀ implicit w s', convertTo v target implicit span s = .ok w s' → w.type = target ∧
      (s' = s ∨ ¬v.IsLiteral ∧ ∃ inst, s' = { s with builder := s.builder.appended id inst } ∧
        s'.builder.block? id = some { block with insts := block.insts ++ [inst] } ∧
        inst.operands.head? = some v.value ∧ inst.dst? = some s.builder.nextTemp ∧
        w.value = .temp s.builder.nextTemp)) ∧
    (∀ implicit d s', convertTo v target implicit span s = .error d s' →
      d.problem.kind = .noConversion ∧ s' = s) ∧
    (∀ w s', convertTo v target true span s = .ok w s' →
      convertTo v target false span s = .ok w s') ∧
    (v.type.isFloat = true → target.isInteger = true →
      (∃ d, convertTo v target true span s = .error d s) ∧
        ∃ w s', convertTo v target false span s = .ok w s') := by
  refine ⟨fun implicit w s' run => ?_, fun _ _ _ => convertTo_refused,
    fun _ _ => convertTo_explicit, fun float integer => ?_⟩
  · obtain ⟨type, kept | ⟨other, ⟨inst, built, rest⟩, only⟩⟩ := convertTo_effect named current run
    · exact ⟨type, .inl kept⟩
    · refine ⟨type, .inr ⟨other, inst, built ▸ only, ?_, rest⟩⟩
      rw [built]
      exact Builder.block?_appended opened inst
  · have other : v.type ≠ target := by
      rintro rfl
      cases type : v.type <;> simp_all [Ty.isFloat, Ty.isInteger]
    obtain ⟨refused, c, cast⟩ := conversion_float float integer
    rw [convertTo_error other refused, convertTo_ok other cast]
    exact ⟨⟨_, rfl⟩, _, _, rfl⟩

def openEntry : Session :=
  { Session.new "m" with
    builder := (Builder.beginBody 0 (Builder.declareFunction "f" [] .void true (.new "m")).2).2 }

/-- A sign is extended in the same way with and without a cast. -/
theorem convertTo_exact_signExtension : ∃ s',
    convertTo ⟨.param 0, .int 8 true⟩ (.int 16 true) true {} openEntry =
        .ok ⟨.temp 0, .int 16 true⟩ s' ∧
      convertTo ⟨.param 0, .int 8 true⟩ (.int 16 true) false {} openEntry =
        .ok ⟨.temp 0, .int 16 true⟩ s' := by
  refine ⟨_, rfl, ?_⟩
  exact (convertTo_exact ⟨.param 0, .int 8 true⟩ (by decide) (s := openEntry) (by rfl) (by rfl)
    {}).2.2.1 _ _ rfl

end Stencil
