import Stencil.Proofs.Meaning.Expr

namespace Stencil

open Analysis Tracked Ir Local Expr

variable {n : Nat}

theorem fits_small (small : n < Nat.pow 2 31) : fits n 32 true := by
  have double : Nat.pow 2 32 = 2 * Nat.pow 2 31 := by decide
  have least : leastInt 32 true = -Nat.pow 2 31 := rfl
  rw [fits_iff_least (by decide) (by decide)]
  omega

theorem normalize_small (small : n < Nat.pow 2 31) : normalize n 32 true = n :=
  normalize_of_fits (by decide) (by decide) (fits_small small)

theorem minUnsignedWidth_small (small : n < Nat.pow 2 31) :
    minUnsignedWidth n = 8 ∨ minUnsignedWidth n = 16 ∨ minUnsignedWidth n = 32 := by
  have large : n < Nat.pow 2 32 := Nat.lt_trans small (by decide)
  unfold minUnsignedWidth
  by_cases fst : n < Nat.pow 2 8
  · exact .inl (if_pos fst)
  rw [if_neg fst]
  by_cases snd : n < Nat.pow 2 16
  · exact .inr (.inl (if_pos snd))
  rw [if_neg snd, if_pos large]
  exact .inr (.inr rfl)

theorem conversion_fitting {k : Int} {source target : Ty} (integer : source.isInteger)
    (integer' : target.isInteger) (plain : source.isFloat = false)
    (fit : fits k target.bits target.isSigned) :
    conversion (.int k) source target true =
      if source.bits < target.bits then
        .ok (.instruction (if source.isSigned then .sext else .zext))
      else if target.bits < source.bits then .ok (.instruction .trunc) else .ok .reinterpret := by
  have plain' : target.isFloat = false := by
    cases target <;> first | rfl | cases integer'
  simp only [conversion, integer, integer', plain, plain', fit, Ir.Value.int?, Bool.and_self,
    Bool.false_and, Bool.and_false, Bool.not_true, Bool.false_eq_true, if_false, if_true,
    Option.bind_eq_bind, Option.bind_some]

theorem convertTo_literal {span : Span} (small : n < Nat.pow 2 31) :
    convertTo ⟨.int n, .int (minUnsignedWidth n) false⟩ (.int 32 true) true span =
      pure ⟨.int n, .int 32 true⟩ := by
  have fit := fits_small small
  have width := minUnsignedWidth_small small
  generalize minUnsignedWidth n = w at width
  have given : (⟨.int (normalize n 32 true), .int 32 true⟩ : TypedValue) = ⟨.int n, .int 32 true⟩ := by
    rw [normalize_small small]
  have integer : (Ty.int w false).isInteger := by
    rcases width with rfl | rfl | rfl <;> rfl
  have converts : conversion (.int n) (.int w false) (.int 32 true) true =
      if w < 32 then .ok (.instruction .zext)
      else if 32 < w then .ok (.instruction .trunc) else .ok .reinterpret :=
    conversion_fitting integer rfl rfl fit
  have other : (⟨.int n, .int w false⟩ : TypedValue).type ≠ .int 32 true := by simp
  rw [← given]
  by_cases less : w < 32
  · rw [if_pos less] at converts
    exact convertTo_ok other converts
  have same : ¬32 < w := by omega
  rw [if_neg less, if_neg same] at converts
  exact convertTo_ok other converts

variable {vars : List Local} {e : Expr} {type : ScalarType} {x y : Spot} {v : Value} {r : Resolver}
  {span : Span}

structure Yields (vars : List Local) (e : Expr) (type : ScalarType) (x : Spot) (v : Value)
    (y : Spot) : Prop where
  usable : y.Usable v type.ty.ir
  tree : y.tree = x.tree
  runs : ∀ last args m env,
    y.toSite.Advances last → last.Stacked m → Hold m vars env →
      ∃ s, e.eval env = some s ∧ s.type = type ∧ Computes last args m x y v s

theorem Evaluates.yields {w : TypedValue} (evaluates : Evaluates vars e type x w y) :
    Yields vars e type x w.value y where
  usable := by
    rw [← evaluates.typed]
    exact evaluates.sound.usable
  tree := evaluates.tree
  runs := evaluates.runs

/-- A whole value is an integer literal or has its type by itself. -/
theorem Expr.isScalar_cases {names : Typing} (given : e.isScalar names type) :
    (∃ n span, e = .int n span ∧ type = .int ∧ n.toNat < Nat.pow 2 31) ∨
      e.scalar? names = some type := by
  cases e with
  | int n span =>
    obtain ⟨int, small⟩ := Bool.and_eq_true_iff.mp given
    exact .inl ⟨n, span, rfl, of_decide_eq_true int, of_decide_eq_true small⟩
  | _ => exact .inr (of_decide_eq_true given)

theorem Expr.convert_yields (r : Resolver) (span : Span)
    (given : e.isScalar (typing vars) type) (knows : x.toSite.Knows vars) :
    Keeps (e.lower r (some type.ty) >>= fun v => convertTo v type.ty true span) x fun v y =>
      Yields vars e type x v.value y := by
  rcases isScalar_cases given with ⟨n, _, rfl, rfl, small⟩ | typed
  · rw [lower, meaning, pure_bind]
    change Keeps (pure _ >>= _) x _
    rw [pure_bind, show ScalarType.int.ty = .int 32 true from rfl, convertTo_literal small]
    refine .pure ⟨⟨trivial, 32, rfl, fitting_of_fits (by decide) (fits_small small)⟩, rfl,
      fun _ _ m _ _ stacked _ => ?_⟩
    refine ⟨.int (.ofNat 32 n.toNat), rfl, rfl, computes_here stacked ?_⟩
    exact congrArg (fun w : BitVec 32 => some (Ir.Cell.word w.toNat))
      (BitVec.ofInt_natCast 32 n.toNat)
  refine .bind (lower_evaluates typed (some type.ty) x knows) fun v y _ evaluates => ?_
  rw [convertTo_same evaluates.typed]
  exact .pure evaluates.yields

theorem fill_whole (given : e.isScalar (typing vars) type) (addr : Value) (ty : Ty) :
    fill r addr ty e = pure false := by
  cases e <;> first | rfl | cases given

structure Stores (vars : List Local) (e : Expr) (type : ScalarType) (k : Nat) (x y : Spot) : Prop where
  tree : y.tree = x.tree
  runs : ∀ last args m env,
    y.toSite.Advances last → last.Stacked m → Hold m vars env →
      ∃ s n m', e.eval env = some s ∧ s.type = type ∧
        last.draft.Travels args n (x.state last.draft m) (y.state last.draft m') ∧ last.Stacked m' ∧
          m'.slots k = some s.cell ∧
            ∀ j, j < x.nextTemp → j ≠ k → m'.slots j = m.slots j

theorem Expr.lowerInto_stores (given : e.isScalar (typing vars) type)
    (knows : x.toSite.Knows vars) {k : Nat} (slot : x.draft.HasSlot k type.ty.ir) :
    Keeps (e.lowerInto r (.temp k) type.ty) x fun _ y => Stores vars e type k x y := by
  have stored : ∀ (v : TypedValue) (y : Spot), x.Flows y → Yields vars e type x v.value y →
      Keeps (storeAt type.ty (.temp k) v.value) y fun _ z => Stores vars e type k x z := by
    intro v y way yields
    refine (storeAt_keeps (y.slot_usable (way.draft.slots _ _ slot)) yields.usable).mono ?_
    rintro _ z reached' ⟨emits, -⟩
    refine ⟨emits.tree.trans yields.tree, fun last args m env advanced stacked hold => ?_⟩
    obtain ⟨s, evaluated, typed, n, m', travels, kept, stacked, value⟩ :=
      yields.runs last args m env (reached'.advances.trans advanced) stacked hold
    rw [typed] at value
    have address := stacked _ _
      ((way.trans reached').advances.trans advanced |>.draft.slots _ _ slot)
    refine ⟨s, n + 1, m'.setSlot k s.cell, evaluated, typed,
      travels.trans (emits.step rfl advanced (run_store address value)), stacked.setSlot _ _,
      Ir.Memory.slots_setSlot .., fun j below other => ?_⟩
    exact (if_neg other).trans (kept.slots j below)
  have whole := Keeps.bind (convert_yields r e.span given knows) stored
  simp only [lower, bind_assoc] at whole
  unfold lowerInto
  rw [fill_whole given, pure_bind]
  exact whole

theorem returnValue_yields (given : e.isScalar (typing vars) type) (knows : x.toSite.Knows vars) :
    Keeps (returnValue r type.ty (some e) span) x fun value y =>
      ∃ v, value = some v ∧ Yields vars e type x v y := by
  refine .check rfl fun _ => ?_
  have given' : ∀ (v : TypedValue) (y : Spot), x.Flows y → Yields vars e type x v.value y →
      Keeps (pure (some v.value)) y fun value z => ∃ v, value = some v ∧ Yields vars e type x v z :=
    fun v y _ yields => Keeps.pure ⟨v.value, rfl, yields⟩
  have whole := Keeps.bind (convert_yields r e.span given knows) given'
  rwa [bind_assoc] at whole

end Stencil
