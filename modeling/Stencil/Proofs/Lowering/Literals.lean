import Stencil.Proofs.Lowering.Arithmetic
import Stencil.Proofs.Lowering.Operation

/-!
The type of a literal is found twice: from the syntax alone, and from the values of its parts while
it is lowered.
-/

namespace Stencil

open Analysis Ty List

def Ty.isUsual : Ty → Bool
  | .int w _ => w = 1 || w ∈ widths
  | .float w => w = 64
  | _ => true

def Ty.isSignedInteger (t : Ty) : Bool :=
  t.isInteger && t.isSigned

inductive Ty.WidensTo : Ty → Ty → Prop
  | refl (t : Ty) : WidensTo t t
  | float {t : Ty} (numeric : t.isNumeric) : WidensTo t .double
  | int {w w' : Nat} {s s' : Bool} (narrow : w ∈ widths) (wide : w' ∈ widths)
    (sign : s → s') (width : if s = s' then w ≤ w' else w < w' ∨ w' = 64) :
    WidensTo (.int w s) (.int w' s')

variable {a b c type : Ty}

theorem Ty.WidensTo.trans (fst : a.WidensTo b) (snd : b.WidensTo c) : a.WidensTo c := by
  cases snd with
  | refl => exact fst
  | float numeric =>
    cases fst with
    | refl => exact .float numeric
    | float numeric' => exact .float numeric'
    | int narrow =>
      refine .float ?_
      rcases widths_cases narrow with rfl | rfl | rfl | rfl <;> rfl
  | @int _ _ s s' narrow wide sign width =>
  cases fst with
  | refl => exact .int narrow wide sign width
  | @int _ _ s0 _ narrow' _ sign' width' =>
    refine .int narrow' wide (sign ∘ sign') ?_
    have := widths_cases wide
    cases s0 <;> cases s <;> cases s' <;> simp_all <;> omega

theorem numeric_cases (usual : a.isUsual) (numeric : a.isNumeric) :
    (∃ w ∈ widths, ∃ signed, a = .int w signed) ∨ a = .double := by
  cases a with
  | int w signed =>
    have other : w ≠ 1 := by simpa [isNumeric, isInteger, isFloat] using numeric
    exact .inl ⟨w, by simpa [isUsual, other] using usual, signed, rfl⟩
  | float => exact .inr (by rw [of_decide_eq_true usual])
  | _ => cases numeric

theorem commonType_ints : ∀ w ∈ widths, ∀ w' ∈ widths, ∀ s s', ∃ wide ∈ widths,
    commonType (.int w s) (.int w' s') = some (.int wide (s || s')) ∧
      (if s = (s || s') then w ≤ wide else w < wide ∨ wide = 64) ∧
      if s' = (s || s') then w' ≤ wide else w' < wide ∨ wide = 64 := by
  decide

theorem commonType_double : ∀ w ∈ widths, ∀ s, commonType (.int w s) .double = some .double ∧
    commonType .double (.int w s) = some .double := by
  decide

theorem commonType_widens (usual : a.isUsual) (usual' : b.isUsual)
    (common : commonType a b = some c) : a.WidensTo c ∧ b.WidensTo c ∧ c.isUsual ∧
      (c.isSignedInteger → a.isSignedInteger ∨ b.isSignedInteger) := by
  by_cases numeric : a.isNumeric ∧ b.isNumeric
  · have float : c = .double → a.WidensTo c ∧ b.WidensTo c ∧ c.isUsual ∧
        (c.isSignedInteger → a.isSignedInteger ∨ b.isSignedInteger) := by
      rintro rfl
      exact ⟨.float numeric.1, .float numeric.2, rfl, fun signed => by cases signed⟩
    rcases numeric_cases usual numeric.1 with ⟨w, width, s, rfl⟩ | rfl <;>
      rcases numeric_cases usual' numeric.2 with ⟨w', width', s', rfl⟩ | rfl
    · obtain ⟨_, mem, agree, left, right⟩ := commonType_ints w width w' width' s s'
      cases agree.symm.trans common
      refine ⟨.int width mem (by simp_all) left, .int width' mem (by simp_all) right, ?_, ?_⟩
      · simp [isUsual, mem]
      have integer : ∀ v ∈ widths, ∀ s, (Ty.int v s).isSignedInteger = s := by decide
      rw [integer _ mem, integer w width, integer w' width']
      exact Bool.or_eq_true_iff.mp
    · exact float (Option.some.inj (common.symm.trans (commonType_double w width s).1))
    · exact float (Option.some.inj (common.symm.trans (commonType_double w' width' s').2))
    · exact float (Option.some.inj common.symm)
  rw [commonType] at common
  split at common
  · cases common
    subst_vars
    exact ⟨.refl _, .refl _, usual, .inl⟩
  rw [if_pos (by simpa [imp_iff_not_or] using numeric)] at common
  cases common

theorem Ty.WidensTo.holds {w w' : Nat} {s s' : Bool} {n : Int} (widens : (Ty.int w s).WidensTo (.int w' s'))
    (holds : (Ty.int w s).Holds n) (small : s' → n < Nat.pow 2 63) :
    (Ty.int w' s').Holds n := by
  have more {a b : Nat} (le : a ≤ b) : Nat.pow 2 a ≤ Nat.pow 2 b :=
    Nat.pow_le_pow_right (by decide) le
  cases widens with
  | refl => exact holds
  | int narrow wide sign width =>
  cases s <;> cases s' <;> simp only [Holds, reduceIte, Bool.false_eq_true] at *
  · have := more width
    omega
  · rcases width with less | rfl
    · have := more (Nat.le_sub_one_of_lt less)
      omega
    · exact ⟨by omega, small trivial⟩
  · exact (sign trivial).elim
  have := more (Nat.sub_le_sub_right width 1)
  omega

namespace Expr

def isLarge : Expr → Bool
  | int n _ => Nat.pow 2 63 ≤ n.toNat
  | _ => false

def isNegated : Expr → Bool
  | unary .neg (int _ _) _ => true
  | _ => false

/-- Some array literal in an expression has an integer of `2 ^ 63` or more and a negated one among its
entries. -/
inductive Mixes : Expr → Prop
  | here {items : List Expr} {span : Span} {large negated : Expr} (mem : large ∈ items)
    (isLarge : large.isLarge) (mem' : negated ∈ items)
    (isNegated : negated.isNegated) : Mixes (array items span)
  | inside {items : List Expr} {span : Span} {item : Expr} (mem : item ∈ items)
    (mixes : item.Mixes) : Mixes (array items span)

/-- The value of a literal, which has the type of the literal. -/
structure Gives (e : Expr) (v : TypedValue) : Prop where
  type : literalType e = .ok v.type
  usual : v.type.isUsual
  integer : ∀ w s, v.type = .int w s → w ∈ widths → ∃ n : Int, v.value = .int n ∧
    (v.type.Holds n ∨ w = 64 ∧ s) ∧ (Nat.pow 2 63 ≤ n → e.isLarge)
  signed : v.type.isSignedInteger → e.isNegated

variable {e : Expr} {v : TypedValue} {span : Span} {s : Session}

theorem Gives.convertTo (gives : e.Gives v) (widens : v.type.WidensTo type) :
    Leads (convertTo v type true span) s (fun _ _ => True) fun d _ =>
      d.problem.kind = .noConversion ∧ e.isLarge ∧ type.isSignedInteger := by
  by_cases same : v.type = type
  · rw [convertTo_same same]
    trivial
  cases got : conversion v.value v.type type true with
  | ok =>
    rw [convertTo_ok same got]
    trivial
  | error p =>
  rw [convertTo_error same got]
  obtain ⟨_, source⟩ := v
  cases widens with
  | refl => exact (same rfl).elim
  | float =>
    cases float : source.isFloat <;> simp_all [conversion, isNumeric, isFloat, isInteger]
  | @int w w' sign sign' narrow wide le width =>
  obtain ⟨n, rfl, holds, large⟩ := gives.integer w sign rfl narrow
  have integer : ∀ v ∈ widths, ∀ s, (Ty.int v s).isInteger := by decide
  have outside : fits n w' sign' = false ∧ p.kind = .noConversion := by
    cases lies : fits n w' sign' <;> simp [conversion, isFloat, integer w narrow,
      integer w' wide, Ir.Value.int?, bits, isSigned, lies] at got
    · subst got
      exact ⟨rfl, rfl⟩
    · grind
  have holds : (Ty.int w sign).Holds n := by
    rcases holds with holds | ⟨rfl, rfl⟩
    · exact holds
    have := widths_cases wide
    obtain rfl := le rfl
    rw [if_pos rfl] at width
    exact (same (by rw [show w' = 64 by omega])).elim
  have large' : sign' ∧ Nat.pow 2 63 ≤ n := by
    by_contra small
    have lies := (Ty.WidensTo.int narrow wide le width).holds holds (by grind)
    simp [(fits_iff wide sign').mpr lies] at outside
  exact ⟨outside.2, large large'.2, Bool.and_eq_true_iff.mpr ⟨integer w' wide _, large'.1⟩⟩

theorem Gives.of_other (type : literalType e = .ok v.type) (usual : v.type.isUsual)
    (other : v.type.isInteger = false) : e.Gives v := by
  refine ⟨type, usual, fun w s same width => ?_, fun signed => ?_⟩
  · rw [same] at other
    rcases widths_cases width with rfl | rfl | rfl | rfl <;> cases other
  rw [isSignedInteger, other] at signed
  cases signed

theorem widenedType_cons {item : Expr} {items : List Expr}
    (got : widenedType a (item :: items) = .ok c) : ∃ t wider, literalType item = .ok t ∧
      commonType a t = some wider ∧ widenedType wider items = .ok c := by
  rw [widenedType] at got
  cases known : literalType item with
  | error =>
    rw [known] at got
    cases got
  | ok t =>
  simp only [known, bind, Except.bind] at got
  split at got
  · exact ⟨t, _, rfl, ‹_›, got⟩
  · cases got

theorem widenedType_items {items : List Expr} (got : widenedType a items = .ok c) :
    ∀ item ∈ items, ∃ t, literalType item = .ok t := by
  induction items generalizing a with
  | nil => simp
  | cons item items ih =>
    obtain ⟨t, _, known, -, rest⟩ := widenedType_cons got
    exact forall_mem_cons.mpr ⟨⟨t, known⟩, ih rest⟩

theorem literalType_array {items : List Expr} (got : literalType (array items span) = .ok c) :
    ∃ fst rest a elem, items = fst :: rest ∧ literalType fst = .ok a ∧
      widenedType a rest = .ok elem ∧ c = .array elem items.length := by
  cases items with
  | nil =>
    cases got
  | cons fst rest =>
  rw [literalType] at got
  cases head : literalType fst with
  | error =>
    rw [head] at got
    cases got
  | ok a =>
  simp only [head, bind, Except.bind] at got
  cases tail : widenedType a rest with
  | error =>
    rw [tail] at got
    cases got
  | ok elem =>
    rw [tail] at got
    cases got
    exact ⟨fst, rest, a, elem, rfl, head, tail, rfl⟩

theorem commonEntryType_values {items : List Expr} {vs : List TypedValue}
    (gives : List.Forall₂ Gives items vs) (usual : a.isUsual)
    (got : widenedType a items = .ok c) :
    commonEntryType a ((vs.zip (items.map Expr.span)).map fun x => (x.1.type, x.2)) = .ok c ∧
      a.WidensTo c ∧ (∀ v ∈ vs, v.type.WidensTo c) ∧ (c.isSignedInteger →
        a.isSignedInteger ∨ ∃ item ∈ items, item.isNegated) := by
  induction gives generalizing a with
  | nil =>
    cases got
    exact ⟨rfl, .refl _, by simp, .inl⟩
  | @cons item v items vs fst others ih =>
  obtain ⟨t, _, known, common, rest⟩ := widenedType_cons got
  cases known.symm.trans fst.type
  obtain ⟨left, right, usual, signed⟩ := commonType_widens usual fst.usual common
  obtain ⟨same, more, widens, negated⟩ := ih usual rest
  simp only [map_cons, zip_cons_cons, commonEntryType, common]
  refine ⟨same, left.trans more, forall_mem_cons.mpr ⟨right.trans more, widens⟩, ?_⟩
  intro sign
  rcases negated sign with sign | ⟨e, mem, is⟩
  · rcases signed sign with sign | sign
    · exact .inl sign
    · exact .inr ⟨item, .head _, fst.signed sign⟩
  · exact .inr ⟨e, .tail _ mem, is⟩

theorem storeValues_literals {items : List Expr} {vs : List TypedValue} {base : Ir.Value}
    (gives : List.Forall₂ Gives items vs) (widens : ∀ v ∈ vs, v.type.WidensTo type) (k : Nat)
    (s : Session) :
    Leads (storeValues type base k (vs.zip (items.map Expr.span))) s (fun _ _ => True) fun d _ =>
      d.problem.kind = .noConversion ∧ (∃ e ∈ items, e.isLarge) ∧
        type.isSignedInteger := by
  induction gives generalizing k s with
  | nil => trivial
  | cons fst rest ih =>
  obtain ⟨widen, widens⟩ := forall_mem_cons.mp widens
  refine leads_bind.mpr ((fst.convertTo widen).mono (fun w s _ => ?_) ?_)
  · refine (ih widens (k + 1) _).mono (fun _ _ h => h) ?_
    rintro d _ ⟨kind, ⟨e, mem, large⟩, signed⟩
    exact ⟨kind, ⟨e, .tail _ mem, large⟩, signed⟩
  rintro d _ ⟨kind, large, signed⟩
  exact ⟨kind, ⟨_, .head _, large⟩, signed⟩

theorem lower_array {r : Resolver} (items : List Expr) : (array items span).lower r none =
    values r items >>= fun vs => arrayOfValues (vs.zip (items.map Expr.span)) span := by
  unfold lower
  rw [meaning]
  · simp only [bind_assoc, bind_map_left, asValue_value, bind_pure]
  · simp

theorem values_cons {r : Resolver} (item : Expr) (items : List Expr) : values r (item :: items) =
    item.lower r none >>= fun v => values r items >>= fun vs => pure (v :: vs) := by
  rw [values, lower, bind_assoc]

theorem arrayOfValues_literals {items : List Expr} {vs : List TypedValue}
    (gives : List.Forall₂ Gives items vs) (got : literalType (array items span) = .ok type) :
    Leads (arrayOfValues (vs.zip (items.map Expr.span)) span) s
      (fun v _ => (array items span).Gives v) fun d _ =>
        d.problem.kind = .noConversion ∧ (array items span).Mixes := by
  obtain ⟨fst, rest, a, _, rfl, head, tail, rfl⟩ := literalType_array got
  cases gives with
  | @cons _ v _ vs gives others =>
  cases head.symm.trans gives.type
  obtain ⟨common, more, widens, negated⟩ := commonEntryType_values others gives.usual tail
  have size : ((v, fst.span) :: vs.zip (rest.map Expr.span)).length = (fst :: rest).length := by
    simp [others.length_eq]
  simp only [map_cons, zip_cons_cons, arrayOfValues, common, size]
  refine leads_bind.mpr ?_
  refine (@leads_bind _ _ _ _ _ _ (temporary _)).mpr ?_
  refine (@leads_bind _ _ _ _ _ _ (storeValues _ _ _ _)).mpr ((storeValues_literals (.cons gives others)
    (forall_mem_cons.mpr ⟨more, widens⟩) 0 _).mono (fun _ _ _ => ?_) ?_)
  · exact Gives.of_other got rfl rfl
  rintro d _ ⟨kind, ⟨_, mem, isLarge⟩, signed⟩
  obtain ⟨e, lies, isNegated⟩ : ∃ e ∈ fst :: rest, e.isNegated := by
    rcases negated signed with sign | ⟨e, lies, is⟩
    · exact ⟨fst, .head _, gives.signed sign⟩
    · exact ⟨e, .tail _ lies, is⟩
  exact ⟨kind, .here mem isLarge lies isNegated⟩

mutual

theorem lower_literal {r : Resolver} : ∀ e t, literalType e = .ok t → ∀ s,
    Leads (e.lower r none) s (fun v _ => e.Gives v) fun d _ =>
      d.problem.kind = .noConversion ∧ e.Mixes
  | int n span, t, got, s => by
    obtain ⟨width, below, -⟩ := minUnsignedWidth_least (n := n.toNat) n.toNat_lt
    refine ⟨by rw [literalType], by simp [isUsual, width], ?_, ?_⟩
    · rintro _ _ ⟨⟩ _
      refine ⟨_, rfl, .inl ⟨Int.natCast_nonneg _, Int.ofNat_lt.mpr below⟩, fun large => ?_⟩
      exact decide_eq_true (Int.ofNat_le.mp large)
    intro signed
    cases (Bool.and_eq_true_iff.mp signed).2
  | float x span, t, got, s => by
    exact .of_other (by rw [literalType]) rfl rfl
  | bool x span, t, got, s => by
    exact .of_other (by rw [literalType]; rfl) rfl rfl
  | string x span, t, got, s => by
    exact Gives.of_other (by rw [literalType]) rfl rfl
  | unary op arg span, t, got, s => by
    cases literal : negatedLiteral? op arg with
    | some n =>
      rw [lower_negatedLiteral literal]
      obtain ⟨inner, rfl, rfl⟩ : ∃ inner, op = .neg ∧ arg = .int n inner := by
        cases op <;> cases arg <;> cases literal
        exact ⟨_, rfl, rfl⟩
      have width := minSignedWidth_mem (-n.toNat)
      refine ⟨by rw [literalType], by simp [isUsual, width], ?_, fun _ => rfl⟩
      rintro _ _ ⟨⟩ _
      refine ⟨_, rfl, ?_, fun _ => ?_⟩
      · rcases (minSignedWidth_cases (-n.toNat)).2 with fit | ⟨same, -⟩
        · exact .inl ((fits_iff width true).mp fit)
        · exact .inr ⟨same, rfl⟩
      have : (0 : Int) < Nat.pow 2 63 := by decide
      omega
    | none =>
      obtain ⟨x, inner, rfl, rfl⟩ : ∃ x inner, op = .neg ∧ arg = .float x inner := by
        cases op <;> cases arg <;> simp_all [literalType, negatedLiteral?]
      exact Gives.of_other (by rw [literalType]) rfl rfl
  | array items span, t, got, s => by
    rw [lower_array]
    obtain ⟨_, _, a, c, rfl, head, tail, -⟩ := literalType_array got
    have known := forall_mem_cons.mpr ⟨⟨a, head⟩, widenedType_items tail⟩
    refine leads_bind.mpr ((values_literals _ known s).mono ?_ ?_)
    · exact fun _ s gives => arrayOfValues_literals gives got
    rintro d _ ⟨kind, _, mem, mixes⟩
    exact ⟨kind, .inside mem mixes⟩
  | initializer .., t, got, s | identifier .., t, got, s | member .., t, got, s
  | call .., t, got, s | index .., t, got, s | binary .., t, got, s
  | addressOf .., t, got, s | deref .., t, got, s | cast .., t, got, s => by
    simp [literalType] at got

theorem values_literals {r : Resolver} : ∀ items,
    (∀ item ∈ items, ∃ t, literalType item = .ok t) → ∀ s,
    Leads (values r items) s (fun vs _ => List.Forall₂ Gives items vs) fun d _ =>
      d.problem.kind = .noConversion ∧ ∃ item ∈ items, item.Mixes
  | [], _, _ => by
    exact .nil
  | item :: items, known, s => by
    obtain ⟨⟨t, got⟩, known⟩ := forall_mem_cons.mp known
    rw [values_cons]
    refine leads_bind.mpr ((lower_literal item t got s).mono (fun v s fst => ?_) ?_)
    · refine leads_bind.mpr ((values_literals items known s).mono ?_ ?_)
      · exact fun _ s rest => List.Forall₂.cons fst rest
      rintro d _ ⟨kind, item, mem, mixes⟩
      exact ⟨kind, item, .tail _ mem, mixes⟩
    rintro d _ ⟨kind, mixes⟩
    exact ⟨kind, item, .head _, mixes⟩

end

/-- A literal is lowered to a value of the type that its syntax gives, or one of its entries does not
fit the common type of an array. -/
theorem lower_literalType {e : Expr} {t : Ty} (got : literalType e = .ok t) (r : Resolver)
    (s : Session) : (∃ v s', e.lower r none s = .ok v s' ∧ v.type = t) ∨
      ∃ d s', e.lower r none s = .error d s' ∧ d.problem.kind = .noConversion ∧ e.Mixes := by
  have leads := lower_literal (r := r) e t got s
  unfold Leads at leads
  cases run : e.lower r none s with
  | ok v s' =>
    rw [run] at leads
    exact .inl ⟨v, s', rfl, Except.ok.inj (leads.type.symm.trans got)⟩
  | error d s' =>
    rw [run] at leads
    exact .inr ⟨d, s', rfl, leads⟩

def nestedMix : Expr :=
  .array [.array [.int 9223372036854775808 {}, .unary .neg (.int 1 {}) {}] {},
    .array [.unary .neg (.int 1 {}) {}, .unary .neg (.int 9223372036854775807 {}) {}] {}] {}

def evenMix : Expr := .array [.int 200 {}, .unary .neg (.int 1 {}) {}] {}

theorem lower_literalType_nestedMix :
    (∃ v s', evenMix.lower (.within 0) none (.new "m") = .ok v s' ∧
      v.type = .array (.int 16 true) 2) ∧
    ∃ d s', nestedMix.lower (.within 0) none (.new "m") = .error d s' ∧
      d.problem.kind = .noConversion ∧ nestedMix.Mixes := by
  have ran : (evenMix.lower (.within 0) none |>.run' (.new "m")).isSome ∧
      (nestedMix.lower (.within 0) none |>.run' (.new "m")).isNone := by decide +kernel
  unfold EStateM.run' EStateM.run at ran
  constructor
  · refine (lower_literalType rfl _ _).resolve_right ?_
    rintro ⟨d, s', run, -⟩
    simp [run] at ran
  · refine (lower_literalType rfl _ _).resolve_left ?_
    rintro ⟨v, s', run, -⟩
    simp [run] at ran

end Expr

end Stencil
