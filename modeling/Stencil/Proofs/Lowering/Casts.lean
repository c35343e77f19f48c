import Stencil.Proofs.Ir.Machine
import Stencil.Proofs.Lowering.Arithmetic

namespace Stencil

open BitVec Int Ty
open BitVec (ofInt)

namespace Ir

/-- What a cast between integers does to the bits of its operand. -/
def CastKind.apply (kind : CastKind) {source : Nat} (target : Nat) (a : BitVec source) :
    Option (BitVec target) :=
  match kind with
  | trunc => if target < source then some (a.setWidth target) else none
  | zext => if source < target then some (a.setWidth target) else none
  | sext => if source < target then some (a.signExtend target) else none
  | _ => none

def Inst.execute (args : List Cell) (m : Memory) : Inst → Option Memory
  | cast dst kind (.int source) (.int target) src => do
    let result ← kind.apply target (← src.word? args m source)
    return m.setTemp dst (.word result.toNat)
  | inst => inst.run args m

def Builder.behind (b : Builder) : List Inst → Builder
  | [] => b
  | inst :: code => behind (emit inst { b with nextTemp := b.nextTemp + 1 }).2 code

/-- From a value with the bits of one integer, some code makes a value with those of another. -/
def Carries (code : List Inst) (v : Value) (bits : Nat) (n : Int) (w : Value) (bits' : Nat)
    (n' : Int) : Prop :=
  ∀ args m, v.word? args m bits = some (ofInt bits n) →
    ∃ m', code.foldlM (Inst.execute args) m = some m' ∧
      w.word? args m' bits' = some (ofInt bits' n')

theorem carries_single {inst : Inst} {v : Value} {bits bits' k : Nat} {n n' : Int}
    (runs : ∀ args m, v.word? args m bits = some (.ofInt bits n) →
      inst.execute args m = some (m.setTemp k (.word (ofInt bits' n').toNat))) :
    Carries [inst] v bits n (.temp k) bits' n' := by
  intro args m given
  refine ⟨_, by rw [List.foldlM_cons, runs args m given]; rfl, ?_⟩
  simp only [Value.word?, Value.cell?, Memory.setTemp, if_pos, BitVec.ofNat_toNat, setWidth_eq]

end Ir

open Ir

section

variable {w : Nat} {n : Int} {signed : Bool}

theorem ofInt_congr {a b : Int} (same : a % (2 ^ w : Nat) = b % (2 ^ w : Nat)) :
    ofInt w a = ofInt w b := by
  apply eq_of_toNat_eq
  rw [toNat_ofInt, toNat_ofInt, same]

theorem ofInt_normalize (small : w ≤ 64) : ofInt w (normalize n w signed) = ofInt w n :=
  ofInt_congr (normalize_emod (by omega))

theorem holds_normalize (some : w ≠ 0) (small : w ≤ 64) :
    (int w signed).Holds (normalize n w signed) :=
  (fits_iff_holds some small signed).mp (fits_normalize some (by omega))

theorem setWidth_ofInt {k : Nat} (less : k ≤ w) : (ofInt w n).setWidth k = ofInt k n := by
  apply eq_of_toNat_eq
  have wraps : ((n % (2 ^ w : Nat)).toNat : Int) = n % (2 ^ w : Nat) :=
    toNat_of_nonneg (emod_nonneg _ (by have := Nat.two_pow_pos w; omega))
  rw [toNat_setWidth, toNat_ofInt, toNat_ofInt, ← toNat_natCast (_ % _),
    natCast_emod, wraps, emod_emod_of_dvd n (natCast_dvd_natCast.mpr (Nat.pow_dvd_pow 2 less))]

theorem widen_ofInt {k : Nat} (some : w ≠ 0) (holds : (int w signed).Holds n) :
    (if signed then (ofInt w n).signExtend k else (ofInt w n).setWidth k) =
      ofInt k n := by
  cases signed with
  | false =>
    obtain ⟨i, rfl⟩ := eq_ofNat_of_zero_le holds.1
    have below : i < 2 ^ w := ofNat_lt.mp holds.2
    apply eq_of_toNat_eq
    simp [Nat.mod_eq_of_lt below]
  | true =>
    exact congrArg (ofInt k)
      (toInt_ofInt_eq_self (Nat.pos_of_ne_zero some) (by exact_mod_cast holds.1)
        (by exact_mod_cast holds.2))

end

def Ty.IsWord (type : Ty) : Prop :=
  ∃ bits signed, type = .int bits signed ∧ 2 ≤ bits ∧ bits ≤ 64

/-- The cast of one constant gives another, and what the cast of any other value emits makes the bits
of the second from those of the first. -/
def CastAgrees (source target : Ty) (n k : Int) : Prop :=
  (∀ b, convert ⟨.int n, source⟩ target false b = .ok (⟨.int k, target⟩, b)) ∧
    ∀ v b, v.int? = none → ∃ w code,
      convert ⟨v, source⟩ target false b = .ok (⟨w, target⟩, b.behind code) ∧
        Carries code v source.bits n w target.bits k

section

variable {source target : Ty} {m k : Nat} {s t : Bool} {n : Int}

theorem castAgrees_self (type : Ty) (n : Int) : CastAgrees type type n n :=
  ⟨fun _ => if_pos rfl, fun v _ _ => ⟨v, [], if_pos rfl, fun _ m given => ⟨m, rfl, given⟩⟩⟩

theorem castAgrees_instruction (kind : CastKind) (other : int m s ≠ .int k t) (small : k ≤ 64)
    (how : ∀ v, conversion v (.int m s) (.int k t) false = .ok (.instruction kind))
    (bits : kind.apply k (.ofInt m n) = some (.ofInt k n)) :
    CastAgrees (.int m s) (.int k t) n (normalize n k t) := by
  refine ⟨fun b => ?_, fun v b dynamic => ?_⟩
  · rw [convert, if_neg other, how]
    cases kind <;> first | rfl | cases bits
  refine ⟨.temp b.nextTemp, [.cast b.nextTemp kind (.int m) (.int k) v], ?_, ?_⟩
  · rw [convert, if_neg other, how]
    cases v with
    | int => cases dynamic
    | _ => cases kind <;> first | rfl | cases bits
  have carries : Carries [.cast b.nextTemp kind (.int m) (.int k) v] v m n (.temp b.nextTemp) k
      (normalize n k t) := carries_single fun _ _ given => by
    rw [ofInt_normalize small]
    simp [Inst.execute, given, bits]
  exact carries

theorem castAgrees_words (source : m ≠ 0 ∧ m ≠ 1) (target : k ≠ 1) (small : k ≤ 64)
    (other : int m s ≠ .int k t) (holds : (int m s).Holds n) :
    CastAgrees (.int m s) (.int k t) n (normalize n k t) := by
  rcases Nat.lt_trichotomy m k with wider | rfl | narrower
  · refine castAgrees_instruction (if s then .sext else .zext) other small (fun v => ?_) ?_
    · simp [conversion, isFloat, isInteger, bits, isSigned, source, target, wider]
      rfl
    have widened := widen_ofInt (k := k) source.1 holds
    cases s <;> simpa [CastKind.apply, wider] using widened
  · have how : ∀ v, conversion v (.int m s) (.int m t) false = .ok .reinterpret := fun v => by
      simp [conversion, isFloat, isInteger, bits, target]
    refine ⟨fun b => ?_, fun v b dynamic => ⟨v, [], ?_, fun _ mem given => ⟨mem, rfl, ?_⟩⟩⟩
    · rw [convert, if_neg other, how]
      rfl
    · rw [convert, if_neg other, how]
      cases v with
      | int => cases dynamic
      | _ => rfl
    · exact given.trans (congrArg some (ofInt_normalize small).symm)
  refine castAgrees_instruction .trunc other small (fun v => ?_) ?_
  · simp [conversion, isFloat, isInteger, bits, source, target, narrower, Nat.lt_asymm narrower]
  · simp [CastKind.apply, narrower, setWidth_ofInt (Nat.le_of_lt narrower)]

theorem castAgrees_ofBool (target : k ≠ 1) (small : k ≤ 64) (some : k ≠ 0)
    (holds : Ty.bool.Holds n) : CastAgrees .bool (.int k t) n (normalize n k t) := by
  have wider : 1 < k := by omega
  refine castAgrees_instruction .zext (by simp; omega) small (fun v => ?_) ?_
  · simp [conversion, isFloat, isInteger, isBool, target]
  · simpa [CastKind.apply, wider] using widen_ofInt Nat.one_ne_zero holds

theorem ofInt_eq_zero (some : m ≠ 0) (small : m ≤ 64) (holds : (int m s).Holds n) :
    ofInt m n = 0#m ↔ n = 0 := by
  refine ⟨fun same => ?_, fun same => by simp [same]⟩
  have remainder : (n % (2 ^ m : Nat)).toNat = 0 := by
    rw [← toNat_ofInt, same]
    rfl
  have double := pow_pred m some
  have positive : 0 < Nat.pow 2 (m - 1) := Nat.two_pow_pos _
  have none : n % (Nat.pow 2 m : Int) = 0 :=
    Int.le_antisymm (toNat_eq_zero.mp remainder) (emod_nonneg _ (by omega))
  rw [← normalize_self some small holds, normalize_eq (by omega), none, if_neg]
  rw [Bool.and_eq_true_iff, decide_eq_true_eq]
  omega

theorem castAgrees_toBool (source : m ≠ 0 ∧ m ≠ 1) (small : m ≤ 64) (holds : (int m s).Holds n) :
    CastAgrees (.int m s) .bool n (if n ≠ 0 then 1 else 0) := by
  have other : int m s ≠ .bool := by simp; omega
  have how : ∀ v, conversion v (.int m s) .bool false = .ok .test := fun v => by
    simp [conversion, isFloat, isInteger, isBool, source]
  refine ⟨fun b => ?_, fun v b dynamic => ?_⟩
  · rw [convert, if_neg other, how]
    rfl
  refine ⟨.temp b.nextTemp, [.compare b.nextTemp .ne (.int m) s v (.int 0)], ?_, ?_⟩
  · rw [convert, if_neg other, how]
    cases v with
    | int => cases dynamic
    | _ => rfl
  have carries : Carries [.compare b.nextTemp .ne (.int m) s v (.int 0)] v m n (.temp b.nextTemp)
      1 (if n ≠ 0 then 1 else 0) := carries_single fun args mem given => by
    have right : Value.word? args mem m (.int 0) = some 0#m := by simp [Value.word?, Value.cell?]
    have test : CmpOp.ne.test s (.ofInt m n) 0#m = decide (n ≠ 0) := by
      simp only [CmpOp.test, bne, beq_eq_decide, ofInt_eq_zero source.1 small holds, decide_not]
    simp only [Inst.execute, Inst.run, given, right, Option.bind_eq_bind, Option.bind_some, test]
    by_cases none : n = 0 <;> simp [none]
  exact carries

theorem convert_implicit (source : m ≠ 0 ∧ m ≠ 1) (target : k ≠ 0 ∧ k ≠ 1) (small : k ≤ 64)
    (other : int m s ≠ .int k t) (holds : (int m s).Holds n) (b : Builder) :
    (fits n k t → convert ⟨.int n, .int m s⟩ (.int k t) true b = .ok (⟨.int n, .int k t⟩, b)) ∧
      (fits n k t = false → ∃ p, convert ⟨.int n, .int m s⟩ (.int k t) true b = .error p) := by
  refine ⟨fun lies => ?_, fun outside => ?_⟩
  · have same : conversion (.int n) (.int m s) (.int k t) true =
        conversion (.int n) (.int m s) (.int k t) false := by
      simp [conversion, isFloat, isInteger, bits, isSigned, Value.int?, source, target, lies]
    have agrees := (castAgrees_words source target.2 small other holds).1 b
    rw [normalize_self target.1 small ((fits_iff_holds target.1 small t).mp lies)] at agrees
    rw [← agrees, convert, convert, if_neg other, if_neg other]
    rw [same]
  rw [convert, if_neg other]
  refine ⟨.literalOutOfRange (toString n) (int k t).text, ?_⟩
  simp [conversion, isFloat, isInteger, bits, isSigned, Value.int?, source, target, outside]

end

/-- The cast of a constant that is in the range of its type gives the constant of the target whose
bits the emitted code would make; an implicit conversion keeps the constant or is refused. -/
theorem convert_constant_agrees {source target : Ty} {n : Int}
    (given : source.IsWord ∨ source = .bool) (wanted : target.IsWord ∨ target = .bool)
    (lies : fits n source.bits source.isSigned = true) :
    (∃ k, CastAgrees source target n k ∧ fits k target.bits target.isSigned = true) ∧
      (source.IsWord → target.IsWord → ∀ b,
        ((∃ r, convert ⟨.int n, source⟩ target true b = .ok r) ↔
          source = target ∨ fits n target.bits target.isSigned = true) ∧
        ∀ r, convert ⟨.int n, source⟩ target true b = .ok r → r = (⟨.int n, target⟩, b)) := by
  by_cases same : source = target
  · subst same
    have stays : ∀ b, convert ⟨.int n, source⟩ source true b = .ok (⟨.int n, source⟩, b) :=
      fun _ => if_pos rfl
    refine ⟨⟨n, castAgrees_self source n, lies⟩,
      fun _ _ b => ⟨⟨fun _ => Or.inl rfl, fun _ => ⟨_, stays b⟩⟩, ?_⟩⟩
    intro r converted
    exact Except.ok.inj (converted.symm.trans (stays b))
  · refine ⟨?_, ?_⟩
    · rcases given with ⟨m, s, rfl, wide, small⟩ | rfl
      · have holds := (fits_iff_holds (by omega) small s).mp lies
        rcases wanted with ⟨k, t, rfl, wide', small'⟩ | rfl
        · exact ⟨_, castAgrees_words (by omega) (by omega) small' same holds,
            (fits_iff_holds (by omega) small' t).mpr (holds_normalize (by omega) small')⟩
        · refine ⟨_, castAgrees_toBool (by omega) small holds, ?_⟩
          split <;> decide
      · have holds := (fits_iff_holds (by decide) (by decide) false).mp lies
        rcases wanted with ⟨k, t, rfl, wide', small'⟩ | rfl
        · exact ⟨_, castAgrees_ofBool (by omega) small' (by omega) holds,
            (fits_iff_holds (by omega) small' t).mpr (holds_normalize (by omega) small')⟩
        · exact absurd rfl same
    · rintro ⟨m, s, rfl, wide, small⟩ ⟨k, t, rfl, wide', small'⟩ b
      have holds := (fits_iff_holds (by omega) small s).mp lies
      obtain ⟨keeps, refuses⟩ := convert_implicit (by omega) (by omega) small' same holds b
      cases fit : fits n k t with
      | true =>
        refine ⟨⟨fun _ => Or.inr fit, fun _ => ⟨_, keeps fit⟩⟩, fun r converted => ?_⟩
        exact Except.ok.inj (converted.symm.trans (keeps fit))
      | false =>
        obtain ⟨p, refused⟩ := refuses fit
        have never : ∀ r, convert ⟨.int n, .int m s⟩ (.int k t) true b ≠ .ok r := by simp [refused]
        refine ⟨⟨?_, ?_⟩, fun r converted => absurd converted (never r)⟩
        · rintro ⟨r, converted⟩
          exact absurd converted (never r)
        · rintro (equal | fitting)
          · exact absurd equal same
          · exact absurd (fit.symm.trans fitting) (by decide)

/-- A negative constant in a wider type without a sign. -/
theorem convert_constant_agrees_signExtension :
    CastAgrees (.int 8 true) (.int 16 false) (-1) 65535 ∧
      ∀ b r, convert ⟨.int (-1), .int 8 true⟩ (.int 16 false) true b ≠ .ok r := by
  obtain ⟨⟨k, agrees, -⟩, implicit⟩ := convert_constant_agrees (n := -1)
    (Or.inl ⟨8, true, rfl, by decide, by decide⟩) (Or.inl ⟨16, false, rfl, by decide, by decide⟩)
    (by decide)
  have value : convert ⟨.int (-1), .int 8 true⟩ (.int 16 false) false (Builder.new "m") =
      .ok (⟨.int 65535, .int 16 false⟩, Builder.new "m") := by rfl
  have same := Except.ok.inj ((agrees.1 (Builder.new "m")).symm.trans value)
  simp only [Prod.mk.injEq, TypedValue.mk.injEq, Value.int.injEq, and_true] at same
  subst same
  refine ⟨agrees, fun b r converted => ?_⟩
  have possible := (implicit ⟨8, true, rfl, by decide, by decide⟩
    ⟨16, false, rfl, by decide, by decide⟩ b).1.mp ⟨r, converted⟩
  revert possible
  decide

end Stencil
