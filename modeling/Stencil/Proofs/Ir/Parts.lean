import Stencil.Proofs.Ir.Machine

/-!
A machine for straight code on aggregates. Its memory consists of parts: a stack slot and the way
from it through fields and entries.
-/

namespace Stencil.Ir

open List

/-- A part of a stack slot, by the positions on the way to it. -/
structure Part where
  slot : Nat
  way : List Nat
  deriving DecidableEq, Repr, Inhabited

def Part.entry (p : Part) (index : Nat) : Part :=
  { p with way := p.way ++ [index] }

/-- What a temporary or a part holds: a word, or the address of a part. -/
inductive Datum where
  | word (value : Nat)
  | address (part : Part)
  deriving DecidableEq, Repr, Inhabited

namespace Datum

def ofInt? (type : Ty) (n : Int) : Option Datum :=
  match type with
  | .int bits => some (word (BitVec.ofInt bits n).toNat)
  | _ => none

def part? : Datum → Option Part
  | address p => some p
  | word _ => none

def index? : Datum → Option Nat
  | word n => some n
  | address _ => none

def bits? (bits : Nat) : Datum → Option (BitVec bits)
  | word n => some (BitVec.ofNat bits n)
  | address _ => none

def combine (op : BinOp) (type : Ty) (signed : Bool) (a b : Datum) : Option Datum :=
  match type with
  | .int bits => do
    let result ← op.apply signed (← a.bits? bits) (← b.bits? bits)
    return word result.toNat
  | _ => none

def test (op : CmpOp) (type : Ty) (signed : Bool) (a b : Datum) : Option Datum :=
  match type with
  | .int bits => do return word (op.test signed (← a.bits? bits) (← b.bits? bits)).toNat
  | _ => none

def apply (op : UnOp) (type : Ty) (a : Datum) : Option Datum :=
  match type with
  | .int bits => do return word (op.apply (← a.bits? bits)).toNat
  | _ => none

end Datum

abbrev Parts := Part → Option Datum

def Parts.set (parts : Parts) (p : Part) (d : Datum) : Parts :=
  fun q => if q = p then some d else parts q

structure PartMemory where
  temps : Nat → Option Datum
  parts : Parts

namespace PartMemory

def setTemp (m : PartMemory) (k : Nat) (d : Datum) : PartMemory :=
  { m with temps := fun i => if i = k then some d else m.temps i }

def setPart (m : PartMemory) (p : Part) (d : Datum) : PartMemory :=
  { m with parts := m.parts.set p d }

def Anchors (m : PartMemory) (k : Nat) : Prop :=
  m.temps k = some (.address ⟨k, []⟩)

instance (m : PartMemory) (k : Nat) : Decidable (m.Anchors k) :=
  inferInstanceAs (Decidable (m.temps k = _))

end PartMemory

def Value.datum? (m : PartMemory) (type : Ty) : Value → Option Datum
  | temp k => m.temps k
  | int n => Datum.ofInt? type n
  | _ => none

def Value.index? (m : PartMemory) : Value → Option Nat
  | int n => some n.toNat
  | v => do (← v.datum? m .void).index?

def Value.part? (m : PartMemory) (v : Value) : Option Part := do
  (← v.datum? m .void).part?

/-- The memory after an instruction. Calls, casts and floats are left out. -/
def Inst.move (m : PartMemory) : Inst → Option PartMemory
  | alloca dst _ => some (m.setTemp dst (.address ⟨dst, []⟩))
  | load dst _ addr => do return m.setTemp dst (← m.parts (← addr.part? m))
  | store type addr src => do return m.setPart (← addr.part? m) (← src.datum? m type)
  | binary dst op type signed left right => do
    return m.setTemp dst (← (← left.datum? m type).combine op type signed (← right.datum? m type))
  | compare dst op type signed left right => do
    return m.setTemp dst (← (← left.datum? m type).test op type signed (← right.datum? m type))
  | unary dst op type src => do return m.setTemp dst (← (← src.datum? m type).apply op type)
  | fieldAddr dst _ base index => do
    return m.setTemp dst (.address ((← base.part? m).entry index))
  | elemAddr dst _ base index => do
    return m.setTemp dst (.address ((← base.part? m).entry (← index.index? m)))
  | _ => none

def moves (m : PartMemory) : List Inst → Option PartMemory
  | [] => some m
  | inst :: rest => do moves (← inst.move m) rest

theorem moves_append (m : PartMemory) (fst snd : List Inst) :
    moves m (fst ++ snd) = (moves m fst).bind (moves · snd) := by
  induction fst generalizing m with
  | nil => rfl
  | cons inst rest ih =>
    cases h : inst.move m with
    | none => simp [moves, h]
    | some => simp [moves, h, ih]

/-- A computation on the parts of a memory. -/
inductive Formula where
  | constant (type : Ty) (n : Int)
  | slot (k : Nat)
  | entry (base : Formula) (index : Nat)
  | entryAt (base position : Formula)
  | load (addr : Formula)
  | binary (op : BinOp) (type : Ty) (signed : Bool) (left right : Formula)
  | compare (op : CmpOp) (type : Ty) (signed : Bool) (left right : Formula)
  | unary (op : UnOp) (type : Ty) (operand : Formula)
  deriving DecidableEq, Repr, Inhabited

namespace Formula

def isConstant : Formula → Bool
  | constant .. => true
  | _ => false

def eval (parts : Parts) : Formula → Option Datum
  | constant type n => Datum.ofInt? type n
  | slot k => some (.address ⟨k, []⟩)
  | entry base index => do return .address ((← (← base.eval parts).part?).entry index)
  | entryAt base position => do
    return .address ((← (← base.eval parts).part?).entry (← (← position.eval parts).index?))
  | load addr => do parts (← (← addr.eval parts).part?)
  | binary op type signed left right => do
    (← left.eval parts).combine op type signed (← right.eval parts)
  | compare op type signed left right => do
    (← left.eval parts).test op type signed (← right.eval parts)
  | unary op type arg => do (← arg.eval parts).apply op type

def reads (parts : Parts) : Formula → List Part
  | constant .. => []
  | slot _ => []
  | entry base _ => base.reads parts
  | entryAt base position => base.reads parts ++ position.reads parts
  | load addr => addr.reads parts ++ ((addr.eval parts).bind Datum.part?).toList
  | binary _ _ _ left right => left.reads parts ++ right.reads parts
  | compare _ _ _ left right => left.reads parts ++ right.reads parts
  | unary _ _ arg => arg.reads parts

def slots : Formula → List Nat
  | constant .. => []
  | slot k => [k]
  | entry base _ => base.slots
  | entryAt base position => base.slots ++ position.slots
  | load addr => addr.slots
  | binary _ _ _ left right => left.slots ++ right.slots
  | compare _ _ _ left right => left.slots ++ right.slots
  | unary _ _ arg => arg.slots

theorem eval_congr {parts parts' : Parts} (f : Formula)
    (same : ∀ p ∈ f.reads parts, parts' p = parts p) : f.eval parts' = f.eval parts := by
  induction f with
  | constant type n | slot k => rfl
  | entry base index ih | unary op type arg ih => simp only [eval, ih same]
  | entryAt base position ih1 ih2 =>
    obtain ⟨fst, snd⟩ := forall_mem_append.mp same
    simp only [eval, ih1 fst, ih2 snd]
  | load addr ih =>
    obtain ⟨before, here⟩ := forall_mem_append.mp same
    simp only [eval, ih before]
    cases at' : addr.eval parts with
    | none => rfl
    | some d =>
      cases part : d.part? with
      | none => simp [part]
      | some p => simpa [part] using here p (by simp [at', part])
  | binary op type signed left right ih1 ih2 =>
    obtain ⟨fst, snd⟩ := forall_mem_append.mp same
    simp only [eval, ih1 fst, ih2 snd]
  | compare op type signed left right ih1 ih2 =>
    obtain ⟨fst, snd⟩ := forall_mem_append.mp same
    simp only [eval, ih1 fst, ih2 snd]

end Formula

def Parts.setInTurn (parts : Parts) : List (Part × Formula) → Option Parts
  | [] => some parts
  | (p, f) :: rest => do Parts.setInTurn (parts.set p (← f.eval parts)) rest

def Undisturbed (parts : Parts) (settings : List (Part × Formula)) : Prop :=
  settings.Pairwise fun a b => a.1 ∉ b.2.reads parts ∧ a.1 ≠ b.1

theorem Parts.set_other {parts : Parts} {p q : Part} {d : Datum} (other : q ≠ p) :
    parts.set p d q = parts q :=
  if_neg other

theorem Parts.set_here (parts : Parts) (p : Part) (d : Datum) : parts.set p d p = some d :=
  if_pos rfl

/-- As long as no formula looks at a part that has been set before it, all of them have the values
that they had in the beginning. -/
theorem Parts.setInTurn_undisturbed {parts now : Parts} {settings : List (Part × Formula)}
    (undisturbed : Undisturbed parts settings)
    (defined : ∀ x ∈ settings, (x.2.eval parts).isSome)
    (seen : ∀ x ∈ settings, ∀ q ∈ x.2.reads parts, now q = parts q) :
    ∃ after, now.setInTurn settings = some after ∧ (∀ x ∈ settings, after x.1 = x.2.eval parts) ∧
        ∀ q, (∀ x ∈ settings, q ≠ x.1) → after q = now q := by
  induction settings generalizing now with
  | nil => exact ⟨now, rfl, fun x mem => absurd mem not_mem_nil, fun _ _ => rfl⟩
  | cons setting rest ih =>
  obtain ⟨p, f⟩ := setting
  obtain ⟨fst, others⟩ := pairwise_cons.mp undisturbed
  obtain ⟨definedHere, definedRest⟩ := forall_mem_cons.mp defined
  obtain ⟨seenHere, seenRest⟩ := forall_mem_cons.mp seen
  obtain ⟨d, value⟩ := Option.isSome_iff_exists.mp definedHere
  have value' : f.eval now = some d := (f.eval_congr seenHere).trans value
  have seen' : ∀ x ∈ rest, ∀ q ∈ x.2.reads parts, now.set p d q = parts q := by
    intro x mem q read
    have other : q ≠ p := fun same => (fst x mem).1 (same ▸ read)
    exact (Parts.set_other other).trans (seenRest x mem q read)
  obtain ⟨after, run, set, kept⟩ := ih others definedRest seen'
  refine ⟨after, by simp [setInTurn, value', run], ?_, ?_⟩
  · refine forall_mem_cons.mpr ⟨?_, set⟩
    -- What has been set first is not set again.
    have once := kept p fun x mem => (fst x mem).2
    exact once.trans ((now.set_here p d).trans value.symm)
  intro q away
  obtain ⟨here, rest'⟩ := forall_mem_cons.mp away
  exact (kept q rest').trans (Parts.set_other here)

end Stencil.Ir
