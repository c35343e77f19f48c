import Mathlib.Logic.Function.Iterate
import Stencil.Proofs.Ir.Reach

/-!
A machine that runs the body of a function on words and stack slots. It is stuck at floats,
aggregates and calls.
-/

namespace Stencil.Ir

/-- What a temporary or a stack slot holds: a word, or the address of a stack slot. -/
inductive Cell where
  | word (value : Nat)
  | slot (number : Nat)
  deriving DecidableEq, Repr, Inhabited

/-- The temporaries and the stack slots of a function while it runs. A slot has the number of the
temporary that holds its address. -/
structure Memory where
  temps : Nat → Option Cell
  slots : Nat → Option Cell

namespace Memory

def empty : Memory := ⟨fun _ => none, fun _ => none⟩

def setTemp (m : Memory) (k : Nat) (c : Cell) : Memory :=
  { m with temps := fun i => if i = k then some c else m.temps i }

def setSlot (m : Memory) (k : Nat) (c : Cell) : Memory :=
  { m with slots := fun i => if i = k then some c else m.slots i }

def reserve (m : Memory) (k : Nat) : Memory where
  temps i := if i = k then some (.slot k) else m.temps i
  slots i := if i = k then none else m.slots i

end Memory

namespace Value

/-- What an operand stands for where a type is expected. -/
def cell? (args : List Cell) (m : Memory) (type : Ty) : Value → Option Cell
  | temp k => m.temps k
  | param k => args[k]?
  | int n => match type with
    | .int bits => some (.word (BitVec.ofInt bits n).toNat)
    | _ => none
  | _ => none

def word? (args : List Cell) (m : Memory) (bits : Nat) (v : Value) : Option (BitVec bits) :=
  match v.cell? args m (.int bits) with
  | some (.word n) => some (BitVec.ofNat bits n)
  | _ => none

def slot? (args : List Cell) (m : Memory) (v : Value) : Option Nat :=
  match v.cell? args m .void with
  | some (.slot k) => some k
  | _ => none

end Value

def BinOp.apply {bits : Nat} (op : BinOp) (signed : Bool) (a b : BitVec bits) :
    Option (BitVec bits) :=
  match op with
  | add => some (a + b)
  | sub => some (a - b)
  | mul => some (a * b)
  | div => if b = 0 then none else some (if signed then a.sdiv b else a.udiv b)
  | rem => if b = 0 then none else some (if signed then a.srem b else a.umod b)
  | and => some (a &&& b)
  | or => some (a ||| b)
  | xor => some (a ^^^ b)
  | shl => some (a <<< b)
  | shr => some (if signed then a.sshiftRight' b else a >>> b)

def CmpOp.test {bits : Nat} (op : CmpOp) (signed : Bool) (a b : BitVec bits) : Bool :=
  match op with
  | eq => a == b
  | ne => a != b
  | lt => if signed then a.slt b else a.ult b
  | le => if signed then a.sle b else a.ule b
  | gt => if signed then b.slt a else b.ult a
  | ge => if signed then b.sle a else b.ule a

def UnOp.apply {bits : Nat} (op : UnOp) (a : BitVec bits) : BitVec bits :=
  match op with
  | neg => -a
  | not => ~~~a

def Inst.run (args : List Cell) (m : Memory) : Inst → Option Memory
  | alloca dst _ => some (m.reserve dst)
  | load dst _ addr => do
    let content ← m.slots (← addr.slot? args m)
    return m.setTemp dst content
  | store type addr src => do
    let content ← src.cell? args m type
    return m.setSlot (← addr.slot? args m) content
  | binary dst op (.int bits) signed left right => do
    let result ← op.apply signed (← left.word? args m bits) (← right.word? args m bits)
    return m.setTemp dst (.word result.toNat)
  | compare dst op (.int bits) signed left right => do
    let holds := op.test signed (← left.word? args m bits) (← right.word? args m bits)
    return m.setTemp dst (.word holds.toNat)
  | unary dst op (.int bits) src => do
    return m.setTemp dst (.word (op.apply (← src.word? args m bits)).toNat)
  | _ => none

inductive State where
  | running (block : Nat) (rest : List Inst) (memory : Memory)
  | returned (value : Option Cell)
  | unreachable
  | stuck

def State.isRunning : State → Bool
  | running .. => true
  | _ => false

def State.block? : State → Option Nat
  | running block _ _ => some block
  | _ => none

namespace Function

def enter (f : Function) (target : Nat) (m : Memory) : State :=
  match f.blocks[target]? with
  | some b => .running target b.insts m
  | none => .stuck

def leave (f : Function) (args : List Cell) (m : Memory) : Terminator → State
  | .ret none => .returned none
  | .ret (some v) => match v.cell? args m f.result with
    | some c => .returned (some c)
    | none => .stuck
  | .jump target => f.enter target m
  | .branch cond yes no => match cond.word? args m 1 with
    | some w => f.enter (if w = 0 then no else yes) m
    | none => .stuck
  | .unreachable => .unreachable

/-- One step of a run. A run that has come to an end stays there. -/
def step (f : Function) (args : List Cell) : State → State
  | .running block (inst :: rest) m => match inst.run args m with
    | some m => .running block rest m
    | none => .stuck
  | .running block [] m => match f.blocks[block]?.bind Block.terminator with
    | some t => f.leave args m t
    | none => .stuck
  | s => s

def start (f : Function) : State :=
  f.enter 0 .empty

def after (f : Function) (args : List Cell) (n : Nat) : State :=
  (f.step args)^[n] f.start

/-- A state that is reached in some steps from another one. -/
def Leads (f : Function) (args : List Cell) (n : Nat) (s s' : State) : Prop :=
  (f.step args)^[n] s = s'

def Lasts (f : Function) (args : List Cell) (n : Nat) (s : State) : Prop :=
  ((f.step args)^[n] s).isRunning

section

variable {f : Function} {args : List Cell} {n k : Nat} {s s' s'' : State}

theorem Leads.refl (s : State) : f.Leads args 0 s s := rfl

theorem Leads.trans (fst : f.Leads args n s s') (snd : f.Leads args k s' s'') :
    f.Leads args (n + k) s s'' := by
  rw [Leads, Nat.add_comm, Function.iterate_add_apply, show (f.step args)^[n] s = s' from fst]
  exact snd

theorem Leads.single (next : f.step args s = s') : f.Leads args 1 s s' := next

theorem leads_of_ended (ended : s.isRunning = false) (n : Nat) : f.Leads args n s s := by
  have fixed : f.step args s = s := by
    cases s <;> first | rfl | cases ended
  exact Function.iterate_fixed fixed n

theorem Lasts.shorter (lasts : f.Lasts args n s) (less : k ≤ n) : f.Lasts args k s := by
  obtain ⟨more, rfl⟩ := Nat.exists_eq_add_of_le less
  rw [Lasts, Nat.add_comm, Function.iterate_add_apply] at lasts
  by_contra ended
  have stays : f.Leads args more ((f.step args)^[k] s) ((f.step args)^[k] s) :=
    leads_of_ended (Bool.eq_false_iff.mpr ended) more
  rw [show (f.step args)^[more] _ = _ from stays] at lasts
  exact ended lasts

theorem Leads.lasts (fst : f.Leads args k s s') (lasts : f.Lasts args n s') :
    f.Lasts args (k + n) s := by
  rw [Lasts, Nat.add_comm, Function.iterate_add_apply, show (f.step args)^[k] s = s' from fst]
  exact lasts

theorem Leads.later (fst : f.Leads args k s s') (ended : s'.isRunning = false) (less : k ≤ n) :
    f.Leads args n s s' := by
  obtain ⟨more, rfl⟩ := Nat.exists_eq_add_of_le less
  exact fst.trans (leads_of_ended ended more)

/-- A run has one end. -/
theorem Leads.unique (fst : f.Leads args n s s') (snd : f.Leads args k s s'')
    (ended : s'.isRunning = false) (ended' : s''.isRunning = false) : s' = s'' := by
  rcases Nat.le_total n k with less | less
  · exact (fst.later ended less).symm.trans snd
  · exact fst.symm.trans (snd.later ended' less)

end

structure Travels (f : Function) (args : List Cell) (n : Nat) (s s' : State) : Prop where
  leads : f.Leads args n s s'
  reaches : ∀ b', s'.block? = some b' → ∃ b, s.block? = some b ∧ f.Reaches b b'

variable {f : Function} {args : List Cell} {n k : Nat} {s s' s'' : State}

theorem Travels.refl (s : State) : f.Travels args 0 s s :=
  ⟨.refl s, fun b here => ⟨b, here, .here b⟩⟩

theorem Travels.trans (fst : f.Travels args n s s') (snd : f.Travels args k s' s'') :
    f.Travels args (n + k) s s'' where
  leads := fst.leads.trans snd.leads
  reaches c there := by
    obtain ⟨b, middle, reaches⟩ := snd.reaches c there
    obtain ⟨a, here, reaches'⟩ := fst.reaches b middle
    exact ⟨a, here, reaches'.trans reaches⟩

theorem travels_inst {i : Nat} {inst : Inst} {rest : List Inst} {m m' : Memory}
    (run : inst.run args m = some m') :
    f.Travels args 1 (.running i (inst :: rest) m) (.running i rest m') where
  leads := Leads.single (by rw [step, run])
  reaches _ there := ⟨i, rfl, Option.some.inj there ▸ .here i⟩

end Function

end Stencil.Ir
