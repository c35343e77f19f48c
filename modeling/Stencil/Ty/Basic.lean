import Stencil.Ir.Type
import Stencil.Token.Basic

/-!
Types of the language. Templates and specs are known by the number of their scope; their name is
kept for printing and for the struct that holds an instance.
-/

namespace Stencil

abbrev ScopeId := Nat

inductive Ty where
  | void
  /-- An integer, or a truth value when it has one bit. -/
  | int (bits : Nat) (signed : Bool)
  | float (bits : Nat)
  /-- A function; `member` when it takes an instance before its parameters. -/
  | function (params : List Ty) (result : Ty) (member : Bool)
  | struct (name : String) (scope : ScopeId)
  /-- A spec, or a type that a spec leaves open. It has no storage. -/
  | spec (name : String) (scope : ScopeId)
  | array (element : Ty) (length : Nat)
  | pointer (target : Ty)
  deriving Repr, Inhabited

namespace Ty

mutual

def beq : Ty → Ty → Bool
  | void, void => true
  | int m s, int n t => m == n && s == t
  | float m, float n => m == n
  | function ps a m, function qs b n => beqs ps qs && beq a b && m == n
  | struct a i, struct b j => a == b && i == j
  | spec a i, spec b j => a == b && i == j
  | array a m, array b n => beq a b && m == n
  | pointer a, pointer b => beq a b
  | _, _ => false

def beqs : List Ty → List Ty → Bool
  | [], [] => true
  | a :: as, b :: bs => beq a b && beqs as bs
  | _, _ => false

end

mutual

theorem beq_iff : (a b : Ty) → (beq a b = true ↔ a = b)
  | void, b => by cases b <;> simp [beq]
  | int .., b => by cases b <;> simp [beq]
  | float _, b => by cases b <;> simp [beq]
  | function ps a _, b => by cases b <;> simp [beq, beq_iff a, beqs_iff ps, and_assoc]
  | struct .., b => by cases b <;> simp [beq]
  | spec .., b => by cases b <;> simp [beq]
  | array a _, b => by cases b <;> simp [beq, beq_iff a]
  | pointer a, b => by cases b <;> simp [beq, beq_iff a]

theorem beqs_iff : (as bs : List Ty) → (beqs as bs = true ↔ as = bs)
  | [], bs => by cases bs <;> simp [beqs]
  | a :: as, bs => by cases bs <;> simp [beqs, beq_iff a, beqs_iff as]

end

instance : DecidableEq Ty := fun a b => decidable_of_iff _ (beq_iff a b)

abbrev bool : Ty := int 1 false

abbrev double : Ty := float 64

def ofPrimitive : Primitive → Ty
  | .int | .int32 => int 32 true
  | .int8 => int 8 true
  | .int16 => int 16 true
  | .int64 => int 64 true
  | .uint | .uint32 => int 32 false
  | .uint8 => int 8 false
  | .uint16 => int 16 false
  | .uint64 => int 64 false
  | .float => float 32
  | .double => float 64
  | .bool => bool
  | .void => void

def isVoid : Ty → Bool
  | void => true
  | _ => false

def isBool : Ty → Bool
  | int 1 _ => true
  | _ => false

def isInteger : Ty → Bool
  | int bits _ => bits != 1
  | _ => false

def isFloat : Ty → Bool
  | float _ => true
  | _ => false

def isNumeric (t : Ty) : Bool :=
  t.isInteger || t.isFloat

def isSigned : Ty → Bool
  | int _ signed => signed
  | float _ => true
  | _ => false

def isScalar : Ty → Bool
  | int .. | float _ => true
  | _ => false

def isPointer : Ty → Bool
  | pointer _ => true
  | _ => false

def bits : Ty → Nat
  | int bits _ | float bits => bits
  | _ => 0

def pointee? : Ty → Option Ty
  | pointer target => some target
  | _ => none

def structScope? : Ty → Option ScopeId
  | struct _ scope => some scope
  | _ => none

mutual

def text : Ty → String
  | void => "void"
  | int 1 _ => "bool"
  | int 32 true => "int"
  | int 32 false => "uint"
  | int bits true => "int" ++ toString bits
  | int bits false => "uint" ++ toString bits
  | float 32 => "float"
  | float _ => "double"
  | function params result _ =>
    "func(" ++ ", ".intercalate (texts params) ++ ") => " ++ text result
  | struct name _ => name
  | spec name _ => name
  | array element length => "[" ++ text element ++ "; " ++ toString length ++ "]"
  | pointer target => "&" ++ text target

def texts : List Ty → List String
  | [] => []
  | t :: ts => text t :: texts ts

end

mutual

def ir : Ty → Ir.Ty
  | void => .void
  | int bits _ => .int bits
  | float bits => .float bits
  | function params result _ => .pointer (.function (irs params) (ir result))
  | struct name _ => .struct name
  | spec _ _ => .void
  | array element length => .array (ir element) length
  | pointer target => .pointer (ir target)

def irs : List Ty → List Ir.Ty
  | [] => []
  | t :: ts => ir t :: irs ts

end

end Ty

structure Signature where
  params : List Ty
  result : Ty
  member : Bool
  deriving DecidableEq, Repr, Inhabited

namespace Signature

def type (s : Signature) : Ty :=
  .function s.params s.result s.member

/-- The function type in the intermediate code. The address of an instance comes first. -/
def ir (s : Signature) (receiver : Option Ty) : Ir.Ty :=
  .function ((receiver.map fun r => Ir.Ty.pointer r.ir).toList ++ Ty.irs s.params) s.result.ir

end Signature

end Stencil
