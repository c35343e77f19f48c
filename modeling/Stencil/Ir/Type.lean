/-!
Types of the intermediate code. Integers are plain bit vectors; the instructions that care say how
to read them.
-/

namespace Stencil.Ir

inductive Ty where
  | void
  | int (bits : Nat)
  | float (bits : Nat)
  | pointer (target : Ty)
  | array (element : Ty) (count : Nat)
  | struct (name : String)
  | function (params : List Ty) (result : Ty)
  deriving Repr, Inhabited

namespace Ty

mutual

def beq : Ty → Ty → Bool
  | void, void => true
  | int a, int b => a == b
  | float a, float b => a == b
  | pointer a, pointer b => beq a b
  | array a m, array b n => beq a b && m == n
  | struct a, struct b => a == b
  | function ps a, function qs b => beqs ps qs && beq a b
  | _, _ => false

def beqs : List Ty → List Ty → Bool
  | [], [] => true
  | a :: as, b :: bs => beq a b && beqs as bs
  | _, _ => false

end

mutual

theorem beq_iff : (a b : Ty) → (beq a b = true ↔ a = b)
  | void, b => by cases b <;> simp [beq]
  | int _, b => by cases b <;> simp [beq]
  | float _, b => by cases b <;> simp [beq]
  | pointer a, b => by cases b <;> simp [beq, beq_iff a]
  | array a _, b => by cases b <;> simp [beq, beq_iff a]
  | struct _, b => by cases b <;> simp [beq]
  | function ps a, b => by cases b <;> simp [beq, beq_iff a, beqs_iff ps]

theorem beqs_iff : (as bs : List Ty) → (beqs as bs = true ↔ as = bs)
  | [], bs => by cases bs <;> simp [beqs]
  | a :: as, bs => by cases bs <;> simp [beqs, beq_iff a, beqs_iff as]

end

instance : DecidableEq Ty := fun a b => decidable_of_iff _ (beq_iff a b)

abbrev bool : Ty := int 1

def isVoid : Ty → Bool
  | void => true
  | _ => false

def isInteger : Ty → Bool
  | int _ => true
  | _ => false

def isBool : Ty → Bool
  | int 1 => true
  | _ => false

def isFloat : Ty → Bool
  | float _ => true
  | _ => false

def isPointer : Ty → Bool
  | pointer _ => true
  | _ => false

def isAggregate : Ty → Bool
  | struct _ | array _ _ => true
  | _ => false

def element? : Ty → Option Ty
  | pointer target => some target
  | array element _ => some element
  | _ => none

def bits? : Ty → Option Nat
  | int bits | float bits => some bits
  | _ => none

mutual

/-- The names of all structs that a type mentions, in order and with repetitions. -/
def structs : Ty → List String
  | void | int _ | float _ => []
  | pointer target => structs target
  | array element _ => structs element
  | struct name => [name]
  | function params result => structsOf params ++ structs result

def structsOf : List Ty → List String
  | [] => []
  | t :: ts => structs t ++ structsOf ts

end

mutual

def text : Ty → String
  | void => "void"
  | int bits => "i" ++ toString bits
  | float bits => "f" ++ toString bits
  | pointer target => "ptr<" ++ text target ++ ">"
  | array element count => "[" ++ toString count ++ " x " ++ text element ++ "]"
  | struct name => "%" ++ name
  | function params result => "fn(" ++ ", ".intercalate (texts params) ++ ") -> " ++ text result

def texts : List Ty → List String
  | [] => []
  | t :: ts => text t :: texts ts

end

end Ty

end Stencil.Ir
