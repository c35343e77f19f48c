import Stencil.Decimal.Layout
import Stencil.Ir.Type

namespace Stencil.Ir

inductive Value where
  | temp (id : Nat)
  | int (value : Int)
  | float (value : Float)
  /-- A parameter of the function, by its position. -/
  | param (index : Nat)
  | global (name : String)
  | function (name : String)
  | undef
  deriving DecidableEq, Repr, Inhabited

namespace Value

def int? : Value → Option Int
  | int value => some value
  | _ => none

def isConstant : Value → Bool
  | int _ | float _ => true
  | _ => false

def text : Value → String
  | temp id => "t" ++ toString id
  | int value => toString value
  | float value => FloatLayout.listing.write value
  | param index => "%arg" ++ toString index
  | global name | function name => "@" ++ name
  | undef => "undef"

end Value

inductive BinOp where
  | add | sub | mul | div | rem | and | or | xor | shl | shr
  deriving DecidableEq, Repr, Inhabited

def BinOp.text : BinOp → String
  | add => "add"
  | sub => "sub"
  | mul => "mul"
  | div => "div"
  | rem => "rem"
  | and => "and"
  | or => "or"
  | xor => "xor"
  | shl => "shl"
  | shr => "shr"

inductive CmpOp where
  | eq | ne | lt | le | gt | ge
  deriving DecidableEq, Repr, Inhabited

def CmpOp.text : CmpOp → String
  | eq => "eq"
  | ne => "ne"
  | lt => "lt"
  | le => "le"
  | gt => "gt"
  | ge => "ge"

inductive UnOp where
  | neg | not
  deriving DecidableEq, Repr, Inhabited

def UnOp.text : UnOp → String
  | neg => "neg"
  | not => "not"

inductive CastKind where
  | trunc | zext | sext | fpext | fptrunc | fptosi | fptoui | sitofp | uitofp | bitcast
  deriving DecidableEq, Repr, Inhabited

def CastKind.text : CastKind → String
  | trunc => "trunc"
  | zext => "zext"
  | sext => "sext"
  | fpext => "fpext"
  | fptrunc => "fptrunc"
  | fptosi => "fptosi"
  | fptoui => "fptoui"
  | sitofp => "sitofp"
  | uitofp => "uitofp"
  | bitcast => "bitcast"

/-- An instruction; `dst` numbers the temporary that holds its result. -/
inductive Inst where
  | alloca (dst : Nat) (type : Ty)
  | load (dst : Nat) (type : Ty) (addr : Value)
  | store (type : Ty) (addr src : Value)
  | binary (dst : Nat) (op : BinOp) (type : Ty) (signed : Bool) (left right : Value)
  | compare (dst : Nat) (op : CmpOp) (type : Ty) (signed : Bool) (left right : Value)
  | unary (dst : Nat) (op : UnOp) (type : Ty) (src : Value)
  | cast (dst : Nat) (kind : CastKind) (source target : Ty) (src : Value)
  | fieldAddr (dst : Nat) (struct : String) (base : Value) (index : Nat)
  | elemAddr (dst : Nat) (element : Ty) (base index : Value)
  | call (dst : Option Nat) (callee : Value) (args : List Value) (result : Ty)
  deriving DecidableEq, Repr, Inhabited

namespace Inst

def isAlloca : Inst → Bool
  | alloca .. => true
  | _ => false

def dst? : Inst → Option Nat
  | alloca dst _ | load dst _ _ | binary dst _ _ _ _ _ | compare dst _ _ _ _ _ | unary dst _ _ _
  | cast dst _ _ _ _ | fieldAddr dst _ _ _ | elemAddr dst _ _ _ => some dst
  | store _ _ _ => none
  | call dst _ _ _ => dst

def operands : Inst → List Value
  | alloca _ _ => []
  | load _ _ addr => [addr]
  | store _ addr src => [addr, src]
  | binary _ _ _ _ left right | compare _ _ _ _ left right => [left, right]
  | unary _ _ _ src | cast _ _ _ _ src => [src]
  | fieldAddr _ _ base _ => [base]
  | elemAddr _ _ base index => [base, index]
  | call _ callee args _ => callee :: args

def types : Inst → List Ty
  | alloca _ type | load _ type _ | store type _ _ | binary _ _ type _ _ _
  | compare _ _ type _ _ _ | unary _ _ type _ => [type]
  | cast _ _ source target _ => [source, target]
  | elemAddr _ element _ _ => [element]
  | call _ _ _ result => [result]
  | fieldAddr .. => []

def signMark (signed : Bool) : String :=
  if signed then "s" else ""

def text : Inst → String
  | alloca dst type => "  " ++ (Value.temp dst).text ++ " = alloca " ++ type.text
  | load dst type addr =>
    "  " ++ (Value.temp dst).text ++ " = load " ++ type.text ++ ", " ++ addr.text
  | store type addr src => "  store " ++ type.text ++ " " ++ src.text ++ ", " ++ addr.text
  | binary dst op type signed left right =>
    "  " ++ (Value.temp dst).text ++ " = " ++ signMark signed ++ op.text ++ " " ++ type.text ++
      " " ++ left.text ++ ", " ++ right.text
  | compare dst op type signed left right =>
    "  " ++ (Value.temp dst).text ++ " = cmp " ++ signMark signed ++ op.text ++ " " ++
      type.text ++ " " ++ left.text ++ ", " ++ right.text
  | unary dst op type src =>
    "  " ++ (Value.temp dst).text ++ " = " ++ op.text ++ " " ++ type.text ++ " " ++ src.text
  | cast dst kind source target src =>
    "  " ++ (Value.temp dst).text ++ " = " ++ kind.text ++ " " ++ source.text ++ " " ++
      src.text ++ " to " ++ target.text
  | fieldAddr dst struct base index =>
    "  " ++ (Value.temp dst).text ++ " = fieldaddr %" ++ struct ++ ", " ++ base.text ++ ", " ++
      toString index
  | elemAddr dst element base index =>
    "  " ++ (Value.temp dst).text ++ " = elemaddr " ++ element.text ++ ", " ++ base.text ++
      ", " ++ index.text
  | call dst callee args result =>
    let assigned := match dst with
      | some dst => (Value.temp dst).text ++ " = "
      | none => ""
    "  " ++ assigned ++ "call " ++ result.text ++ " " ++ callee.text ++ "(" ++
      ", ".intercalate (args.map Value.text) ++ ")"

end Inst

/-- How a block ends; blocks are numbered within their function. -/
inductive Terminator where
  | ret (value : Option Value)
  | jump (target : Nat)
  | branch (condition : Value) (yes no : Nat)
  | unreachable
  deriving DecidableEq, Repr, Inhabited

namespace Terminator

def successors : Terminator → List Nat
  | jump target => [target]
  | branch _ yes no => [yes, no]
  | ret _ | unreachable => []

def taken : Terminator → List Nat
  | branch (.int n) yes no => [if n ≠ 0 then yes else no]
  | t => t.successors

end Terminator

end Stencil.Ir
