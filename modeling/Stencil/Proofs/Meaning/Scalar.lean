import Stencil.Syntax.Item
import Stencil.Ty.Basic

/-!
The part of the language that only has integers and truth values in variables, and an interpreter
that works on the source as it is written.
-/

namespace Stencil

inductive ScalarType where
  | int | bool
  deriving DecidableEq, Repr, Inhabited

inductive Scalar where
  | int (value : BitVec 32)
  | bool (value : Bool)
  deriving DecidableEq, Repr, Inhabited

namespace ScalarType

def ty : ScalarType → Ty
  | int => .int 32 true
  | bool => .bool

def ofPrimitive? : Primitive → Option ScalarType
  | .int => some int
  | .bool => some bool
  | _ => none

def result? (type : ScalarType) (op : BinaryOp) : Option ScalarType :=
  match type, op with
  | int, .add | int, .sub | int, .mul => some int
  | int, .eq | int, .ne | int, .lt | int, .le | int, .gt | int, .ge => some bool
  | bool, .eq | bool, .ne | bool, .bitAnd | bool, .bitOr | bool, .bitXor | bool, .and | bool, .or =>
    some bool
  | _, _ => none

end ScalarType

namespace Scalar

def type : Scalar → ScalarType
  | int _ => .int
  | bool _ => .bool

def apply (op : BinaryOp) : Scalar → Scalar → Option Scalar
  | int a, int b => match op with
    | .add => some (int (a + b))
    | .sub => some (int (a - b))
    | .mul => some (int (a * b))
    | .eq => some (bool (a == b))
    | .ne => some (bool (a != b))
    | .lt => some (bool (a.slt b))
    | .le => some (bool (a.sle b))
    | .gt => some (bool (b.slt a))
    | .ge => some (bool (b.sle a))
    | _ => none
  | bool a, bool b => match op with
    | .eq => some (bool (a == b))
    | .ne => some (bool (a != b))
    | .bitAnd => some (bool (a && b))
    | .bitOr => some (bool (a || b))
    | .bitXor => some (bool (a ^^ b))
    | _ => none
  | _, _ => none

end Scalar

/-- The variables that can be seen, from the inside to the outside, with their values. -/
abbrev Env := List (String × Scalar)

def Env.assign (name : String) (v : Scalar) : Env → Env
  | [] => []
  | (other, old) :: rest =>
    if other = name then (other, v) :: rest else (other, old) :: Env.assign name v rest

def Expr.eval (env : Env) : Expr → Option Scalar
  | .int n _ => some (.int (BitVec.ofNat 32 n.toNat))
  | .bool b _ => some (.bool b)
  | .identifier name _ => env.lookup name
  | .unary .not arg _ => match arg.eval env with
    | some (.bool b) => some (.bool !b)
    | _ => none
  | .binary .and left right _ => match left.eval env with
    | some (.bool true) => right.eval env
    | some (.bool false) => some (.bool false)
    | _ => none
  | .binary .or left right _ => match left.eval env with
    | some (.bool true) => some (.bool true)
    | some (.bool false) => right.eval env
    | _ => none
  | .binary op left right _ => do Scalar.apply op (← left.eval env) (← right.eval env)
  | _ => none

/-- How a statement ends. -/
inductive Outcome where
  | normal
  | leave
  | again
  | returned (value : Scalar)
  deriving DecidableEq, Repr, Inhabited

def iterate (test : Env → Option Scalar) (body : Env → Option (Outcome × Env)) :
    Nat → Env → Option (Outcome × Env)
  | 0, _ => none
  | limit + 1, env => match test env with
    | some (.bool true) => match body env with
      | some (.normal, env) | some (.again, env) => iterate test body limit env
      | some (.leave, env) => some (.normal, env)
      | some (.returned v, env) => some (.returned v, env)
      | none => none
    | some (.bool false) => some (.normal, env)
    | _ => none

mutual

/-- Runs a statement, in which no loop goes on for more than `fuel` rounds at a time. -/
def Stmt.run (fuel : Nat) : Stmt → Env → Option (Outcome × Env)
  | .binding name _ _ (some init) _ _, env => do return (.normal, (name, ← init.eval env) :: env)
  | .assign (.identifier name _) value _, env => do
    return (.normal, Env.assign name (← value.eval env) env)
  | .ret (some value) _, env => do return (.returned (← value.eval env), env)
  | .branch cond body otherwise _, env => match cond.eval env with
    | some (.bool true) => body.run fuel env
    | some (.bool false) => otherwise.run fuel env
    | _ => none
  | .loop cond body _, env =>
    iterate (fun env => cond.eval env) (fun env => body.run fuel env) fuel env
  | .leave _, env => some (.leave, env)
  | .again _, env => some (.again, env)
  | .block body _, env => body.run fuel env
  | _, _ => none

def Alternative.run (fuel : Nat) : Alternative → Env → Option (Outcome × Env)
  | .absent, env => some (.normal, env)
  | .block body, env => body.run fuel env
  | .branch next, env => next.run fuel env

/-- Runs a block. Its own variables are gone afterwards. -/
def Block.run (fuel : Nat) : Block → Env → Option (Outcome × Env)
  | .mk stmts _, env => do
    let (outcome, inner) ← Stmt.runAll fuel stmts env
    return (outcome, inner.drop (inner.length - env.length))

def Stmt.runAll (fuel : Nat) : List Stmt → Env → Option (Outcome × Env)
  | [], env => some (.normal, env)
  | s :: stmts, env => match s.run fuel env with
    | some (.normal, env) => Stmt.runAll fuel stmts env
    | ended => ended

end

def FuncDecl.bind (d : FuncDecl) (args : List Scalar) : Env :=
  ((d.params.map Param.name).zip args).reverse

def FuncDecl.call (d : FuncDecl) (fuel : Nat) (args : List Scalar) : Option Scalar := do
  match ← (← d.body).run fuel (d.bind args) with
  | (.returned v, _) => some v
  | _ => none

abbrev Typing := List (String × ScalarType)

/-- The type of an expression in the fragment, other than an integer literal. -/
def Expr.scalar? (names : Typing) : Expr → Option ScalarType
  | .bool _ _ => some .bool
  | .identifier name _ => names.lookup name
  | .unary .not arg _ => if arg.scalar? names = some .bool then some .bool else none
  | .binary op left right _ =>
    match left.scalar? names with
    | some type => if right.scalar? names = some type then type.result? op else none
    | none => none
  | _ => none

/-- Whether an expression can be the value of a variable or of a function. Only there an integer
literal can stand, if it is not too large. -/
def Expr.isScalar (names : Typing) (type : ScalarType) : Expr → Bool
  | .int n _ => type = .int && n.toNat < Nat.pow 2 31
  | e => e.scalar? names = some type

def isWritten (name : String) : Bool :=
  '#' ∉ name.toList

mutual

def Stmt.scalar? (result : ScalarType) : Stmt → Typing → Option Typing
  | .binding name _ (some (.primitive p _)) (some init) false _, names =>
    match ScalarType.ofPrimitive? p with
    | some type =>
      if isWritten name && init.isScalar names type then some ((name, type) :: names) else none
    | none => none
  | .assign (.identifier name _) value _, names =>
    match names.lookup name with
    | some type => if value.isScalar names type then some names else none
    | none => none
  | .ret (some value) _, names => if value.isScalar names result then some names else none
  | .branch cond body otherwise _, names =>
    if cond.scalar? names = some .bool && body.isScalar result names &&
      otherwise.isScalar result names then some names else none
  | .loop cond body _, names =>
    if cond.scalar? names = some .bool && body.isScalar result names then some names else none
  | .leave _, names | .again _, names => some names
  | .block body _, names => if body.isScalar result names then some names else none
  | _, _ => none

def Alternative.isScalar (result : ScalarType) : Alternative → Typing → Bool
  | .absent, _ => true
  | .block body, names => body.isScalar result names
  | .branch next, names => next.scalar? result names = some names

def Block.isScalar (result : ScalarType) : Block → Typing → Bool
  | .mk stmts _, names => (Stmt.scalars? result stmts names).isSome

def Stmt.scalars? (result : ScalarType) : List Stmt → Typing → Option Typing
  | [], names => some names
  | s :: stmts, names =>
    match s.scalar? result names with
    | some names => Stmt.scalars? result stmts names
    | none => none

end

/-- Whether a function that takes values of given types and gives back one is in the fragment. -/
def FuncDecl.isScalar (d : FuncDecl) (params : List ScalarType) (result : ScalarType) : Bool :=
  d.params.length = params.length && d.params.all (isWritten ·.name) &&
    d.body.any (·.isScalar result ((d.params.map Param.name).zip params).reverse)

end Stencil
