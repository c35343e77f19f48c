import Stencil.Ir.Inst
import Stencil.Text.Escape

namespace Stencil.Ir

structure Block where
  id : Nat
  name : String
  insts : List Inst := []
  terminator : Option Terminator := none
  deriving DecidableEq, Repr, Inhabited

namespace Block

def isEmpty (b : Block) : Bool :=
  b.insts.isEmpty && b.terminator.isNone

def isTerminated (b : Block) : Bool :=
  b.terminator.isSome

def successors (b : Block) : List Nat :=
  (b.terminator.map Terminator.successors).getD []

def taken (b : Block) : List Nat :=
  (b.terminator.map Terminator.taken).getD []

end Block

structure Function where
  name : String
  params : List Ty
  result : Ty
  exported : Bool := false
  blocks : List Block := []
  deriving DecidableEq, Repr, Inhabited

namespace Function

abbrev size (f : Function) : Nat := f.blocks.length

def isDeclaration (f : Function) : Bool :=
  f.blocks.isEmpty

def insts (f : Function) : List Inst :=
  f.blocks.flatMap Block.insts

def returns (f : Function) : Nat :=
  (f.blocks.filter fun b => match b.terminator with
    | some (.ret _) => true
    | _ => false).length

def blockName (f : Function) (id : Nat) : String :=
  (f.blocks[id]?.map Block.name).getD ""

def endText (f : Function) : Option Terminator → String
  | some (.ret (some value)) => "  ret " ++ value.text
  | some (.ret none) => "  ret"
  | some (.jump target) => "  br " ++ f.blockName target
  | some (.branch condition yes no) =>
    "  condbr " ++ condition.text ++ ", " ++ f.blockName yes ++ ", " ++ f.blockName no
  | some .unreachable => "  unreachable"
  | none => "  ; unterminated"

def blockText (f : Function) (b : Block) : String :=
  b.name ++ ":\n" ++ String.join (b.insts.map fun i => i.text ++ "\n") ++
    f.endText b.terminator ++ "\n"

def text (f : Function) : String :=
  let exportMark := if f.exported then "export " else ""
  let word := if f.isDeclaration then "declare" else "func"
  let body :=
    if f.isDeclaration then "\n"
    else " \x7b\n" ++ String.join (f.blocks.map f.blockText) ++ "\x7d\n"
  exportMark ++ word ++ " @" ++ f.name ++ "(" ++ ", ".intercalate (f.params.map Ty.text) ++
    ") -> " ++ f.result.text ++ body

end Function

/-- A named aggregate; opaque until its fields are given. -/
structure Struct where
  name : String
  fields : Option (List Ty)
  deriving DecidableEq, Repr, Inhabited

def Struct.text (s : Struct) : String :=
  match s.fields with
  | some fields =>
    "struct %" ++ s.name ++ " = \x7b " ++ ", ".intercalate (fields.map Ty.text) ++ " \x7d\n"
  | none => "struct %" ++ s.name ++ " = opaque\n"

inductive Init where
  | int (value : Int)
  | float (value : Float)
  | bytes (content : List UInt8)
  deriving DecidableEq, Repr, Inhabited

def Init.text : Init → String
  | int value => toString value
  | float value => FloatLayout.listing.write value
  | bytes content => "\"" ++ Escape.byteText content ++ "\""

structure Global where
  name : String
  type : Ty
  init : Option Init
  constant : Bool
  deriving DecidableEq, Repr, Inhabited

def Global.text (g : Global) : String :=
  let word := if g.constant then "const" else "global"
  let value := match g.init with
    | some init => " = " ++ init.text
    | none => ""
  word ++ " @" ++ g.name ++ ": " ++ g.type.text ++ value ++ "\n"

structure Module where
  name : String
  structs : List Struct := []
  globals : List Global := []
  functions : List Function := []
  deriving DecidableEq, Repr, Inhabited

namespace Module

def function? (m : Module) (name : String) : Option Function :=
  m.functions.find? (·.name = name)

def struct? (m : Module) (name : String) : Option Struct :=
  m.structs.find? (·.name = name)

def global? (m : Module) (name : String) : Option Global :=
  m.globals.find? (·.name = name)

def text (m : Module) : String :=
  "module " ++ m.name ++ "\n" ++ String.join (m.structs.map Struct.text) ++
    String.join (m.globals.map Global.text) ++
    String.join (m.functions.map fun f => "\n" ++ f.text)

end Module

end Stencil.Ir
