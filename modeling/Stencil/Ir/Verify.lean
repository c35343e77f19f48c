import Stencil.Ir.Module

/-!
The structure of finished modules: every struct that is used has fields, every block ends, and
every branch goes to a block that exists.
-/

namespace Stencil.Ir

inductive Defect where
  | bareStruct (place struct : String)
  | bareField (place struct : String)
  | unterminated (place block : String)
  | missingBlock (place block : String) (target : Nat)
  deriving DecidableEq, Repr, Inhabited

def Defect.text : Defect → String
  | bareStruct place struct => s!"{place}: struct `%{struct}` has no body"
  | bareField place struct => s!"{place}: field access into undefined struct `%{struct}`"
  | unterminated place block => s!"{place}: block `{block}` is not terminated"
  | missingBlock place block target =>
    s!"{place}: block `{block}` branches to missing block {target}"

namespace Module

def isDefined (m : Module) (struct : String) : Bool :=
  m.structs.any fun s => s.name = struct && s.fields.isSome

def typeDefects (m : Module) (place : String) (type : Ty) : List Defect :=
  (type.structs.filter fun s => !m.isDefined s).map (.bareStruct place)

def instDefects (m : Module) (place : String) (inst : Inst) : List Defect :=
  inst.types.flatMap (m.typeDefects place) ++
    match inst with
    | .fieldAddr _ struct _ _ => if m.isDefined struct then [] else [.bareField place struct]
    | _ => []

def endDefects (f : Function) (place : String) (b : Block) : List Defect :=
  match b.terminator with
  | none => [.unterminated place b.name]
  | some t =>
    (t.successors.filter (f.size ≤ ·)).map (.missingBlock place b.name)

def functionDefects (m : Module) (f : Function) : List Defect :=
  if f.isDeclaration then []
  else
    let place := "function @" ++ f.name
    f.params.flatMap (m.typeDefects place) ++ m.typeDefects place f.result ++
      f.blocks.flatMap fun b =>
        b.insts.flatMap (m.instDefects place) ++ endDefects f place b

def defects (m : Module) : List Defect :=
  m.structs.flatMap (fun s =>
    (s.fields.getD []).flatMap (m.typeDefects ("struct %" ++ s.name))) ++
  m.globals.flatMap (fun g => m.typeDefects ("global @" ++ g.name) g.type) ++
  m.functions.flatMap m.functionDefects

end Module

end Stencil.Ir
