import Stencil.Token.Basic

namespace Stencil

inductive TypeSyntax where
  | primitive (p : Primitive) (span : Span)
  | named (path : List String) (args : List TypeSyntax) (span : Span)
  | array (element : TypeSyntax) (length : Nat) (span : Span)
  | reference (target : TypeSyntax) (span : Span)
  | function (params : List TypeSyntax) (result : Option TypeSyntax) (span : Span)
  | self (span : Span)
  deriving Repr, Inhabited

namespace TypeSyntax

def span : TypeSyntax → Span
  | primitive _ span | named _ _ span | array _ _ span | reference _ span | function _ _ span
  | self span => span

mutual

def text : TypeSyntax → String
  | primitive p _ => p.text
  | named path args _ =>
    let arguments := if args.isEmpty then "" else "<" ++ ", ".intercalate (texts args) ++ ">"
    ".".intercalate path ++ arguments
  | array element length _ => "[" ++ text element ++ "; " ++ toString length ++ "]"
  | reference target _ => "&" ++ text target
  | function params result _ =>
    "func(" ++ ", ".intercalate (texts params) ++ ")" ++ resultText result
  | self _ => "Self"

def texts : List TypeSyntax → List String
  | [] => []
  | t :: ts => text t :: texts ts

def resultText : Option TypeSyntax → String
  | none => ""
  | some t => " => " ++ text t

end

mutual

def bare : TypeSyntax → TypeSyntax
  | primitive p _ => primitive p {}
  | named path args _ => named path (bares args) {}
  | array element length _ => array (bare element) length {}
  | reference target _ => reference (bare target) {}
  | function params result _ => function (bares params) (bareResult result) {}
  | self _ => self {}

def bares : List TypeSyntax → List TypeSyntax
  | [] => []
  | t :: ts => bare t :: bares ts

def bareResult : Option TypeSyntax → Option TypeSyntax
  | none => none
  | some t => some (bare t)

end

end TypeSyntax

end Stencil
