namespace Stencil

inductive DiagnosticKind where
  | lexical
  | syntactic
  | unknownType
  | argumentCount
  | argumentMismatch
  | noConversion
  | unknownName
  | instanceRequired
  | notFunction
  | constantAssigned
  | notBoolean
  | missingReturn
  | duplicate
  | notImplemented
  | conformance
  | constraint
  | invalid
  | codegen
  deriving DecidableEq, Repr, Inhabited

namespace DiagnosticKind

def code : DiagnosticKind → String
  | lexical => "E0001"
  | syntactic => "E0002"
  | unknownType => "E0100"
  | argumentCount => "E0101"
  | argumentMismatch => "E0102"
  | noConversion => "E0103"
  | unknownName => "E0104"
  | instanceRequired => "E0105"
  | notFunction => "E0106"
  | constantAssigned => "E0107"
  | notBoolean => "E0108"
  | missingReturn => "E0109"
  | duplicate => "E0110"
  | notImplemented => "E0200"
  | conformance => "E0201"
  | constraint => "E0202"
  | invalid => "E0300"
  | codegen => "E0400"

def title : DiagnosticKind → String
  | lexical => "lexer error"
  | syntactic => "syntax error"
  | unknownType => "unknown type"
  | argumentCount => "argument count mismatch"
  | argumentMismatch => "argument mismatch"
  | noConversion => "no implicit conversion"
  | unknownName => "cannot find name"
  | instanceRequired => "instance required"
  | notFunction => "not a function"
  | constantAssigned => "assignment to constant"
  | notBoolean => "condition is not a boolean"
  | missingReturn => "missing return"
  | duplicate => "duplicate declaration"
  | notImplemented => "member not implemented"
  | conformance => "spec not satisfied"
  | constraint => "generic constraint not satisfied"
  | invalid => "invalid operation"
  | codegen => "code generation error"

end DiagnosticKind

end Stencil
