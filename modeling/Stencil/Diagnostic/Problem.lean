import Stencil.Diagnostic.Kind

/-!
What can be wrong with a program. Names and types are carried as they are to be printed; all
wording is in `Problem.message`.
-/

namespace Stencil

inductive Problem where
  | stated (kind : DiagnosticKind) (text : String)
  -- text and tokens
  | invalidString (literal : String)
  | invalidNumber (literal : String)
  | unexpectedCharacter (character : String)
  | expected (what found : String)
  | unclosedBlock
  | tooDeep
  | constantWithoutValue (name : String)
  -- names and declarations
  | unknownType (name : String)
  | unknownName (name : String)
  | duplicate (name : String)
  | argumentCount (what : String) (expected found : Nat)
  | selfReferringAlias (name : String)
  | noMembers (type : String)
  | notNamespace (name : String)
  | notGeneric (name : String)
  | notSpec (type : String)
  | specStorage (name : String)
  | voidStorage
  | recursiveTemplate (name path : String)
  | selfOutsideTemplate (function : String)
  | selfWithoutTemplate
  | constantInitializer (name : String)
  -- specs and constraints
  | noActions (type : String)
  | associatedTypeUndefined (name : String)
  | typeNotImplemented (name spec : String)
  | functionNotImplemented (name spec : String)
  | receiverDiffers (function : String) (required : Bool) (spec : String)
  | parameterCountDiffers (function : String) (found : Nat) (spec : String) (required : Nat)
  | parameterDiffers (parameter function found spec required : String)
  | resultDiffers (function found spec required : String)
  | specNotSatisfied (template spec : String) (count : Nat)
  | constraintNotMet (argument spec parameter : String)
  | cannotInstantiate (generic : String) (count : Nat)
  | endlessInstances
  -- conversions
  | conversionNeedsCast (source target : String)
  | noConversion (source target : String)
  | literalOutOfRange (literal target : String)
  -- expressions
  | notLiteral
  | emptyArray
  | noCommonEntryType (left right : String)
  | untypedInitializer
  | operands (operator left right : String)
  | divisionByZero
  | constantOverflow
  | cannotNegate (type : String)
  | complementNeedsInteger (type : String)
  | notBoolean (found : String)
  | notFunction (name : String)
  | notCallable (type : String)
  | bodilessCall (function : String)
  | receiverMissing (function : String)
  | receiverUnexpected (function : String)
  | memberFunctionValue (function : String)
  | notValue (name : String)
  | namespaceValue (name : String)
  | functionMember (function member : String)
  | fieldWithoutInstance (name : String)
  | notInstance (type member : String)
  | cannotDereference (type : String)
  | cannotIndex (type : String)
  | indexNotInteger (type : String)
  | indexOutOfBounds (index : Int) (type : String)
  | notAssignable
  | namedArrayEntries
  | notBuiltFromList (type : String)
  | notArray (type : String)
  -- statements
  | constantAssigned (name : String)
  | outsideLoop (keyword : String)
  | returnOutsideFunction
  | undeterminedVariable (name : String)
  | untypedVariableList (name : String)
  | voidReturnsValue
  | returnValueExpected (type : String)
  | neverReturns (function : String)
  | mayNotReturn (function : String)
  -- generated code
  | noInsertionBlock
  | missingInsertionBlock
  | alreadyTerminated (block : String)
  | defectiveCode (defect : String)
  deriving DecidableEq, Repr, Inhabited

namespace Problem

def kind : Problem → DiagnosticKind
  | stated kind _ => kind
  | invalidString _ | invalidNumber _ | unexpectedCharacter _ => .lexical
  | expected .. | unclosedBlock | tooDeep | constantWithoutValue _ => .syntactic
  | unknownType _ => .unknownType
  | unknownName _ => .unknownName
  | duplicate _ => .duplicate
  | argumentCount .. => .argumentCount
  | typeNotImplemented .. | functionNotImplemented .. => .notImplemented
  | receiverDiffers .. | parameterCountDiffers .. | parameterDiffers .. | resultDiffers ..
  | noCommonEntryType .. | operands .. | voidReturnsValue | returnValueExpected _ =>
    .argumentMismatch
  | specNotSatisfied .. => .conformance
  | constraintNotMet .. | cannotInstantiate .. => .constraint
  | conversionNeedsCast .. | noConversion .. | literalOutOfRange .. => .noConversion
  | notBoolean _ => .notBoolean
  | notFunction _ | notCallable _ => .notFunction
  | receiverMissing _ | receiverUnexpected _ | fieldWithoutInstance _ | notInstance .. =>
    .instanceRequired
  | constantAssigned _ => .constantAssigned
  | neverReturns _ | mayNotReturn _ => .missingReturn
  | noInsertionBlock | missingInsertionBlock | alreadyTerminated _ | defectiveCode _ => .codegen
  | selfReferringAlias _ | noMembers _ | notNamespace _ | notGeneric _ | notSpec _
  | specStorage _ | voidStorage | recursiveTemplate .. | selfOutsideTemplate _
  | selfWithoutTemplate | constantInitializer _ | noActions _ | associatedTypeUndefined _
  | notLiteral | emptyArray | untypedInitializer | divisionByZero | constantOverflow
  | cannotNegate _ | complementNeedsInteger _ | bodilessCall _ | memberFunctionValue _
  | notValue _ | namespaceValue _ | functionMember .. | cannotDereference _ | cannotIndex _
  | indexNotInteger _ | indexOutOfBounds .. | notAssignable | namedArrayEntries
  | notBuiltFromList _ | notArray _ | outsideLoop _ | returnOutsideFunction | undeterminedVariable _
  | untypedVariableList _ | endlessInstances => .invalid

def message : Problem → String
  | stated _ text => text
  | invalidString literal => s!"invalid string literal {literal}"
  | invalidNumber literal => s!"invalid numeric literal `{literal}`"
  | unexpectedCharacter character => s!"unexpected character '{character}'"
  | expected what found => s!"expected {what}, found {found}"
  | unclosedBlock => "unclosed block"
  | tooDeep => "nesting is too deep"
  | endlessInstances => "instances need ever more instances"
  | constantWithoutValue name => s!"constant `{name}` needs a value"
  | unknownType name => s!"unknown type `{name}`"
  | unknownName name => s!"cannot find `{name}` in this scope"
  | duplicate name => s!"`{name}` is already declared in this scope"
  | argumentCount what wanted found =>
    s!"`{what}` expects {wanted} argument(s), found {found}"
  | selfReferringAlias name => s!"type alias `{name}` refers to itself"
  | noMembers type => s!"`{type}` has no members"
  | notNamespace name => s!"`{name}` is not a namespace"
  | notGeneric name => s!"`{name}` is not generic"
  | notSpec type => s!"`{type}` is not a spec"
  | specStorage name => s!"`{name}` is a spec and has no storage"
  | voidStorage => "`void` has no storage"
  | recursiveTemplate name path => s!"template `{name}` contains itself ({path}); use a reference"
  | selfOutsideTemplate function =>
    s!"`{function}` takes `self` but is not declared in a template"
  | selfWithoutTemplate => "`self` outside of a template"
  | constantInitializer name =>
    s!"initializer of constant `{name}` is not a compile-time constant"
  | noActions type => s!"cannot add actions to `{type}`"
  | associatedTypeUndefined name => s!"associated type `{name}` needs a definition"
  | typeNotImplemented name spec => s!"type `{name}` required by `{spec}` is not implemented"
  | functionNotImplemented name spec =>
    s!"function `{name}` required by `{spec}` is not implemented"
  | receiverDiffers function required spec =>
    let needs := if required then "must take" else "must not take"
    s!"`{function}` {needs} `self` to satisfy `{spec}`"
  | parameterCountDiffers function found spec required =>
    s!"`{function}` takes {found} parameter(s) but `{spec}` requires {required}"
  | parameterDiffers parameter function found spec required =>
    s!"parameter `{parameter}` of `{function}` has type `{found}` but `{spec}` requires `{required}`"
  | resultDiffers function found spec required =>
    s!"`{function}` returns `{found}` but `{spec}` requires `{required}`"
  | specNotSatisfied template spec count =>
    s!"`{template}` does not satisfy `{spec}`: {count} problem(s)"
  | constraintNotMet argument spec parameter =>
    s!"`{argument}` does not implement `{spec}` required by `{parameter}`"
  | cannotInstantiate generic count =>
    s!"cannot instantiate `{generic}`: {count} constraint(s) not satisfied"
  | conversionNeedsCast source target =>
    s!"cannot implicitly convert `{source}` to `{target}`; use `as`"
  | noConversion source target => s!"cannot convert `{source}` to `{target}`"
  | literalOutOfRange literal target => s!"literal `{literal}` does not fit in `{target}`"
  | notLiteral => "expression is not a literal"
  | emptyArray => "cannot infer the type of an empty array"
  | noCommonEntryType left right =>
    s!"array entries of type `{left}` and `{right}` have no common type"
  | untypedInitializer => "cannot infer the type of an initializer list"
  | operands operator left right => s!"cannot apply `{operator}` to `{left}` and `{right}`"
  | divisionByZero => "division by zero"
  | constantOverflow => "constant expression overflows 64 bits"
  | cannotNegate type => s!"cannot negate `{type}`"
  | complementNeedsInteger type => s!"`~` needs an integer, found `{type}`"
  | notBoolean found => s!"expected `bool`, found `{found}`"
  | notFunction name => s!"`{name}` is not a function"
  | notCallable type => s!"value of type `{type}` is not callable"
  | bodilessCall function => s!"spec function `{function}` has no body to call"
  | receiverMissing function => s!"`{function}` takes `self`; call it through an instance"
  | receiverUnexpected function =>
    s!"`{function}` does not take `self`; call it through its template"
  | memberFunctionValue function => s!"member function `{function}` can only be called"
  | notValue name => s!"`{name}` is not a value"
  | namespaceValue name => s!"`{name}` is a type or package, not a value"
  | functionMember function member => s!"function `{function}` has no member `{member}`"
  | fieldWithoutInstance name => s!"field `{name}` needs an instance; use `self.{name}`"
  | notInstance type member =>
    s!"`{type}` is not a template instance and has no member `{member}`"
  | cannotDereference type => s!"cannot dereference `{type}`"
  | cannotIndex type => s!"cannot index into `{type}`"
  | indexNotInteger type => s!"array index must be an integer, found `{type}`"
  | indexOutOfBounds index type => s!"index {index} is out of bounds for `{type}`"
  | notAssignable => "expression is not assignable"
  | namedArrayEntries => "array initializers cannot name their entries"
  | notBuiltFromList type => s!"an initializer list cannot build `{type}`"
  | notArray type => s!"`{type}` is not an array"
  | constantAssigned name => s!"cannot assign to constant `{name}`"
  | outsideLoop keyword => s!"`{keyword}` outside of a loop"
  | returnOutsideFunction => "`return` outside of a function"
  | undeterminedVariable name => s!"`{name}` needs a type or an initializer"
  | untypedVariableList name => s!"`{name}` needs a type to build an initializer list"
  | voidReturnsValue => "function returning `void` cannot return a value"
  | returnValueExpected type => s!"expected a `{type}` return value"
  | neverReturns function =>
    s!"function `{function}` declares a return type but never returns a value"
  | mayNotReturn function =>
    s!"function `{function}` can reach its end without returning a value"
  | noInsertionBlock => "no insertion block for terminator"
  | missingInsertionBlock => "insertion block does not exist"
  | alreadyTerminated block => s!"block `{block}` is already terminated"
  | defectiveCode defect => defect

end Problem

end Stencil
