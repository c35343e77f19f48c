import Stencil.Grammar.Item
import Stencil.Program
import Stencil.Source.FileName
import Stencil.Syntax.Outline

namespace Stencil

structure Listings where
  tokens : Bool := false
  outline : Bool := false
  scopes : Bool := false
  code : Bool := false
  deriving DecidableEq, Repr, Inhabited

structure Compilation where
  module : Ir.Module
  report : Report
  listings : List (String × String)
  deriving Inhabited

namespace Compilation

def hasErrors (c : Compilation) : Bool :=
  !c.report.isEmpty

end Compilation

def listingIf (wanted : Bool) (title : String) (text : Unit → String) : List (String × String) :=
  if wanted then [(title, text ())] else []

def tokenListingIf (wanted : Bool) (source : String) :
    Except Diagnostic (List (String × String)) := do
  if wanted then return [("Tokens", ← tokenListing source)] else return []

/-- Compiles a source file. A file that cannot be read as a module has only one error; all that is
found later is collected, and whatever can be compiled is. -/
def compile (source fileName : String) (wanted : Listings) : Except Diagnostic Compilation := do
  let tokens ← tokenListingIf wanted.tokens source
  let m ← Module.parse source
  let session := analyze (moduleName fileName) m
  return {
    module := session.builder.module
    report := session.finalReport
    listings := tokens ++
      listingIf wanted.outline "AST" (fun _ => m.outline.text source) ++
      listingIf wanted.scopes "Scopes" (fun _ => session.tree.text) ++
      listingIf wanted.code "IR" (fun _ => session.builder.module.text) }

end Stencil
