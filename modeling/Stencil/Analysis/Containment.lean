import Stencil.Scope.Tree

/-!
Templates inside templates. A template whose instances would hold an instance of the template
itself has no finite layout.
-/

namespace Stencil

namespace Ty

def innermost : Ty → Ty
  | array element _ => element.innermost
  | type => type

end Ty

/-- Where a search through templates is: the templates on the way to it, and all it has been to. -/
structure Trail where
  path : List ScopeId
  visited : List ScopeId := []
  deriving DecidableEq, Repr, Inhabited

namespace Trail

def push (x : Trail) (template : ScopeId) : Trail :=
  { x with path := x.path ++ [template] }

def pop (x : Trail) : Trail :=
  { x with path := x.path.dropLast }

def visit (x : Trail) (template : ScopeId) : Trail :=
  { x with visited := template :: x.visited }

end Trail

namespace ScopeTree

/-- The templates whose instances lie in the fields of a template, in the order of the fields. -/
def held (t : ScopeTree) (template : ScopeId) : List ScopeId :=
  (t.fields template).filterMap fun (_, e) =>
    if e.storage = .field then e.type.innermost.structScope? else none

/-- Looks for a target among templates and, by `search`, in what they hold. The path is left at the
target, or else as it was. -/
def searchEach (target : ScopeId) (search : ScopeId → Trail → Bool × Trail) :
    List ScopeId → Trail → Bool × Trail
  | [], x => (false, x)
  | next :: rest, x =>
    let x := x.push next
    if next = target then (true, x)
    else if next ∈ x.visited then searchEach target search rest x.pop
    else
      match search next (x.visit next) with
      | (true, x) => (true, x)
      | (false, x) => searchEach target search rest x.pop

def containsTemplate (t : ScopeTree) (target : ScopeId) :
    Nat → ScopeId → Trail → Bool × Trail
  | 0, _, x => (false, x)
  | depth + 1, template, x =>
    searchEach target (containsTemplate t target depth) (t.held template) x

/-- Looks for a template in its own fields. A way that meets no template twice is no longer than the
number of scopes. -/
def searchSelf (t : ScopeTree) (template : ScopeId) : Bool × Trail :=
  t.containsTemplate template (t.size + 1) template { path := [template] }

def selfContainment? (t : ScopeTree) (template : ScopeId) : Option (List ScopeId) :=
  match t.searchSelf template with
  | (true, x) => some x.path
  | (false, _) => none

end ScopeTree

end Stencil
