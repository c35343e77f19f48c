import Stencil.Diagnostic.Report
import Stencil.Scope.Entry

/-!
The tree of scopes. Scopes are numbered in the order of their creation, so a scope always has a
larger number than its parent; the module has the number zero. Removed scopes keep their number.
-/

namespace Stencil

structure ScopeNode where
  name : String
  kind : ScopeKind
  parent : Option ScopeId
  names : List (String × ScopeId) := []
  order : List ScopeId := []
  exported : Bool := false
  span : Span := {}
  alive : Bool := true
  deriving Inhabited

structure ScopeTree where
  nodes : List ScopeNode
  current : ScopeId := 0
  generated : Nat := 0
  deriving Inhabited

namespace ScopeTree

def new (moduleName : String) : ScopeTree :=
  { nodes := [{ name := moduleName, kind := .module, parent := none, exported := true }] }

def root : ScopeId := 0

abbrev size (t : ScopeTree) : Nat := t.nodes.length

def node (t : ScopeTree) (id : ScopeId) : ScopeNode :=
  t.nodes[id]?.getD { name := "", kind := .block, parent := none, alive := false }

def kind (t : ScopeTree) (id : ScopeId) : ScopeKind := (t.node id).kind

def name (t : ScopeTree) (id : ScopeId) : String := (t.node id).name

def parent? (t : ScopeTree) (id : ScopeId) : Option ScopeId := (t.node id).parent

def children (t : ScopeTree) (id : ScopeId) : List ScopeId := (t.node id).order

def isAlive (t : ScopeTree) (id : ScopeId) : Bool := (t.node id).alive

def modifyNode (t : ScopeTree) (id : ScopeId) (change : ScopeNode → ScopeNode) : ScopeTree :=
  { t with nodes := t.nodes.modify id change }

def setKind (t : ScopeTree) (id : ScopeId) (kind : ScopeKind) : ScopeTree :=
  t.modifyNode id fun n => { n with kind }

def setExported (t : ScopeTree) (id : ScopeId) (exported : Bool) : ScopeTree :=
  t.modifyNode id fun n => { n with exported }

def moveTo (t : ScopeTree) (id : ScopeId) : ScopeTree :=
  { t with current := id }

def findChild? (t : ScopeTree) (parent : ScopeId) (name : String) : Option ScopeId :=
  (t.node parent).names.lookup name

def ancestors (t : ScopeTree) (id : ScopeId) : List ScopeId :=
  id :: match t.parent? id with
    | some parent => if parent < id then ancestors t parent else []
    | none => []

def findFrom? (t : ScopeTree) (scope : ScopeId) (name : String) : Option ScopeId :=
  (t.ancestors scope).findSome? fun id => t.findChild? id name

def find? (t : ScopeTree) (name : String) : Option ScopeId :=
  t.findFrom? t.current name

def enclosing? (t : ScopeTree) (id : ScopeId) (accepts : ScopeKind → Bool) : Option ScopeId :=
  (t.ancestors id).find? fun id => accepts (t.kind id)

/-- The variables of a scope in their order, which is that of the fields of an instance. -/
def fields (t : ScopeTree) (id : ScopeId) : List (ScopeId × VariableEntry) :=
  (t.children id).filterMap fun child => (t.kind child).var?.map (child, ·)

def indexOf? (t : ScopeTree) (parent : ScopeId) (name : String) : Option Nat := do
  let target ← t.findChild? parent name
  if (t.kind target).isVariable then
    (t.fields parent).findIdx? (·.1 = target)
  else none

def addChild (t : ScopeTree) (parent : ScopeId) (name : String) (kind : ScopeKind) (span : Span) :
    Except Diagnostic (ScopeId × ScopeTree) :=
  if (t.findChild? parent name).isSome then .error ((Problem.duplicate name).at span)
  else
    let id := t.size
    let fresh : ScopeNode := { name, kind, parent := some parent, span }
    let added := { t with nodes := t.nodes ++ [fresh] }
    .ok (id, added.modifyNode parent fun n =>
      { n with names := (name, id) :: n.names, order := n.order ++ [id] })

def add (t : ScopeTree) (name : String) (kind : ScopeKind) (span : Span) :
    Except Diagnostic (ScopeId × ScopeTree) :=
  t.addChild t.current name kind span

def generateName (t : ScopeTree) (stem : String) : String × ScopeTree :=
  let count := t.generated + 1
  ("\x7b" ++ stem ++ "#" ++ toString count ++ "\x7d", { t with generated := count })

def below (t : ScopeTree) : Nat → ScopeId → List ScopeId
  | 0, id => [id]
  | depth + 1, id => id :: (t.children id).flatMap (below t depth)

def remove (t : ScopeTree) (id : ScopeId) : ScopeTree :=
  let detached := match t.parent? id with
    | some parent => t.modifyNode parent fun n =>
      { n with
        names := n.names.filter (·.1 != t.name id)
        order := n.order.filter (· != id) }
    | none => t
  let gone := detached.below detached.size id
  let cleared := gone.foldl (fun t id =>
    t.modifyNode id fun n => { n with alive := false, names := [], order := [] }) detached
  if cleared.isAlive cleared.current then cleared else cleared.moveTo root

def qualifiedName (t : ScopeTree) (id : ScopeId) : String :=
  ".".intercalate (((t.ancestors id).takeWhile (· != root)).map t.name).reverse

def qualify (t : ScopeTree) (parent : ScopeId) (name : String) : String :=
  if parent = root then name else t.qualifiedName parent ++ "." ++ name

def line (t : ScopeTree) (id : ScopeId) : String :=
  let n := t.node id
  let typed := match n.kind with
    | .var e => ": " ++ e.type.text
    | _ => ""
  let mark := if n.exported && id != root then " [export]" else ""
  n.name ++ " " ++ n.kind.tag ++ typed ++ mark ++ "\n"

def listing (t : ScopeTree) (indent : Nat) : Nat → ScopeId → String
  | 0, _ => ""
  | depth + 1, id =>
    String.ofList (List.replicate (2 * indent) ' ') ++ t.line id ++
      String.join ((t.children id).map (listing t (indent + 1) depth))

def text (t : ScopeTree) : String :=
  t.listing 0 t.size root

end ScopeTree

end Stencil
