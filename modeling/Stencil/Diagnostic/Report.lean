import Stencil.Diagnostic.Problem
import Stencil.Source.Span

namespace Stencil

structure Diagnostic where
  problem : Problem
  span : Span := {}
  fatal : Bool := true
  notes : List (String × Span) := []
  deriving DecidableEq, Repr, Inhabited

namespace Diagnostic

def kind (d : Diagnostic) : DiagnosticKind := d.problem.kind

def message (d : Diagnostic) : String := d.problem.message

def recoverable (d : Diagnostic) : Diagnostic := { d with fatal := false }

def withNote (d : Diagnostic) (remark : String) (span : Span) : Diagnostic :=
  { d with notes := d.notes ++ [(remark, span)] }

def text (d : Diagnostic) : String :=
  let title := d.kind.title
  let start := d.span.start
  let stop := d.span.stop
  let message := d.message
  s!"{title} at Span \x7b start: {start}, end: {stop} \x7d: {message}"

end Diagnostic

def Problem.at (p : Problem) (span : Span) : Diagnostic := { problem := p, span }

structure Report where
  entries : List Diagnostic := []
  deriving DecidableEq, Repr, Inhabited

namespace Report

def push (r : Report) (d : Diagnostic) : Report := ⟨r.entries ++ [d]⟩

def extend (r : Report) (ds : List Diagnostic) : Report := ⟨r.entries ++ ds⟩

def size (r : Report) : Nat := r.entries.length

def isEmpty (r : Report) : Bool := r.entries.isEmpty

def hasFatal (r : Report) : Bool := r.entries.any (·.fatal)

def count (r : Report) (kind : DiagnosticKind) : Nat :=
  (r.entries.filter (·.kind = kind)).length

end Report

end Stencil
