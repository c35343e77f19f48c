import Stencil.Main
import Stencil.Proofs.Program.Instances
import Stencil.Proofs.Program.Obligations
import Stencil.Proofs.Program.Listings
import Stencil.Proofs.Program.Meaning
import Stencil.Proofs.Program.Complete
import Stencil.Proofs.Program.Storage
import Stencil.Proofs.Program.Symbols
import Stencil.Proofs.Program.Ranges
import Stencil.Proofs.Scope.Shadowing
import Stencil.Proofs.Ir.Calls
import Stencil.Proofs.Program.Located
import Stencil.Proofs.Grammar.Sequence
import Stencil.Proofs.Grammar.Precedence
import Stencil.Proofs.Grammar.Termination
import Stencil.Proofs.Token.Lookahead
import Stencil.Proofs.Token.Numerals
import Stencil.Proofs.Lowering.Casts
import Stencil.Proofs.Program.Constness
import Stencil.Proofs.Lowering.EntryOrder
import Stencil.Proofs.Lowering.Conversions
import Stencil.Proofs.Meaning.InPlace
import Stencil.Proofs.Source.Lines
import Stencil.Proofs.Analysis.Containment
import Stencil.Proofs.Analysis.Aliases
import Stencil.Proofs.Ty.Range
