import ModularC.Text.Blank
import ModularC.Token.Basic
import ModularC.Token.Scan
import ModularC.Token.Lookahead
import ModularC.Token.Survey
import ModularC.Standard.Names
import ModularC.TypeNames
import ModularC.Syntax.Basic
import ModularC.Error
import ModularC.Syntax.Print
import ModularC.Path
import ModularC.Syntax.Reader
import ModularC.Syntax.Parse
import ModularC.Lowering.Defer
import ModularC.Lowering.Records
import ModularC.Lowering.Headers
import ModularC.Lowering.Order
import ModularC.Lowering.Surface
import ModularC.Lowering.Basic
import ModularC.Files.Tree
import ModularC.Files.Package
import ModularC.Resolve
import ModularC.DepTree
import ModularC.Build
import ModularC.Main
import ModularC.Proofs.Lowering.Order
import ModularC.Proofs.Lowering.Defer
import ModularC.Proofs.Lowering.Records
import ModularC.Proofs.Syntax.WellFormed
import ModularC.Proofs.Lowering.Surface
import ModularC.Proofs.Lowering.NormalForm
import ModularC.Proofs.Lowering.Exports
import ModularC.Proofs.Lowering.Replay
import ModularC.Proofs.Lowering.DeclarationOrder
import ModularC.Proofs.Syntax.RoundTrip
import ModularC.Proofs.Token.Survey
import ModularC.Proofs.Syntax.Parsed
import ModularC.Proofs.Resolve.WellFormed
import ModularC.Proofs.Token.Lookahead
import ModularC.Proofs.Token.Order
import ModularC.Proofs.Syntax.Within
import ModularC.Proofs.Syntax.LexError
import ModularC.Proofs.Resolve.Agrees
import ModularC.Proofs.Resolve.Places
import ModularC.Proofs.Syntax.Discipline
import ModularC.Proofs.Syntax.Grammar
import ModularC.Proofs.Syntax.Imports
import ModularC.Proofs.Resolve.Graph
import ModularC.Proofs.Resolve.Run
import ModularC.Proofs.Resolve.Linked
import ModularC.Proofs.Lowering.Deduplication
import ModularC.Proofs.Syntax.Precedence
import ModularC.Proofs.Token.Places
import ModularC.Proofs.TypeNames
import ModularC.Proofs.Token.Literals
import ModularC.Proofs.Token.Directives
import ModularC.Proofs.Lowering.Headers
import ModularC.Proofs.Syntax.Termination
import ModularC.Proofs.DepTree
import ModularC.Proofs.Lowering.Expansion
import ModularC.Proofs.Token.Bounds
