import LinkAsm.Files.Tree
import LinkAsm.Main
import LinkAsm.Word.Arithmetic
import LinkAsm.Proofs.Order.Reordering
import LinkAsm.Proofs.Pass.Monotone
import LinkAsm.Proofs.Pass.Definitions
import LinkAsm.Proofs.Pass.WorkList
import LinkAsm.Proofs.Pass.Failures
import LinkAsm.Proofs.Source.Reading
import LinkAsm.Proofs.Order.Build
import LinkAsm.Proofs.Program.Stages
import LinkAsm.Proofs.Program.Success
import LinkAsm.Proofs.Pass.Deferral
import LinkAsm.Proofs.Program.Deferral
import LinkAsm.Proofs.Order.Precedence
import LinkAsm.Proofs.Program.LastPass
import LinkAsm.Proofs.Program.Addresses
import LinkAsm.Proofs.Pass.Imports
import LinkAsm.Proofs.Program.Links
import LinkAsm.Proofs.Pass.SymbolImports
import LinkAsm.Proofs.Pass.View
import LinkAsm.Proofs.Diagnostic.Merging
import LinkAsm.Proofs.Order.Blocks
import LinkAsm.Proofs.Program.Isolation
import LinkAsm.Proofs.Program.IdleEntry
import LinkAsm.Proofs.Program.Tiling
import LinkAsm.Proofs.Pass.Refinement
import LinkAsm.Proofs.Expr.References
import LinkAsm.Proofs.Pass.Shadowing
import LinkAsm.Proofs.Text.Boundaries
import LinkAsm.Proofs.Source.Places
import LinkAsm.Proofs.Token.Places
import LinkAsm.Proofs.Expr.Places
import LinkAsm.Proofs.Pass.Ranges
import LinkAsm.Proofs.Program.Ranges
import LinkAsm.Proofs.Pass.Relocation
import LinkAsm.Proofs.Program.Relocation
import LinkAsm.Proofs.Order.Sequence
import LinkAsm.Proofs.Pass.Cycles
import LinkAsm.Proofs.Pass.DeclarationOrder
import LinkAsm.Proofs.Order.Rounds
import LinkAsm.Proofs.Order.Reports
import LinkAsm.Proofs.Token.Literals
import LinkAsm.Proofs.Pass.Literals
import LinkAsm.Proofs.Pass.Placeless
import LinkAsm.Proofs.Program.Placement
import LinkAsm.Proofs.Diagnostic.Histories
import LinkAsm.Proofs.Pass.Decision
import LinkAsm.Proofs.Pass.Integers
import LinkAsm.Proofs.Token.Spelling
import LinkAsm.Proofs.Expr.Operands
import LinkAsm.Proofs.Expr.RoundTrip
import LinkAsm.Proofs.Source.Positions
import LinkAsm.Proofs.Source.Composition
import LinkAsm.Proofs.Pass.FirstDefinitions
import LinkAsm.Proofs.Token.Lossless
import LinkAsm.Proofs.Token.Spacing
import LinkAsm.Proofs.Word.Arithmetic
