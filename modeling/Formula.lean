import Formula.Command
import Formula.Expr.Bars
import Formula.LR.Outline
import Formula.Main
import Formula.Pattern.Written
import Formula.Proofs.Expr.Exact
import Formula.Proofs.Expr.Precedence
import Formula.Proofs.LR.Completeness
import Formula.Proofs.LR.Soundness
import Formula.Proofs.Expr.Build
import Formula.Proofs.Expr.Invariant
import Formula.Proofs.Expr.Guards
import Formula.Proofs.Expr.Depth
import Formula.Proofs.Expr.Enclosed
import Formula.Proofs.Expr.Isolation
import Formula.Proofs.LR.Safety
import Formula.Proofs.LR.Termination
import Formula.Proofs.LR.Prescribed
import Formula.Proofs.Expr.Safety
import Formula.Proofs.Expr.Progress
import Formula.Proofs.Expr.Normal
import Formula.Proofs.LR.Terminals
import Formula.Proofs.LR.Refusal
import Formula.Proofs.Expr.Likeness
import Formula.Proofs.Expr.Kinds
import Formula.Proofs.Expr.Registering
import Formula.Proofs.Token.Layout
import Formula.Proofs.Token.Whitespace
import Formula.Proofs.Expr.SetPrefix
import Formula.Proofs.Expr.Printing
import Formula.Proofs.Value.Symbols
import Formula.Proofs.Expr.Symbols
import Formula.Proofs.Expr.Variables
import Formula.Proofs.Value.Alpha
import Formula.Proofs.Value.Capture
import Formula.Proofs.Expr.Application
import Formula.Proofs.Number.Arithmetic
import Formula.Proofs.Expr.Grouping
import Formula.Proofs.Expr.Rebuild
import Formula.Proofs.Expr.Shadowing
import Formula.Proofs.Number.Power
import Formula.Proofs.Expr.Literals
import Formula.Proofs.Value.Order
import Formula.Proofs.LR.Reductions
import Formula.Proofs.Token.Munch
import Formula.Proofs.Expr.Finish
import Formula.Proofs.Value.Render
import Formula.Proofs.Expr.Occurrences
import Formula.Proofs.Expr.Spans
import Formula.Proofs.Command
import Formula.Proofs.LR.Construction
import Formula.Proofs.LR.Starts
import Formula.Proofs.LR.Foreign
