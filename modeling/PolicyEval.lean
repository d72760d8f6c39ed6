import PolicyEval.Expr.Table
import PolicyEval.Main
import PolicyEval.Proofs.Arena.Structure
import PolicyEval.Proofs.Cells.Once
import PolicyEval.Proofs.Depth.Guards
import PolicyEval.Proofs.Depth.Limit
import PolicyEval.Proofs.Depth.Total
import PolicyEval.Proofs.Equality.Interchange
import PolicyEval.Proofs.Eval.Application
import PolicyEval.Proofs.Eval.Arithmetic
import PolicyEval.Proofs.Fault.Blame
import PolicyEval.Proofs.Names.Directory
import PolicyEval.Proofs.Names.History
import PolicyEval.Proofs.Options.Arguments
import PolicyEval.Proofs.Policy.Economy
import PolicyEval.Proofs.Policy.Invariance
import PolicyEval.Proofs.Policy.Rereading
import PolicyEval.Proofs.Render.Agreement
import PolicyEval.Proofs.Scope.Relaxation
import PolicyEval.Proofs.Scope.Safety
import PolicyEval.Proofs.Sharing.Unobservable
import PolicyEval.Proofs.Spans.Slices
import PolicyEval.Proofs.Syntax.Layout
import PolicyEval.Proofs.Syntax.Partition
import PolicyEval.Proofs.Syntax.RoundTrip
import PolicyEval.Proofs.Syntax.Viability
import PolicyEval.Proofs.Totals.Sum
import PolicyEval.Session
