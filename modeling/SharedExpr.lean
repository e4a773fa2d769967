import SharedExpr.Command
import SharedExpr.Dag.Walk
import SharedExpr.Double.Text
import SharedExpr.Eval.Evaluate
import SharedExpr.Code.Sink
import SharedExpr.Code.Locality
import SharedExpr.Code.Reading
import SharedExpr.Print.Infix
import SharedExpr.Print.Outline
import SharedExpr.Print.Dot
import SharedExpr.Proofs.Access.Safety
import SharedExpr.Proofs.Code.Ahead
import SharedExpr.Proofs.Code.Correctness
import SharedExpr.Proofs.Code.Decoding
import SharedExpr.Proofs.Code.Locality
import SharedExpr.Proofs.Code.Shape
import SharedExpr.Proofs.Dag.Canonical
import SharedExpr.Proofs.Dag.DepthFirst
import SharedExpr.Proofs.Double.Gathering
import SharedExpr.Proofs.Double.Negation
import SharedExpr.Proofs.Double.NormalForm
import SharedExpr.Proofs.Double.Operand
import SharedExpr.Proofs.Double.Places
import SharedExpr.Proofs.Eval.Failure
import SharedExpr.Proofs.Eval.Outcome
import SharedExpr.Proofs.Eval.Reuse
import SharedExpr.Proofs.Eval.Sampling
import SharedExpr.Proofs.Expr.Simplification
import SharedExpr.Proofs.Expr.Unfolding
import SharedExpr.Proofs.Gradient.Correctness
import SharedExpr.Proofs.Gradient.Memo
import SharedExpr.Proofs.Gradient.Outcome
import SharedExpr.Proofs.Gradient.Partial
import SharedExpr.Proofs.Gradient.Signature
import SharedExpr.Proofs.Gradient.Size
import SharedExpr.Proofs.Persistence
import SharedExpr.Proofs.Print.Drawing
import SharedExpr.Proofs.Print.Infix
import SharedExpr.Proofs.Print.Lines
