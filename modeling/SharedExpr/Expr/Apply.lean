import SharedExpr.Expr.Rules
import SharedExpr.Fault

/-! Application of operators under the rules, and the building of expressions. -/
namespace SharedExpr

variable {α : Type} [Scalar α]

namespace Application

/-- Applies an operator. Its operands are put in order; then the first rule that applies gives an
expression, which is built in the same way, and if none does, the application itself is a node.
`none` if the rules nest deeper than the given number. -/
def buildAt? : Nat → Application → OptionT (Build α) NodeId
  | 0, _ => failure
  | depth + 1, app => fun d =>
    let app := app.arrange d
    match app.replacement? d with
    | none => let (id, d) := d.intern app.node; (some id, d)
    | some e => e.buildWith (buildAt? depth) d

/-- A depth that the rules do not exceed: from a difference by way of a sum and the sum of what
follows its literals to twice a product, the product itself and its negation. -/
def nestingLimit : Nat := 8

def build (app : Application) : Build α NodeId := fun d =>
  match app.buildAt? nestingLimit d with
  | (some id, d) => (id, d)
  | (none, d) => d.intern app.node

def build? (app : Application) : OptionT (Build α) NodeId := fun d =>
  if app.operands.all d.contains then
    let (id, d) := app.build d
    (some id, d)
  else (none, d)

/-- `build`, reporting the first operand from outside the graph. -/
def tryBuild (app : Application) : ExceptT Fault (Build α) NodeId := fun d =>
  match app.operands.forM d.check with
  | .error fault => (.error fault, d)
  | .ok () =>
    let (id, d) := app.build d
    (.ok id, d)

end Application

namespace Expr

def build (e : Expr α) : Build α NodeId :=
  e.buildWith Application.build

/-- `build`, refusing an operator whose operand is outside the graph when its turn comes. -/
def build? (e : Expr α) : OptionT (Build α) NodeId :=
  e.buildWith Application.build?

end Expr

end SharedExpr
