import SharedExpr.Dag.Basic

/-! Expressions over the nodes of a graph, and single applications of an operator. -/
namespace SharedExpr

/-- A tree of operators over existing nodes, literals and variables. -/
inductive Expr (α : Type) where
  | ref (id : NodeId)
  | lit (value : α)
  | var (name : String)
  | unary (op : Unary) (x : Expr α)
  | binary (op : Binary) (x y : Expr α)

inductive Application where
  | unary (op : Unary) (x : NodeId)
  | binary (op : Binary) (x y : NodeId)
  deriving DecidableEq

namespace Application

def operands : Application → List NodeId
  | unary _ x => [x]
  | binary _ x y => [x, y]

def node {α : Type} : Application → Node α
  | unary op x => ⟨.unary op, [x]⟩
  | binary op x y => ⟨.binary op, [x, y]⟩

end Application

/-- Builds an expression from the left to the right, operands before their operator, which is
applied by `apply`. -/
def Expr.buildWith {α : Type} [Scalar α] {m : Type → Type} [Monad m] [MonadLiftT (Build α) m]
    (apply : Application → m NodeId) : Expr α → m NodeId
  | ref id => pure id
  | lit value => liftM (Build.lit value : Build α NodeId)
  | var name => liftM (Build.var name : Build α NodeId)
  | unary op x => do
    let x ← x.buildWith apply
    apply (.unary op x)
  | binary op x y => do
    let x ← x.buildWith apply
    let y ← y.buildWith apply
    apply (.binary op x y)

end SharedExpr
