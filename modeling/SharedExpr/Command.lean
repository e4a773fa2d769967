import SharedExpr.Gradient.Reverse

/-! The operations that change a graph, as data. -/
namespace SharedExpr

inductive Command (α : Type) where
  | lit (value : α)
  | var (name : String)
  /-- An application whose operands are taken to be nodes of the graph. -/
  | apply (app : Application)
  /-- An application whose operands are checked. -/
  | tryApply (app : Application)
  | build (e : Expr α)
  | gradient (parts : Dag.Bundle)
  | backward (root : NodeId)
  | derivative (consumer : NodeId) (position : Nat)
  /-- The adjoints of some nodes with respect to a root, over the walk from a second node. -/
  | adjoints (root start : NodeId) (nodes : List NodeId)
  | reset

inductive Outcome where
  | node (id : NodeId)
  | failure (fault : Fault)
  /-- The operation has no node for an answer. -/
  | done
  deriving DecidableEq

namespace Outcome

def ofExcept : Except Fault NodeId → Outcome
  | .ok id => .node id
  | .error fault => .failure fault

end Outcome

namespace Command

variable {α : Type} [Scalar α]

def attempt (steps : Attempt α NodeId) : OptionT (Build α) Outcome :=
  liftM (Outcome.ofExcept <$> steps.run : Build α Outcome)

/-- Carries out an operation. `none` if a number that is taken to be a node of the graph is none. -/
def run : Command α → OptionT (Build α) Outcome
  | lit value => .node <$> liftM (Build.lit value : Build α NodeId)
  | var name => .node <$> liftM (Build.var name : Build α NodeId)
  | apply app => .node <$> app.build?
  | tryApply app => attempt app.tryBuild
  | build e => .node <$> e.build?
  | gradient parts => attempt parts.build
  | backward root => attempt (SharedExpr.backward root)
  | derivative consumer position => fun d =>
    if d.contains consumer then attempt (SharedExpr.derivative consumer position) d
    else (none, d)
  | adjoints root start nodes => fun d =>
    match d.walk? start with
    | some walk =>
      match Adjoints.adjoints nodes (.start root walk) d with
      | (.ok _, _, d) => (some .done, d)
      | (.error fault, _, d) => (some (.failure fault), d)
    | none => (none, d)
  | reset => fun _ => (some .done, .empty)

end Command

end SharedExpr
