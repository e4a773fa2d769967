import SharedExpr.Fault

/-! Gradient nodes: a value bundled with its partial derivatives. -/
namespace SharedExpr

variable {α : Type} [Scalar α]

/-- Steps that may add nodes to a graph and may fail; a failure keeps the nodes added before it. -/
abbrev Attempt (α : Type) [Scalar α] :=
  ExceptT Fault (Build α)

def Dag.checkVariable (d : Dag α) (node : NodeId) : Except Fault Unit := do
  d.check node
  if (d.name? node).isNone then throw (.misuse (.notVariable node))

/-- Fails unless the parts make up a gradient: as many partial derivatives as variables, and all of
them nodes of the graph. -/
def Dag.checkBundle (d : Dag α) (parts : Bundle) : Except Fault Unit := do
  if parts.partials.length ≠ parts.vars.length then
    throw (.misuse (.partialsCount parts.partials.length parts.vars.length))
  d.check parts.primal
  parts.partials.forM d.check
  parts.vars.forM d.checkVariable

namespace Dag.Bundle

def node (parts : Bundle) : Node α :=
  ⟨.gradient parts.vars, parts.primal :: parts.partials⟩

def build (parts : Bundle) : Attempt α NodeId := fun d =>
  match d.checkBundle parts with
  | .error fault => (.error fault, d)
  | .ok () => let (id, d) := d.intern parts.node; (.ok id, d)

end Dag.Bundle

end SharedExpr
