import SharedExpr.Gradient.Adjoint

/-! The gradient of a node with respect to all variables under it. -/
namespace SharedExpr

variable {α : Type} [Scalar α]

/-- Fails unless a root can be differentiated: it is a node of the graph with no gradient under
it. -/
def Dag.checkRoot (d : Dag α) (root : NodeId) : Except Fault Unit := do
  d.check root
  let isGradient (id : NodeId) : Bool := (d.label? id).any Label.isGradient
  if isGradient root then throw (.misuse (.alreadyGradient root))
  if (d.walk root).order.any isGradient then throw (.misuse (.containsGradient root))

/-- The gradient of a node: the node with its derivative with respect to each variable under it, by
name. -/
def backward (root : NodeId) : Attempt α NodeId := fun d =>
  match d.checkRoot root with
  | .error fault => (.error fault, d)
  | .ok () =>
    let walk := d.walk root
    match Adjoints.adjoints walk.freeVars (.start root walk) d with
    | (.error fault, _, d) => (.error fault, d)
    | (.ok partials, _, d) => Dag.Bundle.build ⟨root, partials, walk.freeVars⟩ d

end SharedExpr
