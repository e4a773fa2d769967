import SharedExpr.Access.Rules
import SharedExpr.Access.Walk
import SharedExpr.Gradient.Reverse

/-! Differentiation with every access to the table. -/
namespace SharedExpr.Access

variable {α : Type} [Scalar α]

/-- Bundles a node with its partial derivatives. All of them are checked before they are read. -/
def gradient (parts : Dag.Bundle) (d : Dag α) : Access (Except Fault NodeId × Dag α) := do
  if parts.partials.length ≠ parts.vars.length then
    let cause := .partialsCount parts.partials.length parts.vars.length
    return (.error (.misuse cause), d)
  match (parts.primal :: parts.partials).forM d.check with
  | .error fault => return (.error fault, d)
  | .ok () =>
    match ← checkVariables d parts.vars with
    | .error fault => return (.error fault, d)
    | .ok () =>
      let (id, d) ← d.internAt parts.node
      return (.ok id, d)
where
  /-- Each variable is looked at once it is known to be a node. -/
  checkVariables (d : Dag α) : List NodeId → Access (Except Fault Unit)
    | [] => some (.ok ())
    | var :: vars =>
      match d.check var with
      | .error fault => some (.error fault)
      | .ok () => do
        if (← d.nameAt var).isNone then return .error (.misuse (.notVariable var))
        else checkVariables d vars

def derivative (consumer : NodeId) (position : Nat) (d : Dag α) :
    Access (Except Fault NodeId × Dag α) := do
  match ← d.labelAt consumer with
  | .unary op =>
    let x ← (← d.operandsAt consumer)[0]?
    let (id, d) ← build (op.derivative consumer x) d
    return (.ok id, d)
  | .binary op =>
    match ← d.operandsAt consumer with
    | [x, y] =>
      let ((dx, dy), d) := operandSeeds (position == 0) d
      match op.derivative? (← d.isLiteralAt y) x y dx dy (position == 0) with
      | some e =>
        let (id, d) ← build e d
        return (.ok id, d)
      | none => return (.error (.unsupportedDerivative consumer exponentReason), d)
    | _ => return (.error (.misuse (.notBinary consumer)), d)
  | .gradient _ => return (.error (.misuse (.gradientDerivative consumer)), d)
  | .lit _ | .var _ => return (.error (.misuse (.leafDerivative consumer)), d)

/-- Works off a stack of summations. There is no answer if this takes more than the given number of
turns. -/
def sum : Nat → List Adjoints.Frame → Adjoints → Dag α →
    Access (Except Fault Unit × Adjoints × Dag α)
  | 0, _, _, _ => none
  | _ + 1, [], t, d => some (.ok (), t, d)
  | turns + 1, top :: rest, t, d =>
    match top.pending with
    | [] => sum turns rest (t.insert top.node top.sum) d
    | use :: pending =>
      match t.known? use.consumer d with
      | (none, t, d) =>
        let (frame, d) := t.frame use.consumer d
        sum turns (frame :: top :: rest) t d
      | (some weight, t, d) => do
        match ← derivative use.consumer use.position d with
        | (.error fault, d) => return (.error fault, t, d)
        | (.ok slope, d) =>
          let (term, d) ← apply (.binary .mul weight slope) d
          let (total, d) ← apply (.binary .add top.sum term) d
          sum turns (⟨top.node, pending, total⟩ :: rest) t d

def adjoint (t : Adjoints) (node : NodeId) (d : Dag α) :
    Access (Except Fault NodeId × Adjoints × Dag α) :=
  match t.known? node d with
  | (some adjoint, t, d) => some (.ok adjoint, t, d)
  | (none, t, d) => do
    let (frame, d) := t.frame node d
    match ← sum t.budget [frame] t d with
    | (.error fault, t, d) => return (.error fault, t, d)
    | (.ok (), t, d) =>
      match t.memo[node]? with
      | some adjoint => return (.ok adjoint, t, d)
      | none => return (.error (.misuse .noAdjoint), t, d)

def adjoints : List NodeId → Adjoints → Dag α →
    Access (Except Fault (List NodeId) × Adjoints × Dag α)
  | [], t, d => some (.ok [], t, d)
  | node :: nodes, t, d => do
    match ← adjoint t node d with
    | (.error fault, t, d) => return (.error fault, t, d)
    | (.ok first, t, d) =>
      let (rest, t, d) ← adjoints nodes t d
      return (rest.map (first :: ·), t, d)

def backward (root : NodeId) (d : Dag α) : Access (Except Fault NodeId × Dag α) :=
  match d.check root with
  | .error fault => some (.error fault, d)
  | .ok () => do
    if ← d.isGradientAt root then return (.error (.misuse (.alreadyGradient root)), d)
    let w ← walk d root
    if (← w.order.toList.mapM d.isGradientAt).any id then
      return (.error (.misuse (.containsGradient root)), d)
    match ← adjoints w.freeVars (.start root w) d with
    | (.error fault, _, d) => return (.error fault, d)
    | (.ok partials, _, d) => gradient ⟨root, partials, w.freeVars⟩ d

end SharedExpr.Access
