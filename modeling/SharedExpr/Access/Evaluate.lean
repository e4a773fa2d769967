import SharedExpr.Access.Walk
import SharedExpr.Eval.Evaluate
import SharedExpr.Eval.Ledger

/-! Evaluation with every access to the table, on a ledger that may have been used before. -/
namespace SharedExpr

variable {α : Type} [Scalar α]

def Ledger.value (l : Ledger α) (node : NodeId) : Except Fault α :=
  match l.get? node with
  | some value => .ok value
  | none => .error (.misuse (.notEvaluated node))

namespace Access

def evaluateNode (d : Dag α) (b : Bindings α) (l : Ledger α) (node : NodeId) :
    Access (Except Fault α × Ledger α) := do
  let operands ← d.operandsAt node
  match ← d.labelAt node with
  | .lit value => return (.ok value, l)
  | .var name =>
    match b name with
    | some value => return (.ok value, l)
    | none => return (.error (.unboundVariable name), l)
  | .unary op =>
    let x ← operands[0]?
    return ((l.value x).map (Scalar.unary op), l)
  | .binary op =>
    let x ← operands[0]?
    match l.value x with
    | .error fault => return (.error fault, l)
    | .ok a =>
      let y ← operands[1]?
      return ((l.value y).map (Scalar.binary op a), l)
  | .gradient _ =>
    match operands.mapM l.value with
    | .error fault => return (.error fault, l)
    | .ok values =>
      let primal ← values[0]?
      return (.ok primal, l.insertBundle node values)

def evaluateNodes (d : Dag α) (b : Bindings α) :
    List NodeId → Ledger α → Access (Except Fault Unit × Ledger α)
  | [], l => some (.ok (), l)
  | node :: nodes, l => do
    match ← evaluateNode d b l node with
    | (.error fault, l) => return (.error fault, l)
    | (.ok value, l) =>
      let l ← l.insert node value
      evaluateNodes d b nodes l

def checkBound (d : Dag α) (b : Bindings α) : List NodeId → Access (Except Fault Unit)
  | [] => some (.ok ())
  | var :: vars => do
    match ← d.nameAt var with
    | some name =>
      if (b name).isSome then checkBound d b vars else return .error (.unboundVariable name)
    | none => checkBound d b vars

def evaluateOn (d : Dag α) (root : NodeId) (b : Bindings α) (l : Ledger α) :
    Access (Except Fault α × Ledger α) :=
  match d.check root with
  | .error fault => some (.error fault, l)
  | .ok () => do
    let w ← walk d root
    match ← checkBound d b w.freeVars with
    | .error fault => return (.error fault, l)
    | .ok () =>
      match ← evaluateNodes d b w.order.toList (l.reserve d.count) with
      | (.error fault, l) => return (.error fault, l)
      | (.ok (), l) => return (l.value root, l)

/-- Evaluates a node. The ledger is cleared first, and once more if there is a failure. -/
def evaluate (d : Dag α) (root : NodeId) (b : Bindings α) (l : Ledger α) :
    Access (Except Fault α × Ledger α) := do
  match ← evaluateOn d root b l.clear with
  | (.error fault, l) => return (.error fault, l.clear)
  | (.ok value, l) => return (.ok value, l)

def bindingsAt (d : Dag α) (root : NodeId) (values : List α) :
    Access (Except Fault (Bindings α)) :=
  match d.check root with
  | .error fault => some (.error fault)
  | .ok () => do
    let vars := (← walk d root).freeVars
    if vars.length ≠ values.length then
      return .error (.valueCount vars.length values.length)
    else
      let names ← vars.mapM d.nameAt
      return .ok (.ofLists (names.filterMap id) values)

def evaluateAt (d : Dag α) (root : NodeId) (values : List α) (l : Ledger α) :
    Access (Except Fault α × Ledger α) := do
  match ← bindingsAt d root values with
  | .error fault => return (.error fault, l)
  | .ok b => evaluate d root b l

def sample (d : Dag α) (root : NodeId) (var : String) (xs : List α) (b : Bindings α) :
    Access (Except Fault (List α)) := do
  let results ← xs.mapM fun x => evaluate d root (b.set var x) .empty
  return results.mapM Prod.fst

def evaluateGradient (d : Dag α) (node : NodeId) (b : Bindings α) :
    Access (Except Fault (List α)) := do
  match ← evaluate d node b .empty with
  | (.error fault, _) => return .error fault
  | (.ok _, l) =>
    match l.bundle? node with
    | some values => return .ok values
    | none => return .error (.misuse (.notGradient node))

end Access

end SharedExpr
