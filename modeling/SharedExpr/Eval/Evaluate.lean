import SharedExpr.Dag.Walk
import SharedExpr.Eval.Memo
import SharedExpr.Fault

/-! Evaluation of a node, every node under it once. -/
namespace SharedExpr

abbrev Bindings (α : Type) :=
  String → Option α

namespace Bindings

variable {α : Type}

def set (b : Bindings α) (name : String) (value : α) : Bindings α :=
  fun n => if n = name then some value else b n

def ofLists (names : List String) (values : List α) : Bindings α :=
  fun n => (names.zip values).lookup n

end Bindings

variable {α : Type} [Scalar α]

def Memo.value (m : Memo α) (node : NodeId) : Except Fault α :=
  match m.get? node with
  | some value => .ok value
  | none => .error (.misuse (.notEvaluated node))

namespace Dag

/-- Evaluates a node whose operands have their values in the memo. -/
def evaluateNode (d : Dag α) (b : Bindings α) (m : Memo α) (node : NodeId) :
    Except Fault (Memo α) :=
  match d.node? node with
  | some ⟨.lit value, _⟩ => .ok (m.insert node value)
  | some ⟨.var name, _⟩ =>
    match b name with
    | some value => .ok (m.insert node value)
    | none => .error (.unboundVariable name)
  | some ⟨.unary op, x :: _⟩ => do
    let x ← m.value x
    return m.insert node (Scalar.unary op x)
  | some ⟨.binary op, x :: y :: _⟩ => do
    let x ← m.value x
    let y ← m.value y
    return m.insert node (Scalar.binary op x y)
  | some ⟨.gradient _, primal :: partials⟩ => do
    let primal ← m.value primal
    let partials ← partials.mapM m.value
    return (m.insertBundle node (primal :: partials)).insert node primal
  | _ => .error (.misuse (.notEvaluated node))

/-- Fails at the first variable, by name, that has no value. -/
def checkBound (d : Dag α) (b : Bindings α) (vars : List NodeId) : Except Fault Unit :=
  vars.forM fun var =>
    match d.name? var with
    | some name => if (b name).isSome then .ok () else .error (.unboundVariable name)
    | none => .ok ()

/-- The value of a node with those of all nodes under it. Nothing is computed unless all variables
have values. -/
def evaluateAll (d : Dag α) (root : NodeId) (b : Bindings α) : Except Fault (α × Memo α) := do
  d.check root
  let walk := d.walk root
  d.checkBound b walk.freeVars
  let m ← walk.order.toList.foldlM (d.evaluateNode b) .empty
  let value ← m.value root
  return (value, m)

def evaluate (d : Dag α) (root : NodeId) (b : Bindings α) : Except Fault α :=
  (d.evaluateAll root b).map Prod.fst

/-- The bindings of the variables under a node to values in the order of their names. -/
def bindingsAt (d : Dag α) (root : NodeId) (values : List α) : Except Fault (Bindings α) := do
  d.check root
  let vars := d.freeVars root
  if vars.length ≠ values.length then throw (.valueCount vars.length values.length)
  return .ofLists (vars.filterMap d.name?) values

def evaluateAt (d : Dag α) (root : NodeId) (values : List α) : Except Fault α := do
  d.evaluate root (← d.bindingsAt root values)

def sample (d : Dag α) (root : NodeId) (var : String) (xs : List α) (b : Bindings α) :
    Except Fault (List α) :=
  xs.mapM fun x => d.evaluate root (b.set var x)

def evaluateGradient (d : Dag α) (node : NodeId) (b : Bindings α) : Except Fault (List α) := do
  let (_, m) ← d.evaluateAll node b
  match m.bundle? node with
  | some values => return values
  | none => throw (.misuse (.notGradient node))

end Dag

/-- An evaluator keeps the values of its last evaluation. -/
abbrev Evaluator (α : Type) [Scalar α] :=
  ExceptT Fault (StateM (Memo α))

namespace Evaluator

/-- Evaluates a node; a failure leaves no values behind. -/
def evaluate (d : Dag α) (root : NodeId) (b : Bindings α) : Evaluator α α := fun _ =>
  match d.evaluateAll root b with
  | .ok (value, m) => (.ok value, m)
  | .error fault => (.error fault, .empty)

/-- Evaluates a node at values in the order of the names of its variables. If they do not fit, the
earlier values are kept. -/
def evaluateAt (d : Dag α) (root : NodeId) (values : List α) : Evaluator α α := fun m =>
  match d.bindingsAt root values with
  | .ok b => evaluate d root b m
  | .error fault => (.error fault, m)

end Evaluator

end SharedExpr
