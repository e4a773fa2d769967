import SharedExpr.Code.Program
import SharedExpr.Dag.Walk
import SharedExpr.Fault

/-! The lowering of a node to a function, one instruction for each operator node under it. -/
namespace SharedExpr

/-- How a function gets the variables and hands back its results. -/
inductive Convention where
  /-- A parameter for each variable; the results are returned. -/
  | scalar
  /-- Variables are loaded from one buffer and results stored to another. -/
  | buffer
  deriving DecidableEq

structure CodeOptions where
  convention : Convention := .scalar
  functionName : String := "kernel"
  deriving DecidableEq

/-- A function under way: the texts of the values known so far, and the instructions for them. -/
structure Lowering where
  values : Std.HashMap NodeId String
  body : Array Instruction

namespace Lowering

variable {α : Type} [Scalar α] [ScalarText α]

def start : Lowering :=
  ⟨∅, #[]⟩

def bind (s : Lowering) (node : NodeId) (value : String) : Lowering :=
  { s with values := s.values.insert node value }

def add (s : Lowering) (node : NodeId) (value : String) (instruction : Option Instruction) :
    Lowering :=
  ⟨s.values.insert node value, s.body ++ instruction.toList⟩

def operand (s : Lowering) (node : NodeId) : Except Fault String :=
  match s.values[node]? with
  | some value => .ok value
  | none => .error (.misuse (.notLowered node))

/-- The text of the value of a node whose operands are lowered, and the instruction that computes
it. Variables have to be bound beforehand, and a gradient has no single value. -/
def lowerNode (d : Dag α) (s : Lowering) (node : NodeId) :
    Except Fault (String × Option Instruction) :=
  let dest := (Register.result node).text
  match d.node? node with
  | some ⟨.lit value, _⟩ => .ok (ScalarText.constant value, none)
  | some ⟨.var name, _⟩ => .error (.misuse (.unboundParameter name))
  | some ⟨.unary op, x :: _⟩ => do
    let x ← s.operand x
    return (dest, some (op.instruction dest x))
  | some ⟨.binary op, x :: y :: _⟩ => do
    let x ← s.operand x
    let y ← s.operand y
    return (dest, some (op.instruction dest x y))
  | some ⟨.gradient _, _⟩ => .error (.misuse (.gradientValue node))
  | _ => .error (.misuse (.notLowered node))

/-- Lowers nodes in order, those left out that are lowered already, until one fails. -/
def lowerAll (d : Dag α) : List NodeId → Lowering → Except Fault Unit × Lowering
  | [], s => (.ok (), s)
  | node :: nodes, s =>
    if s.values.contains node then lowerAll d nodes s
    else
      match lowerNode d s node with
      | .ok (value, instruction) => lowerAll d nodes (s.add node value instruction)
      | .error fault => (.error fault, s)

/-- The text of the value of a node, with the instructions for it that were missing. -/
def lower (d : Dag α) (node : NodeId) : ExceptT Fault (StateM Lowering) String := fun s =>
  match s.values[node]? with
  | some value => (.ok value, s)
  | none =>
    match lowerAll d (d.walk node).order.toList s with
    | (.error fault, s) => (.error fault, s)
    | (.ok (), s) => (s.operand node, s)

def lower? (d : Dag α) (node : NodeId) (s : Lowering) : Option (Except Fault String × Lowering) :=
  if d.contains node then some (lower d node s) else none

def params (convention : Convention) (names : List String) : List String :=
  match convention with
  | .scalar => names.map fun name => "double " ++ (Register.value name).text
  | .buffer => ["ptr " ++ Register.input.text, "ptr " ++ Register.output.text]

/-- The loads of variables of the given names, which stand in the input buffer in this order. -/
def prologue (convention : Convention) (names : List String) : List Instruction :=
  match convention with
  | .scalar => []
  | .buffer => names.zipIdx.flatMap fun (name, i) =>
    let address := (Register.address name).text
    [.elementPtr address Register.input.text i, .load (Register.value name).text address]

def aggregate (width : Nat) : List (String × Nat) → Option String → List Instruction
  | [], last => [.ret (.aggregate width) last]
  | (value, i) :: values, last =>
    let dest := (Register.aggregate i).text
    .insertValue dest width last value i :: aggregate width values (some dest)

/-- The end of a function with the given results: stores, or the return of one value or, for a
gradient, of an aggregate. -/
def epilogue (convention : Convention) (values : List String) (isGradient : Bool) :
    ReturnType × List Instruction :=
  match convention with
  | .buffer =>
    let stores := values.zipIdx.flatMap fun (value, i) =>
      let slot := (Register.slot i).text
      [.elementPtr slot Register.output.text i, .store value slot]
    (.void, stores ++ [.ret .void none])
  | .scalar =>
    if isGradient then
      (.aggregate values.length, aggregate values.length values.zipIdx none)
    else (.double, [.ret .double values.head?])

def lowerList (d : Dag α) : List NodeId → ExceptT Fault (StateM Lowering) (List String)
  | [] => pure []
  | node :: nodes => do
    let value ← lower d node
    let values ← lowerList d nodes
    return value :: values

/-- Completes a function for a root, which may be a gradient. -/
def program (d : Dag α) (root : NodeId) (options : CodeOptions) (s : Lowering) :
    Except Fault Program := do
  d.check root
  let vars := (d.freeVars root).filterMap fun var => (d.name? var).map (var, ·)
  let names := vars.map Prod.snd
  let s := vars.foldl (fun s (var, name) => s.bind var (Register.value name).text) s
  let bundle := d.bundle? root
  let nodes :=
    match bundle with
    | some parts => parts.primal :: parts.partials
    | none => [root]
  let (values, s) := lowerList d nodes s
  let values ← values
  let (returns, epilogue) := epilogue options.convention values bundle.isSome
  return {
    name := options.functionName
    returns
    params := params options.convention names
    prologue := prologue options.convention names
    body := s.body.toList
    epilogue }

end Lowering

namespace Dag

variable {α : Type} [Scalar α] [ScalarText α]

def program (d : Dag α) (root : NodeId) (options : CodeOptions) : Except Fault Program :=
  Lowering.start.program d root options

def code (d : Dag α) (root : NodeId) (options : CodeOptions) : Except Fault String :=
  (d.program root options).map Program.text

end Dag

end SharedExpr
