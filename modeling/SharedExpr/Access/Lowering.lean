import SharedExpr.Access.Walk
import SharedExpr.Code.Lowering

/-! Lowering with every access to the table. -/
namespace SharedExpr.Access

variable {α : Type} [Scalar α] [ScalarText α]

def lowerNode (d : Dag α) (s : Lowering) (node : NodeId) :
    Access (Except Fault (String × Option Instruction)) := do
  let operands ← d.operandsAt node
  let dest := (Register.result node).text
  match ← d.labelAt node with
  | .lit value => return .ok (ScalarText.constant value, none)
  | .var name => return .error (.misuse (.unboundParameter name))
  | .unary op =>
    let x ← operands[0]?
    return (s.operand x).map fun x => (dest, some (op.instruction dest x))
  | .binary op =>
    let x ← operands[0]?
    match s.operand x with
    | .error fault => return .error fault
    | .ok x =>
      let y ← operands[1]?
      return (s.operand y).map fun y => (dest, some (op.instruction dest x y))
  | .gradient _ => return .error (.misuse (.gradientValue node))

def lowerAll (d : Dag α) : List NodeId → Lowering → Access (Except Fault Unit × Lowering)
  | [], s => some (.ok (), s)
  | node :: nodes, s =>
    if s.values.contains node then lowerAll d nodes s
    else do
      match ← lowerNode d s node with
      | .ok (value, instruction) => lowerAll d nodes (s.add node value instruction)
      | .error fault => return (.error fault, s)

def lower (d : Dag α) (node : NodeId) (s : Lowering) : Access (Except Fault String × Lowering) :=
  match s.values[node]? with
  | some value => some (.ok value, s)
  | none => do
    let w ← walk d node
    match ← lowerAll d w.order.toList s with
    | (.error fault, s) => return (.error fault, s)
    | (.ok (), s) => return (s.operand node, s)

def lowerList (d : Dag α) : List NodeId → Lowering →
    Access (Except Fault (List String) × Lowering)
  | [], s => some (.ok [], s)
  | node :: nodes, s => do
    match ← lower d node s with
    | (.error fault, s) => return (.error fault, s)
    | (.ok value, s) =>
      let (values, s) ← lowerList d nodes s
      return (values.map (value :: ·), s)

/-- Completes a function for a root. The parts of a root that is a gradient are read before
anything is lowered. -/
def program (d : Dag α) (root : NodeId) (options : CodeOptions) :
    Access (Except Fault Program) :=
  match d.check root with
  | .error fault => some (.error fault)
  | .ok () => do
    let freeVars := (← walk d root).freeVars
    let vars := (← freeVars.mapM fun var =>
      (d.nameAt var).map fun name => name.map (var, ·)).filterMap id
    let names := vars.map Prod.snd
    let s := vars.foldl (fun s (var, name) => s.bind var (Register.value name).text) .start
    let bundle ← d.bundleAt root
    let nodes :=
      match bundle with
      | some parts => parts.primal :: parts.partials
      | none => [root]
    match ← lowerList d nodes s with
    | (.error fault, _) => return .error fault
    | (.ok values, s) =>
      let (returns, epilogue) := Lowering.epilogue options.convention values bundle.isSome
      return .ok {
        name := options.functionName
        returns
        params := Lowering.params options.convention names
        prologue := Lowering.prologue options.convention names
        body := s.body.toList
        epilogue }

def code (d : Dag α) (root : NodeId) (options : CodeOptions) : Access (Except Fault String) :=
  (program d root options).map fun p => p.map Program.text

end SharedExpr.Access
