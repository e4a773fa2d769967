import SharedExpr.Dag.Unfold
import SharedExpr.Fault

/-! The expression under a node as text, every operator in parentheses. -/
namespace SharedExpr

variable {α : Type} [Scalar α] [ScalarText α]

def Label.infixText : Label α → List String → String
  | .lit value, _ => ScalarText.plain value
  | .var name, _ => name
  | .unary .neg, [x] => s!"-({x})"
  | .unary op, [x] => s!"({op.name}({x}))"
  | .binary op, [x, y] => s!"({x} {op.symbol} {y})"
  | .gradient _, parts => "\x7b" ++ ", ".intercalate parts ++ "\x7d"
  | _, _ => ""

/-- The expression under a node; a shared node is written out at each of its uses. -/
def Dag.display (d : Dag α) (id : NodeId) : String :=
  d.unfold (fun id => s!"<invalid {describe id}>") (fun _ label => label.infixText) id

def Dag.displayNumbered (d : Dag α) (id : NodeId) : String :=
  s!"{describe id} = {d.display id}"

end SharedExpr
