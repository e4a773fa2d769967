import SharedExpr.Expr.Apply
import SharedExpr.Gradient.Bundle

/-! Partial derivatives of a single node with respect to one of its operands. -/
namespace SharedExpr

variable {α : Type} [Scalar α]

namespace Unary

def derivative (op : Unary) (node x : NodeId) : Expr α :=
  match op with
  | .neg => .lit Scalar.minusOne
  | .exp => .ref node
  | .log => .binary .div (.lit Scalar.one) (.ref x)
  | .sin => .unary .cos (.ref x)
  | .cos => .unary .neg (.unary .sin (.ref x))

end Unary

namespace Binary

/-- The derivative of `x op y` along the operand that is marked, where `dx` and `dy` are one for
that operand and zero for the other. There is none of a power along an exponent that is not a
literal. -/
def derivative? (op : Binary) (literalExponent : Bool) (x y dx dy : NodeId) (first : Bool) :
    Option (Expr α) :=
  match op with
  | .add => some (.lit Scalar.one)
  | .sub => some (.lit (if first then Scalar.one else Scalar.minusOne))
  | .mul => some (.binary .add (.binary .mul (.ref dx) (.ref y)) (.binary .mul (.ref x) (.ref dy)))
  | .div =>
    some (.binary .div
      (.binary .sub (.binary .mul (.ref dx) (.ref y)) (.binary .mul (.ref x) (.ref dy)))
      (.binary .pow (.ref y) (.lit Scalar.two)))
  | .pow =>
    if first then
      some (.binary .mul (.ref y)
        (.binary .pow (.ref x) (.binary .sub (.ref y) (.lit Scalar.one))))
    else if literalExponent then some (.lit Scalar.zero)
    else none

end Binary

def exponentReason : String :=
  "power with a non-literal exponent"

/-- The nodes one and zero, in this order for the first operand and in the other for the second,
as derivatives of the two operands. -/
def operandSeeds (first : Bool) : Build α (NodeId × NodeId) := do
  if first then
    let dx ← Build.one
    let dy ← Build.zero
    pure (dx, dy)
  else
    let dx ← Build.zero
    let dy ← Build.one
    pure (dx, dy)

/-- The partial derivative of a node with respect to the operand at a position. -/
def derivative (consumer : NodeId) (position : Nat) : Attempt α NodeId := fun d =>
  match d.node? consumer with
  | some ⟨.unary op, x :: _⟩ =>
    let (id, d) := (op.derivative consumer x).build d
    (.ok id, d)
  | some ⟨.binary op, [x, y]⟩ =>
    let ((dx, dy), d) := operandSeeds (position == 0) d
    match op.derivative? (d.isLiteral y) x y dx dy (position == 0) with
    | some e => let (id, d) := e.build d; (.ok id, d)
    | none => (.error (.unsupportedDerivative consumer exponentReason), d)
  | some ⟨.binary _, _⟩ => (.error (.misuse (.notBinary consumer)), d)
  | some ⟨.gradient _, _⟩ => (.error (.misuse (.gradientDerivative consumer)), d)
  | some _ => (.error (.misuse (.leafDerivative consumer)), d)
  | none => (.error (.foreign consumer), d)

end SharedExpr
