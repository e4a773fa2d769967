import SharedExpr.Access.Table
import SharedExpr.Expr.Apply

/-! The rules and the building of expressions with every access to the table. -/
namespace SharedExpr.Access

variable {α : Type} [Scalar α]

/-- A rule for the operand of a unary operator, with its accesses. -/
abbrev UnaryRule (α : Type) [Scalar α] :=
  Dag α → NodeId → Access (Option (Expr α))

abbrev BinaryRule (α : Type) [Scalar α] :=
  Dag α → NodeId → NodeId → Access (Option (Expr α))

namespace UnaryRule

def fold (op : Unary) : UnaryRule α := fun d x => do
  return (← d.literalAt x).map fun a => .lit (Scalar.unary op a)

def cancel : UnaryRule α := fun d x => do
  return (← d.negatedAt x).map .ref

def all : Unary → List (UnaryRule α)
  | .neg => [fold .neg, cancel]
  | op => [fold op]

end UnaryRule

namespace BinaryRule

def fold (op : Binary) : BinaryRule α := fun d x y => do
  match ← d.literalAt x with
  | none => return none
  | some a => return (← d.literalAt y).map fun b => .lit (Scalar.binary op a b)

def zeroPlus : BinaryRule α := fun d x y => do
  return if ← d.hasValueAt x Scalar.zero then some (.ref y) else none

def blind (rule : SharedExpr.BinaryRule α) : BinaryRule α := fun d x y =>
  some (rule d x y)

def negPlus : BinaryRule α := fun d x y => do
  return (← d.negatedAt x).map fun a =>
    if a = y then .lit Scalar.zero else .binary .sub (.ref y) (.ref a)

def plusNeg : BinaryRule α := fun d x y => do
  return (← d.negatedAt y).map fun b =>
    if b = x then .lit Scalar.zero else .binary .sub (.ref x) (.ref b)

def zeroMinus : BinaryRule α := fun d x y => do
  return if ← d.hasValueAt x Scalar.zero then some (.unary .neg (.ref y)) else none

def minusLiteral : BinaryRule α := fun d x y => do
  return (← d.literalAt y).map fun m => .binary .add (.ref x) (.lit (Scalar.unary .neg m))

def minusNeg : BinaryRule α := fun d x y => do
  return (← d.negatedAt y).map fun b => .binary .add (.ref x) (.ref b)

def unitTimes : BinaryRule α := fun d x y => do
  if ← d.hasValueAt x Scalar.zero then return some (.ref x)
  else if ← d.hasValueAt x Scalar.one then return some (.ref y)
  else if ← d.hasValueAt x Scalar.minusOne then return some (.unary .neg (.ref y))
  else return none

def zeroOver : BinaryRule α := fun d x _ => do
  return if ← d.hasValueAt x Scalar.zero then some (.ref x) else none

def powZero : BinaryRule α := fun d _ y => do
  return if ← d.hasValueAt y Scalar.zero then some (.lit Scalar.one) else none

def powOne : BinaryRule α := fun d x y => do
  return if ← d.hasValueAt y Scalar.one then some (.ref x) else none

/-- The operands of a node `a op b`, both of which have to be there, if the left one is a
literal. -/
def prefixedAt (d : Dag α) (op : Binary) (id : NodeId) : Access (Option (NodeId × NodeId)) := do
  if (← d.labelAt id) = .binary op then
    let operands ← d.operandsAt id
    let a ← operands[0]?
    let b ← operands[1]?
    return if ← d.isLiteralAt a then some (a, b) else none
  else return none

def regroup (op : Binary) : BinaryRule α := fun d x y => do
  let literal ← d.isLiteralAt x
  match ← prefixedAt d op x, ← prefixedAt d op y with
  | some (a, b), some (c, z) =>
    return some (.binary op (.binary op (.ref a) (.ref c)) (.binary op (.ref b) (.ref z)))
  | none, some (c, z) =>
    if literal then return some (.binary op (.binary op (.ref x) (.ref c)) (.ref z))
    else return some (.binary op (.ref c) (.binary op (.ref x) (.ref z)))
  | some (a, b), none => return some (.binary op (.ref a) (.binary op (.ref b) (.ref y)))
  | none, none => return none

open SharedExpr.BinaryRule (double minusSelf square overSelf) in
def all : Binary → List (BinaryRule α)
  | .add => [fold .add, zeroPlus, blind double, negPlus, plusNeg, regroup .add]
  | .sub => [fold .sub, blind minusSelf, zeroMinus, minusLiteral, minusNeg]
  | .mul => [fold .mul, unitTimes, blind square, regroup .mul]
  | .div => [fold .div, zeroOver, blind overSelf]
  | .pow => [fold .pow, powZero, powOne]

end BinaryRule

def swaps (d : Dag α) (x y : NodeId) : Access Bool := do
  if ← d.isLiteralAt x then return false
  else if ← d.isLiteralAt y then return true
  else return y < x

def arrange (d : Dag α) : Application → Access Application
  | .unary op x => return .unary op x
  | .binary op x y => do
    if op.commutes then
      if ← swaps d x y then return .binary op y x
    return .binary op x y

def replacement (d : Dag α) : Application → Access (Option (Expr α))
  | .unary op x => (UnaryRule.all op).findSomeM? fun rule => rule d x
  | .binary op x y => (BinaryRule.all op).findSomeM? fun rule => rule d x y

def buildWith (f : Application → Dag α → Access (NodeId × Dag α)) :
    Expr α → Dag α → Access (NodeId × Dag α)
  | .ref id, d => some (id, d)
  | .lit value, d => d.internAt ⟨.lit (Scalar.normal value), []⟩
  | .var name, d => d.internAt ⟨.var name, []⟩
  | .unary op x, d => do
    let (x, d) ← buildWith f x d
    f (.unary op x) d
  | .binary op x y, d => do
    let (x, d) ← buildWith f x d
    let (y, d) ← buildWith f y d
    f (.binary op x y) d

def applyAt : Nat → Application → Dag α → Access (NodeId × Dag α)
  | 0, _, _ => none
  | depth + 1, app, d => do
    let app ← arrange d app
    match ← replacement d app with
    | none => d.internAt app.node
    | some e => buildWith (applyAt depth) e d

def apply (app : Application) (d : Dag α) : Access (NodeId × Dag α) :=
  applyAt Application.nestingLimit app d

def build (e : Expr α) (d : Dag α) : Access (NodeId × Dag α) :=
  buildWith apply e d

def tryApply (app : Application) (d : Dag α) : Access (Except Fault NodeId × Dag α) :=
  match app.operands.forM d.check with
  | .error fault => some (.error fault, d)
  | .ok () => do
    let (id, d) ← apply app d
    return (.ok id, d)

end SharedExpr.Access
