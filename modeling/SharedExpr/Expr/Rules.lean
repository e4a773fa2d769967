import SharedExpr.Expr.Basic

/-! The rules by which an application of an operator is replaced by a simpler expression. -/
namespace SharedExpr

variable {α : Type} [Scalar α]

/-- A rule for the operand of a unary operator: what stands for the application, if it applies. -/
abbrev UnaryRule (α : Type) [Scalar α] :=
  Dag α → NodeId → Option (Expr α)

abbrev BinaryRule (α : Type) [Scalar α] :=
  Dag α → NodeId → NodeId → Option (Expr α)

namespace UnaryRule

/-- An operator on a literal is a literal. -/
def fold (op : Unary) : UnaryRule α := fun d x =>
  (d.literal? x).map fun a => .lit (Scalar.unary op a)

/-- `--a` is `a`. -/
def cancel : UnaryRule α := fun d x =>
  (d.negated? x).map .ref

/-- The rules of an operator; the first that applies counts. -/
def all : Unary → List (UnaryRule α)
  | .neg => [fold .neg, cancel]
  | op => [fold op]

end UnaryRule

namespace BinaryRule

def fold (op : Binary) : BinaryRule α := fun d x y => do
  let a ← d.literal? x
  let b ← d.literal? y
  some (.lit (Scalar.binary op a b))

def zeroPlus : BinaryRule α := fun d x y =>
  if d.hasValue x Scalar.zero then some (.ref y) else none

/-- `x + x` is `2 * x`. -/
def double : BinaryRule α := fun _ x y =>
  if x = y then some (.binary .mul (.lit Scalar.two) (.ref x)) else none

/-- `-a + y` is `y - a`, or zero if `y` is `a`. -/
def negPlus : BinaryRule α := fun d x y =>
  (d.negated? x).map fun a =>
    if a = y then .lit Scalar.zero else .binary .sub (.ref y) (.ref a)

/-- `x + -b` is `x - b`, or zero if `x` is `b`. -/
def plusNeg : BinaryRule α := fun d x y =>
  (d.negated? y).map fun b =>
    if b = x then .lit Scalar.zero else .binary .sub (.ref x) (.ref b)

def minusSelf : BinaryRule α := fun _ x y =>
  if x = y then some (.lit Scalar.zero) else none

def zeroMinus : BinaryRule α := fun d x y =>
  if d.hasValue x Scalar.zero then some (.unary .neg (.ref y)) else none

/-- `x - m` is `x + -m` for a literal `m`. -/
def minusLiteral : BinaryRule α := fun d x y =>
  (d.literal? y).map fun m => .binary .add (.ref x) (.lit (Scalar.unary .neg m))

/-- `x - -b` is `x + b`. -/
def minusNeg : BinaryRule α := fun d x y =>
  (d.negated? y).map fun b => .binary .add (.ref x) (.ref b)

/-- `0 * y` is zero, `1 * y` is `y`, and `-1 * y` is `-y`. -/
def unitTimes : BinaryRule α := fun d x y =>
  if d.hasValue x Scalar.zero then some (.ref x)
  else if d.hasValue x Scalar.one then some (.ref y)
  else if d.hasValue x Scalar.minusOne then some (.unary .neg (.ref y))
  else none

/-- `x * x` is `x ^ 2`. -/
def square : BinaryRule α := fun _ x y =>
  if x = y then some (.binary .pow (.ref x) (.lit Scalar.two)) else none

def zeroOver : BinaryRule α := fun d x _ =>
  if d.hasValue x Scalar.zero then some (.ref x) else none

def overSelf : BinaryRule α := fun _ x y =>
  if x = y then some (.lit Scalar.one) else none

def powZero : BinaryRule α := fun d _ y =>
  if d.hasValue y Scalar.zero then some (.lit Scalar.one) else none

def powOne : BinaryRule α := fun d x y =>
  if d.hasValue y Scalar.one then some (.ref x) else none

/-- The parts `(a, b)` of a node `a op b` whose left operand is a literal. -/
def prefixed? (d : Dag α) (op : Binary) (id : NodeId) : Option (NodeId × NodeId) :=
  match d.node? id with
  | some ⟨.binary op', [a, b]⟩ => if op' = op ∧ d.isLiteral a then some (a, b) else none
  | _ => none

/-- Literals move towards the root and meet there: `x op (c op z)` with a literal `x` is
`(x op c) op z`, `(a op b) op (c op z)` is `(a op c) op (b op z)`, `x op (c op z)` is
`c op (x op z)`, and `(a op b) op y` is `a op (b op y)`. -/
def regroup (op : Binary) : BinaryRule α := fun d x y =>
  match prefixed? d op x, prefixed? d op y with
  | some (a, b), some (c, z) =>
    some (.binary op (.binary op (.ref a) (.ref c)) (.binary op (.ref b) (.ref z)))
  | none, some (c, z) =>
    if d.isLiteral x then some (.binary op (.binary op (.ref x) (.ref c)) (.ref z))
    else some (.binary op (.ref c) (.binary op (.ref x) (.ref z)))
  | some (a, b), none => some (.binary op (.ref a) (.binary op (.ref b) (.ref y)))
  | none, none => none

def all : Binary → List (BinaryRule α)
  | .add => [fold .add, zeroPlus, double, negPlus, plusNeg, regroup .add]
  | .sub => [fold .sub, minusSelf, zeroMinus, minusLiteral, minusNeg]
  | .mul => [fold .mul, unitTimes, square, regroup .mul]
  | .div => [fold .div, zeroOver, overSelf]
  | .pow => [fold .pow, powZero, powOne]

end BinaryRule

namespace Application

/-- Whether the operands of a commuting operator should change places: a literal goes to the left,
else the older node does. -/
def swaps (d : Dag α) (x y : NodeId) : Bool :=
  !d.isLiteral x && (d.isLiteral y || y < x)

/-- The application with the operands of a commuting operator in their canonical order. -/
def arrange (d : Dag α) : Application → Application
  | unary op x => .unary op x
  | binary op x y => if op.commutes && swaps d x y then .binary op y x else .binary op x y

/-- What the rules make of an application; nothing if it has to stand as it is. -/
def replacement? (d : Dag α) : Application → Option (Expr α)
  | unary op x => (UnaryRule.all op).findSome? fun rule => rule d x
  | binary op x y => (BinaryRule.all op).findSome? fun rule => rule d x y

end Application

end SharedExpr
