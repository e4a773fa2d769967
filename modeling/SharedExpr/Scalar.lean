import SharedExpr.Operator

/-! The numbers that expressions are made of, as an interface. -/
namespace SharedExpr

/-- Numbers with the ten operators. Two literals are one node when they are equal; `same` is the
comparison of their values, which may identify more (the two zeros of a floating-point type) or
less (a value that differs from itself). -/
class Scalar (α : Type) extends Hashable α where
  decEq : DecidableEq α
  zero : α
  one : α
  two : α
  unary : Unary → α → α
  binary : Binary → α → α → α
  same : α → α → Bool

namespace Scalar

variable {α : Type} [Scalar α]

instance : DecidableEq α := decEq

/-- Minus one, which turns a product into a negation. -/
def minusOne : α :=
  unary .neg one

/-- The value under which a literal is stored: every zero becomes the one `zero`. -/
def normal (value : α) : α :=
  if same value zero then zero else value

end Scalar

class ScalarText (α : Type) where
  /-- The shortest text, as it stands in printed expressions. -/
  plain : α → String
  /-- Three places after the point, as values are shown in outlines. -/
  places : α → String
  /-- The operand text of a constant in code. -/
  constant : α → String

end SharedExpr
