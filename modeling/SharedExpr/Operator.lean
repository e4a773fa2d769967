/-! The operators of an expression, their names, their symbols and which of them commute. -/
namespace SharedExpr

inductive Unary where
  | neg | exp | log | sin | cos
  deriving DecidableEq, Hashable

inductive Binary where
  | add | sub | mul | div | pow
  deriving DecidableEq, Hashable

def Unary.name : Unary → String
  | .neg => "neg"
  | .exp => "exp"
  | .log => "log"
  | .sin => "sin"
  | .cos => "cos"

def Binary.symbol : Binary → String
  | .add => "+"
  | .sub => "-"
  | .mul => "*"
  | .div => "/"
  | .pow => "^"

/-- Sums and products do not depend on the order of their operands. -/
def Binary.commutes : Binary → Bool
  | .add | .mul => true
  | .sub | .div | .pow => false

theorem Unary.name_injective {a b : Unary} (h : a.name = b.name) : a = b := by
  cases a <;> cases b <;> first | rfl | simp [Unary.name] at h

theorem Binary.symbol_injective {a b : Binary} (h : a.symbol = b.symbol) : a = b := by
  cases a <;> cases b <;> first | rfl | simp [Binary.symbol] at h

end SharedExpr
