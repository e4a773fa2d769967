import Mathlib.Algebra.Field.Rat
import Mathlib.Tactic.Ring
import SharedExpr.Scalar

/-! Numbers with exact arithmetic: the elements of a field. -/
namespace SharedExpr

/-- The operators of a field as those of expressions. Exponentials, logarithms, sines and cosines
are any functions; of powers only those to zero, one and two are fixed. -/
class ExactScalar (K : Type) [Field K] extends Scalar K where
  zero_eq : zero = 0
  one_eq : one = 1
  two_eq : two = 2
  neg_eq (x : K) : unary .neg x = -x
  add_eq (x y : K) : binary .add x y = x + y
  sub_eq (x y : K) : binary .sub x y = x - y
  mul_eq (x y : K) : binary .mul x y = x * y
  div_eq (x y : K) : binary .div x y = x / y
  pow_zero (x : K) : binary .pow x 0 = 1
  pow_one (x : K) : binary .pow x 1 = x
  pow_two (x : K) : binary .pow x 2 = x * x
  same_iff (x y : K) : same x y = true ↔ x = y

namespace ExactScalar

attribute [simp] zero_eq one_eq two_eq neg_eq add_eq sub_eq mul_eq div_eq pow_zero pow_one pow_two
  same_iff

variable {K : Type} [Field K] [ExactScalar K]

@[simp] theorem minusOne_eq : (Scalar.minusOne : K) = -1 := by
  simp [Scalar.minusOne]

@[simp] theorem normal_eq (value : K) : Scalar.normal value = value := by
  rw [Scalar.normal]
  split
  · next h => simpa using ((same_iff value _).1 h).symm
  · rfl

theorem binary_comm {op : Binary} (hop : op.commutes) (x y : K) :
    Scalar.binary op x y = Scalar.binary op y x := by
  cases op with
  | add => simp only [add_eq, add_comm]
  | mul => simp only [mul_eq, mul_comm]
  | sub | div | pow => cases hop

theorem binary_assoc {op : Binary} (hop : op.commutes) (x y z : K) :
    Scalar.binary op (Scalar.binary op x y) z = Scalar.binary op x (Scalar.binary op y z) := by
  cases op with
  | add => simp only [add_eq, add_assoc]
  | mul => simp only [mul_eq, mul_assoc]
  | sub | div | pow => cases hop

theorem binary_left_comm {op : Binary} (hop : op.commutes) (x y z : K) :
    Scalar.binary op x (Scalar.binary op y z) = Scalar.binary op y (Scalar.binary op x z) := by
  rw [← binary_assoc hop, binary_comm hop x y, binary_assoc hop]

@[reducible] def ofField (K : Type) [Field K] [DecidableEq K] [Hashable K] (exp log sin cos : K → K)
    (pow : K → K → K) (h₀ : ∀ x, pow x 0 = 1) (h₁ : ∀ x, pow x 1 = x)
    (h₂ : ∀ x, pow x 2 = x * x) : ExactScalar K where
  decEq := inferInstance
  zero := 0
  one := 1
  two := 2
  unary
    | .neg => fun x => -x
    | .exp => exp
    | .log => log
    | .sin => sin
    | .cos => cos
  binary
    | .add => (· + ·)
    | .sub => (· - ·)
    | .mul => (· * ·)
    | .div => (· / ·)
    | .pow => pow
  same x y := x = y
  zero_eq := rfl
  one_eq := rfl
  two_eq := rfl
  neg_eq _ := rfl
  add_eq _ _ := rfl
  sub_eq _ _ := rfl
  mul_eq _ _ := rfl
  div_eq _ _ := rfl
  pow_zero := h₀
  pow_one := h₁
  pow_two := h₂
  same_iff _ _ := decide_eq_true_iff

instance : Hashable ℚ :=
  ⟨fun x => mixHash (hash x.num) (hash x.den)⟩

/-- Rational numbers with whole powers; the other functions are kept apart by a shift each. -/
instance : ExactScalar ℚ :=
  ofField ℚ (· + 3) (· + 5) (· + 7) (· + 11) (fun x y => if y.den = 1 then x ^ y.num else 0)
    (fun x => by simp) (fun x => by simp)
    (fun x => by
      have hd : (2 : ℚ).den = 1 := rfl
      have hn : (2 : ℚ).num = 2 := rfl
      rw [if_pos hd, hn, zpow_two])

end ExactScalar

end SharedExpr
