import SharedExpr.Double.Nearest

/-! The shortest decimal that reads back as a given double. -/
namespace SharedExpr

structure Decimal where
  coefficient : Nat
  place : Int
  deriving DecidableEq

namespace Decimal

def value (d : Decimal) : Fraction :=
  .scaled d.coefficient 10 d.place

/-- The same value without zeros at the end of the coefficient, of which at most `fuel` are cut. -/
def trim (d : Decimal) : Nat → Decimal
  | 0 => d
  | fuel + 1 =>
    if d.coefficient ≠ 0 ∧ d.coefficient % 10 = 0 then
      (Decimal.mk (d.coefficient / 10) (d.place + 1)).trim fuel
    else d

end Decimal

namespace Double

def readBy (x : Double) (d : Decimal) : Bool :=
  nearestBits d.value == x.magnitude.toNat

/-- The exact decimal expansion of a finite double: its denominator is a power of two. -/
def expansion (x : Double) : Decimal :=
  ⟨x.exact.num * Nat.pow 5 x.exact.den.log2, -x.exact.den.log2⟩

/-- A decimal of the given number of digits that reads back as `x`, if there is one: of the two
neighbours of `x` among them the nearer one, the greater one when both are equally near. -/
def shortened? (x : Double) (digits : Nat) : Option Decimal :=
  let place := x.exact.decimalExponent + 1 - digits
  let unit := Fraction.scaled 1 10 place
  let num := x.exact.num * unit.den
  let den := x.exact.den * unit.num
  let below : Decimal := ⟨num / den, place⟩
  let above : Decimal := ⟨num / den + 1, place⟩
  let order := if 2 * (num % den) < den then [below, above] else [above, below]
  order.find? x.readBy

/-- The shortest decimal that reads back as a finite double. Seventeen digits always suffice; the
exact expansion stands behind them. -/
def shortest (x : Double) : Decimal :=
  if x.isZero then ⟨0, 0⟩
  else ((List.range 17).findSome? fun n => x.shortened? (n + 1)).getD x.expansion |>.trim 400

end Double

end SharedExpr
