import SharedExpr.Double.Basic

/-! Rounding of exact fractions to doubles, and the exact value of a double. -/
namespace SharedExpr

/-- The nearest whole number to a quotient, a half going to the even neighbour. -/
def roundHalfEven (num den : Nat) : Nat :=
  let q := num / den
  let r := num % den
  if 2 * r < den then q
  else if den < 2 * r then q + 1
  else q + q % 2

theorem roundHalfEven_mul_self (n : Nat) {den : Nat} (h : 0 < den) :
    roundHalfEven (n * den) den = n := by
  simp [roundHalfEven, Nat.mul_div_cancel _ h, h]

structure Fraction where
  num : Nat
  den : Nat
  deriving DecidableEq

namespace Fraction

def scaled (m base : Nat) (exponent : Int) : Fraction :=
  if 0 ≤ exponent then ⟨m * base.pow exponent.toNat, 1⟩ else ⟨m, base.pow (-exponent).toNat⟩

/-- The greatest `e` with `base ^ e` at most the value, sought upwards from `low` in a bounded
number of steps. -/
def exponentFrom (x : Fraction) (base : Nat) (low : Int) : Nat → Int
  | 0 => low
  | fuel + 1 =>
    let next := scaled 1 base (low + 1)
    if next.num * x.den ≤ x.num * next.den then x.exponentFrom base (low + 1) fuel else low

/-- The binary exponent of a positive fraction: `2 ^ e ≤ x < 2 ^ (e + 1)`. -/
def binaryExponent (x : Fraction) : Int :=
  x.exponentFrom 2 ((x.num.log2 : Int) - x.den.log2 - 1) 1

/-- The decimal exponent of a positive fraction: `10 ^ e ≤ x < 10 ^ (e + 1)`. The binary exponent
gives it within one, at 30103 decimal to 100000 binary orders. -/
def decimalExponent (x : Fraction) : Int :=
  x.exponentFrom 10 (x.binaryExponent * 30103 / 100000 - 1) 3

end Fraction

namespace Double

def leastPlace : Int := -1074

/-- The leading bit of a significand, which a normal number does not store. -/
def leadingBit : Nat := 0x10000000000000

/-- The bits of the double nearest to a fraction, ties to even; past the largest, infinity.
The significand and the place of its last bit make up the bits by one sum: a significand without
leading bit stands for a subnormal number, and one carried to the next power of two for the first
number of the next exponent. -/
def nearestBits (x : Fraction) : Nat :=
  if x.num = 0 then 0
  else
    let place := max (x.binaryExponent - 52) leastPlace
    let unit := Fraction.scaled 1 2 place
    let significand := roundHalfEven (x.num * unit.den) (x.den * unit.num)
    min ((place - leastPlace).toNat * leadingBit + significand) 0x7ff0000000000000

def nearest (negative : Bool) (x : Fraction) : Double :=
  let size : Double := ⟨UInt64.ofNat (nearestBits x)⟩
  if negative then size.neg else size

def exact (x : Double) : Fraction :=
  let field : Nat := x.magnitude.toNat / leadingBit
  let fraction : Nat := x.magnitude.toNat % leadingBit
  if field = 0 then .scaled fraction 2 leastPlace
  else .scaled (leadingBit + fraction) 2 ((field : Int) - 1 + leastPlace)

end Double

end SharedExpr
