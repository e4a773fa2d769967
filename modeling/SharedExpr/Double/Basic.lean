import SharedExpr.Scalar

/-! Double-precision numbers as their 64 bits, with the arithmetic of the ten operators. -/
namespace SharedExpr

/-- A number in the binary64 format, every bit of it kept: two values that are not numbers may
still be told apart. -/
structure Double where
  bits : UInt64
  deriving DecidableEq, Hashable

namespace Double

def negative (x : Double) : Bool :=
  x.bits >>> 63 == 1

def magnitude (x : Double) : UInt64 :=
  x.bits &&& 0x7fffffffffffffff

def isNaN (x : Double) : Bool :=
  0x7ff0000000000000 < x.magnitude

def isInfinite (x : Double) : Bool :=
  x.magnitude == 0x7ff0000000000000

def isFinite (x : Double) : Bool :=
  x.magnitude < 0x7ff0000000000000

def isZero (x : Double) : Bool :=
  x.magnitude == 0

def quietBit : UInt64 := 0x0008000000000000

def isSignalling (x : Double) : Bool :=
  x.isNaN && x.bits &&& quietBit == 0

/-- What an operation makes of an operand that is not a number: its bits are kept. -/
def quiet (x : Double) : Double :=
  ⟨x.bits ||| quietBit⟩

/-- The value of an operation that has no result, such as the difference of two infinities. -/
def undefinedResult : Double := ⟨0xfff8000000000000⟩

def zero : Double := ⟨0⟩
def one : Double := ⟨0x3ff0000000000000⟩
def two : Double := ⟨0x4000000000000000⟩

/-- The other sign, also of a zero and of a value that is not a number. -/
def neg (x : Double) : Double :=
  ⟨x.bits ^^^ 0x8000000000000000⟩

/-- Equality of values: the two zeros are equal, a value that is not a number equals nothing. -/
def same (x y : Double) : Bool :=
  !x.isNaN && !y.isNaN && (x.bits == y.bits || x.isZero && y.isZero)

def ofNat (n : Nat) : Double :=
  ⟨(Float.ofNat n).toBits⟩

private def ofResult (f : Float) : Double :=
  if f.isNaN then undefinedResult else ⟨f.toBits⟩

/-- An operation on numbers; an operand that is not a number is the result. -/
def lift (f : Float → Float) (x : Double) : Double :=
  if x.isNaN then x.quiet else ofResult (f (Float.ofBits x.bits))

/-- An operation on two numbers; the first operand that is not a number is the result. -/
def lift₂ (f : Float → Float → Float) (x y : Double) : Double :=
  if x.isNaN then x.quiet
  else if y.isNaN then y.quiet
  else ofResult (f (Float.ofBits x.bits) (Float.ofBits y.bits))

/-- Any value to the power zero is one, and so is one to any power, be it not a number. A
signalling operand prevails. -/
def pow (x y : Double) : Double :=
  if y.isZero && !x.isSignalling then one
  else if x = one && !y.isSignalling then one
  else lift₂ Float.pow x y

instance : Scalar Double where
  decEq := inferInstance
  zero := zero
  one := one
  two := two
  unary
    | .neg => neg
    | .exp => lift Float.exp
    | .log => lift Float.log
    | .sin => lift Float.sin
    | .cos => lift Float.cos
  binary
    | .add => lift₂ Float.add
    | .sub => lift₂ Float.sub
    | .mul => lift₂ Float.mul
    | .div => lift₂ Float.div
    | .pow => pow
  same := same

theorem neg_neg (x : Double) : x.neg.neg = x := by
  simp only [neg, UInt64.xor_assoc, UInt64.xor_self, UInt64.xor_zero]

end Double

end SharedExpr
