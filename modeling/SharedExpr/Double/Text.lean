import SharedExpr.Double.Shortest

/-! Decimal texts of doubles: three layouts, and a reader for them. -/
namespace SharedExpr

structure Layout where
  /-- Whole numbers end in `.0`. -/
  pointAlways : Bool
  /-- The decimal exponents written without an exponent; none stands for all of them. -/
  positional : Option (Int × Int)

namespace Layout

/-- The layout of printed expressions: never an exponent, whole numbers without a point. -/
def plain : Layout := ⟨false, none⟩

/-- The layout of constants in code: a point always, an exponent below `1e-4` and from `1e16`. -/
def code : Layout := ⟨true, some (-4, 15)⟩

end Layout

namespace Decimal

def digits (d : Decimal) : List Char :=
  Nat.toDigits 10 d.coefficient

def exponent (d : Decimal) : Int :=
  d.place + d.digits.length - 1

def positional (pointAlways : Bool) (d : Decimal) : List Char :=
  let ds := d.digits
  if 0 ≤ d.place then
    ds ++ List.replicate d.place.toNat '0' ++ if pointAlways then ['.', '0'] else []
  else
    let places := (-d.place).toNat
    if places < ds.length then
      ds.take (ds.length - places) ++ '.' :: ds.drop (ds.length - places)
    else
      '0' :: '.' :: List.replicate (places - ds.length) '0' ++ ds

def scientific (d : Decimal) : List Char :=
  let ds := d.digits
  let tail := ds.drop 1
  ds.take 1 ++ (if tail.isEmpty then [] else '.' :: tail) ++ 'e' :: (toString d.exponent).toList

def render (layout : Layout) (d : Decimal) : List Char :=
  match layout.positional with
  | none => d.positional layout.pointAlways
  | some (low, high) =>
    if d.coefficient = 0 ∨ low ≤ d.exponent ∧ d.exponent ≤ high then
      d.positional layout.pointAlways
    else d.scientific

def takeDigits (cs : List Char) : List Char × List Char :=
  (cs.takeWhile Char.isDigit, cs.dropWhile Char.isDigit)

def count (ds : List Char) : Nat :=
  ds.foldl (fun n c => 10 * n + (c.toNat - '0'.toNat)) 0

def readExponent? : List Char → Option Int
  | [] => some 0
  | 'e' :: '-' :: cs => if cs ≠ [] ∧ cs.all Char.isDigit then some (-(count cs : Int)) else none
  | 'e' :: cs => if cs ≠ [] ∧ cs.all Char.isDigit then some (count cs) else none
  | _ => none

/-- Reads digits, an optional point with digits behind it, and an optional exponent. -/
def read? (cs : List Char) : Option Decimal :=
  let (whole, rest) := takeDigits cs
  let (places, rest) :=
    match rest with
    | '.' :: rest => takeDigits rest
    | _ => ([], rest)
  if whole = [] then none
  else (readExponent? rest).map fun e => ⟨count (whole ++ places), e - places.length⟩

end Decimal

namespace Double

def render (layout : Layout) (x : Double) : String :=
  if x.isNaN then "NaN"
  else
    let sign := if x.negative then ['-'] else []
    String.ofList (sign ++ if x.isInfinite then ['i', 'n', 'f'] else x.shortest.render layout)

def read? (text : String) : Option Double :=
  match text.toList with
  | '-' :: cs => (Decimal.read? cs).map fun d => nearest true d.value
  | cs => (Decimal.read? cs).map fun d => nearest false d.value

/-- Three places, the exact value rounded half to even; the sign of a zero is kept. -/
def places (x : Double) : String :=
  if x.isNaN then "NaN"
  else if x.isInfinite then x.render .plain
  else
    let thousandths := roundHalfEven (x.exact.num * 1000) x.exact.den
    let tail := Nat.toDigits 10 (1000 + thousandths % 1000)
    let sign := if x.negative then "-" else ""
    s!"{sign}{thousandths / 1000}." ++ String.ofList (tail.drop 1)

def hexDigits (bits : UInt64) : List Char :=
  let ds := (Nat.toDigits 16 bits.toNat).map Char.toUpper
  List.replicate (16 - ds.length) '0' ++ ds

/-- The text of a constant in code, which reads back as the same bits. A decimal is read as a
number only if it has a point, so every other value is written as its bit pattern. -/
def constant (x : Double) : String :=
  let text := x.render .code
  if x.isFinite ∧ text.toList.contains '.' ∧ read? text = some x then text
  else "0x" ++ String.ofList (hexDigits x.bits)

instance : ScalarText Double where
  plain := render .plain
  places := places
  constant := constant

end Double

end SharedExpr
