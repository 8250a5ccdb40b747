import CobolFlow.Decimal.Shortest
import CobolFlow.Json.Value

/-!
# JSON numbers as they are written

A numeral keeps the digits it was written with. Its value is exact if it is an integer that fits a
64-bit word; every other numeral is a floating-point number, made from as many leading digits as
fit such a word and a power of ten.
-/

namespace CobolFlow.Json

/-- A number as written, in digits. -/
structure Numeral where
  negative : Bool
  whole : List Char
  fraction : List Char := []
  /-- After `e`: whether the exponent is negative, and its digits. -/
  exponent : Option (Bool × List Char) := none
  /-- Whether there is a point. -/
  pointed : Bool := false
deriving DecidableEq

/-- What a numeral stands for. -/
inductive NumberValue
  | natural (n : Nat)
  /-- The negative of a positive number. -/
  | negative (n : Nat)
  | float (x : Float)
  /-- Too large for a floating-point number. -/
  | outOfRange

namespace Numeral

def digitValue (c : Char) : Nat := c.toNat - '0'.toNat

/-- Appends digits to a number while the result fits a 64-bit word. Answers with the number and
the digits left over. -/
def absorb (n : Nat) : List Char → Nat × List Char
  | [] => (n, [])
  | c :: rest =>
    let next := 10 * n + digitValue c
    if next < UInt64.size then absorb next rest else (n, c :: rest)

/-- The powers of ten that are floating-point numbers. -/
def powerOfTen (n : Nat) : Float := Float.ofScientific 1 false n

/-- `x * 10 ^ e`, unless that is too large. -/
def scale (x : Float) (e : Int) : Option Float :=
  if x == 0.0 then
    some x
  else if e < -308 then
    scale (x / powerOfTen 308) (e + 308)
  else if 308 < e then
    none
  else if e < 0 then
    some (x / powerOfTen e.natAbs)
  else
    let y := x * powerOfTen e.natAbs
    if y.isInf then none else some y
termination_by (-e).toNat

/-- The value of the exponent after `e`. -/
def exponentValue (n : Numeral) : Int :=
  match n.exponent with
  | none => 0
  | some (negative, digits) =>
    let e : Int := Nat.ofDigitChars 10 digits 0
    if negative then -e else e

def value (n : Numeral) : NumberValue :=
  let (whole, wholeRest) := absorb 0 n.whole
  let (significand, fractionRest) := absorb whole n.fraction
  let places := n.fraction.length - fractionRest.length
  let isInteger := wholeRest.isEmpty && !n.pointed && n.exponent.isNone
  if isInteger && !n.negative then
    .natural whole
  else if isInteger && 0 < whole && whole ≤ UInt64.size / 2 then
    .negative whole
  else
    match scale significand.toUInt64.toFloat (wholeRest.length - places + n.exponentValue) with
    | some x => .float (if n.negative then -x else x)
    | none => .outOfRange

end Numeral

/-- JSON numbers are written out with up to sixteen places before the point and four zeros after
it. -/
def numberStyle : Decimal.Style where
  least := -4
  greatest := 16
  positiveMark := "e+"
  negativeMark := "e-"

end CobolFlow.Json
