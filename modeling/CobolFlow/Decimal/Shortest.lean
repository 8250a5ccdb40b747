/-!
# The shortest decimal of a binary number

A binary floating-point number stands for every real that rounds to it. Among the decimals in that
interval this module finds one with the fewest digits, and of those the one nearest to the number
itself.

On the grid of decimals with a given last place it is enough to look at the two neighbours of the
number: if any point of the grid lies in the interval, one of these does.

## Main definitions

* `Binary64.ofFloat` — sign, significand and exponent of a finite number
* `Binary64.shortest` — the digits and the exponent of ten of its shortest decimal
* `Style`, `Style.render` — how a decimal is laid out
-/

namespace CobolFlow.Decimal

/-- A finite number `± significand * 2 ^ exponent`. -/
structure Binary64 where
  negative : Bool
  significand : Nat
  exponent : Int
  /-- The number below is only half as far away as the number above. -/
  narrowBelow : Bool
deriving DecidableEq

/-- A decimal `digits * 10 ^ exponent`. -/
structure Digits where
  digits : Nat
  exponent : Int
deriving DecidableEq

namespace Binary64

/-- The parts of a finite number, read off its bits. -/
def ofBits (bits : Nat) : Binary64 :=
  let fraction := bits % Nat.pow 2 52
  let biased := bits / Nat.pow 2 52 % Nat.pow 2 11
  { negative := Nat.pow 2 63 ≤ bits
    significand := if biased = 0 then fraction else fraction + Nat.pow 2 52
    exponent := ((if biased = 0 then 1 else biased : Nat) : Int) - 1075
    narrowBelow := fraction = 0 && 1 < biased }

def ofFloat (x : Float) : Binary64 := ofBits x.toBits.toNat

/-- The magnitude in quarters of its last place, as a fraction. -/
def quarters (b : Binary64) (count : Nat) : Nat × Nat :=
  let q := b.exponent - 2
  (count * Nat.pow 2 q.toNat, Nat.pow 2 (-q).toNat)

/-- Compares a fraction with `n * 10 ^ e`. -/
def compareScaled (num den : Nat) (n : Nat) (e : Int) : Ordering :=
  compare (num * Nat.pow 10 (-e).toNat) (n * Nat.pow 10 e.toNat * den)

/-- The largest `k` with `10 ^ k` not above a positive fraction. -/
def leadingPlace (num den : Nat) : Int :=
  if den ≤ num then
    ((Nat.toDigits 10 (num / den)).length : Int) - 1
  else
    -((if (den - 1) / num = 0 then 0 else (Nat.toDigits 10 ((den - 1) / num)).length : Nat) : Int)

/-- Whether `n * 10 ^ e` rounds to the number. The ends of the interval do if the significand is
even. -/
def roundsTo (b : Binary64) (n : Nat) (e : Int) : Bool :=
  let m := 4 * b.significand
  let (lowNum, lowDen) := b.quarters (m - if b.narrowBelow then 1 else 2)
  let (highNum, highDen) := b.quarters (m + 2)
  let even := b.significand % 2 = 0
  let low := compareScaled lowNum lowDen n e
  let high := compareScaled highNum highDen n e
  (low == .lt || even && low == .eq) && (high == .gt || even && high == .eq)

/-- The decimal with last place `e` that rounds to the number and is nearest to it, if one does. A
tie goes to the even digit. -/
def onGrid? (b : Binary64) (e : Int) : Option Digits :=
  let (num, den) := b.quarters (4 * b.significand)
  let scaledNum := num * Nat.pow 10 (-e).toNat
  let scaledDen := den * Nat.pow 10 e.toNat
  let below := scaledNum / scaledDen
  let twice := 2 * (scaledNum % scaledDen)
  match b.roundsTo below e, b.roundsTo (below + 1) e with
  | true, true =>
    let nearerBelow := twice < scaledDen || (twice = scaledDen && below % 2 = 0)
    some ⟨if nearerBelow then below else below + 1, e⟩
  | true, false => some ⟨below, e⟩
  | false, true => some ⟨below + 1, e⟩
  | false, false => none

/-- The decimal without the zeros at its end. -/
def trim : Nat → Digits → Digits
  | 0, d => d
  | n + 1, d => if d.digits % 10 = 0 then trim n ⟨d.digits / 10, d.exponent + 1⟩ else d

/-- The shortest decimal of a number; zero has the one digit `0`. Seventeen digits are always
enough. -/
def shortest (b : Binary64) : Digits :=
  if b.significand = 0 then
    ⟨0, 0⟩
  else
    let (num, den) := b.quarters (4 * b.significand)
    let top := leadingPlace num den
    let found := (List.range 17).findSome? fun (n : Nat) => b.onGrid? (top - n)
    trim 17 (found.getD ⟨0, 0⟩)

end Binary64

/-- How decimals are laid out. -/
structure Style where
  /-- The point stands among or right after the digits if it follows at least this many places... -/
  least : Int
  /-- ...and at most this many. -/
  greatest : Int
  /-- Written between the digits and a positive exponent of ten. -/
  positiveMark : String
  /-- Written between the digits and a negative exponent of ten. -/
  negativeMark : String

/-- The digits with a point after the given number of places. -/
def positional (digits : String) (point : Int) : String :=
  let n : Int := digits.length
  if n ≤ point then
    digits ++ String.ofList (List.replicate (point - n).toNat '0') ++ ".0"
  else if 0 < point then
    String.ofList (digits.toList.take point.toNat) ++ "." ++
      String.ofList (digits.toList.drop point.toNat)
  else
    "0." ++ String.ofList (List.replicate (-point).toNat '0') ++ digits

/-- The digits with a point after the first, and an exponent of ten. -/
def scientific (style : Style) (digits : String) (exponent : Int) : String :=
  let mantissa :=
    match digits.toList with
    | first :: second :: rest => String.ofList (first :: '.' :: second :: rest)
    | _ => digits
  mantissa ++ (if exponent < 0 then style.negativeMark else style.positiveMark) ++
    toString exponent.natAbs

/-- The text of a finite number in its fewest digits. -/
def Style.render (style : Style) (x : Float) : String :=
  let b := Binary64.ofFloat x
  let d := b.shortest
  let digits := toString d.digits
  let point := digits.length + d.exponent
  (if b.negative then "-" else "") ++
    if style.least ≤ point && point ≤ style.greatest || b.significand = 0 then
      positional digits point
    else
      scientific style digits (point - 1)

end CobolFlow.Decimal
