import Styling.Number.Binary64

/-!
# Decimal numbers and the shortest text of a number

A decimal is `coefficient · 10 ^ exponent`.  Reading it gives the nearest binary64 number; the
shortest decimal of a number is found by searching the decimal grids of one digit, two digits and so
on for a point next to the number that reads back as the number itself.

* `Decimal.magnitudeBits` reads a decimal.
* `Decimal.shortest` is the first decimal of the search; the exact expansion of the number, which
  always reads back, closes the search.
* `literal` is the text of a number, laid out as `Layout.plain` says.
* `fixed` is the text of a number with a given count of decimal places.
-/

namespace Styling

/-- The decimal `coefficient · 10 ^ exponent`. -/
structure Decimal where
  coefficient : Nat
  exponent : Int
  deriving DecidableEq, Repr

namespace Decimal

/-- The encoding of the number nearest to a decimal.

The first two tests only avoid large powers: a positive decimal above `10 ^ 400` is beyond the
range, and one below `10 ^ (-400)` rounds to zero. -/
def magnitudeBits (d : Decimal) : Nat :=
  if d.coefficient = 0 then 0
  else if 400 < d.exponent then Binary64.infinityBits
  else if d.exponent + d.coefficient.log2 + 1 < -400 then 0
  else
    Binary64.nearestBits (d.coefficient * Nat.pow 10 d.exponent.toNat)
      (Nat.pow 10 (-d.exponent).toNat)

/-- The exponent `p` with `10 ^ (p - 1) ≤ num / den < 10 ^ p`, both positive. -/
def pointPosition (num den : Nat) : Int :=
  let e := Binary64.log2Div num den * 30103 / 100000 + 1
  if den * Nat.pow 10 e.toNat ≤ num * Nat.pow 10 (-e).toNat then e + 1
  else if num * Nat.pow 10 (1 - e).toNat < den * Nat.pow 10 (e - 1).toNat then e - 1
  else e

/-- The decimal with the given last place next to `num / den` that reads back as `bits`; of two such
neighbours the nearer one, and the one with the even last digit if they are equally near. -/
def onGrid (num den bits : Nat) (place : Int) : Option Decimal :=
  let scaledNum := num * Nat.pow 10 (-place).toNat
  let scaledDen := den * Nat.pow 10 place.toNat
  let lower : Decimal := ⟨scaledNum / scaledDen, place⟩
  let upper : Decimal := ⟨scaledNum / scaledDen + 1, place⟩
  let twiceRest := 2 * (scaledNum % scaledDen)
  let nearUpper :=
    scaledDen < twiceRest ∨ (scaledDen = twiceRest ∧ lower.coefficient % 2 = 1)
  let lowerReads := lower.magnitudeBits = bits
  let upperReads := upper.magnitudeBits = bits
  if lowerReads ∧ (¬ upperReads ∨ ¬ nearUpper) then some lower
  else if upperReads then some upper
  else none

/-- The exact decimal expansion of `mantissa · 2 ^ exponent`. -/
def expansion (mantissa : Nat) (exponent : Int) : Decimal :=
  ⟨mantissa * Nat.pow 2 exponent.toNat * Nat.pow 5 (-exponent).toNat, min exponent 0⟩

/-- Drop the zeros at the end of the coefficient. -/
def trimZeros (d : Decimal) : Decimal :=
  if d.coefficient ≠ 0 ∧ d.coefficient % 10 = 0 then
    trimZeros ⟨d.coefficient / 10, d.exponent + 1⟩
  else d
termination_by d.coefficient
decreasing_by omega

/-- The decimal of fewest digits that reads back as the positive number `mantissa ·
2 ^ exponent`. -/
def shortest (mantissa : Nat) (exponent : Int) : Decimal :=
  let num := mantissa * Nat.pow 2 exponent.toNat
  let den := Nat.pow 2 (-exponent).toNat
  let bits := Binary64.nearestBits num den
  let point := pointPosition num den
  let found := (List.range 17).findSome? fun n => onGrid num den bits (point - (n + 1 : Nat))
  (found.getD (expansion mantissa exponent)).trimZeros

end Decimal

/-- The choices that turn the digits of a decimal into text. -/
structure Layout where
  /-- The least position of the point, relative to the first digit, that is written out. -/
  leastPoint : Int
  /-- The greatest position of the point that is written out. -/
  greatestPoint : Int
  /-- The least number of digits of an exponent. -/
  exponentDigits : Nat

namespace Layout

/-- Numbers from `0.0001` up to sixteen digits before the point are written out; others carry an
exponent of at least two digits. -/
def plain : Layout := ⟨-3, 16, 2⟩

/-- Digits with at least `count` characters. -/
def paddedDigits (count n : Nat) : List Char :=
  let ds := Nat.toDigits 10 n
  List.replicate (count - ds.length) '0' ++ ds

/-- The text of a positive decimal. -/
def render (l : Layout) (d : Decimal) : List Char :=
  let ds := Nat.toDigits 10 d.coefficient
  let point : Int := d.exponent + ds.length
  if l.leastPoint ≤ point ∧ point ≤ l.greatestPoint then
    if point ≤ 0 then ['0', '.'] ++ List.replicate (-point).toNat '0' ++ ds
    else if ds.length ≤ point.toNat then
      ds ++ List.replicate (point.toNat - ds.length) '0' ++ ['.', '0']
    else ds.take point.toNat ++ ['.'] ++ ds.drop point.toNat
  else
    let e := point - 1
    ds.take 1 ++ (if ds.length = 1 then [] else '.' :: ds.drop 1) ++
      ['e', if e < 0 then '-' else '+'] ++ paddedDigits l.exponentDigits e.natAbs

end Layout

/-- The characters of the shortest literal that reads back as a number. -/
def literalChars (x : Float) : List Char :=
  match Binary64.ofFloat x with
  | .nan => ['n', 'a', 'n']
  | .infinite negative => (if negative then ['-'] else []) ++ ['i', 'n', 'f']
  | .finite negative m e =>
    (if negative then ['-'] else []) ++
      if m = 0 then ['0', '.', '0'] else Layout.plain.render (Decimal.shortest m e)

/-- The shortest literal that reads back as a number. -/
def literal (x : Float) : String :=
  String.ofList (literalChars x)

/-- A number with a fixed count of decimal places, a tie going to the even digit. -/
def fixed (places : Nat) (x : Float) : String :=
  match Binary64.ofFloat x with
  | .nan => "nan"
  | .infinite negative => if negative then "-inf" else "inf"
  | .finite negative m e =>
    let n := roundDiv (m * Nat.pow 2 e.toNat * Nat.pow 10 places) (Nat.pow 2 (-e).toNat)
    (if negative then "-" else "") ++ toString (n / Nat.pow 10 places) ++ "." ++
      String.ofList (Layout.paddedDigits places (n % Nat.pow 10 places))

/-- A number as it stands in a style: rounded to six places, without a point if it is integral. -/
def styleNumber (x : Float) : Except Fault String := do
  let rounded := Binary64.roundPlaces 6 x
  let whole ← Binary64.truncate rounded
  let wholeFloat ← Binary64.ofInt whole
  if rounded == wholeFloat then return toString whole else return literal rounded

end Styling
