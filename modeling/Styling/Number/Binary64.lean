import Styling.Number.Fault

/-!
# Binary64 numbers as exact values

A finite binary64 number is `± mantissa · 2 ^ exponent` with a natural mantissa, so rounding,
remainders and the text of a number can be computed in exact arithmetic and brought back at the end.

* `Binary64.ofFloat` takes a number apart.
* `nearestBits num den` is the encoding of the number nearest to the quotient `num / den`; a tie
  goes to the even mantissa, and a quotient beyond the range becomes infinity.
* Everything else is one exact step followed by `ofRatio`: `roundPlaces` (decimal places),
  `remainder` (the remainder that is never negative), `ofInt` and `quotient` (integers, which must
  not become infinite), `truncate` and `roundInt` (numbers to integers).
-/

namespace Styling

/-- The exact value of a binary64 number. -/
inductive Binary64
  | nan
  | infinite (negative : Bool)
  | finite (negative : Bool) (mantissa : Nat) (exponent : Int)
  deriving DecidableEq, Repr

/-- The quotient rounded to the nearest natural number, a half to the even neighbour. -/
def roundDiv (num den : Nat) : Nat :=
  let q := num / den
  let r := num % den
  if 2 * r < den then q else if den < 2 * r then q + 1 else q + q % 2

namespace Binary64

/-- Take the encoding of a number apart. -/
def ofBits (bits : Nat) : Binary64 :=
  let negative := decide (Nat.pow 2 63 ≤ bits)
  let exponent : Nat := bits / Nat.pow 2 52 % 2048
  let fraction : Nat := bits % Nat.pow 2 52
  if exponent = 2047 then
    if fraction = 0 then .infinite negative else .nan
  else if exponent = 0 then .finite negative fraction (-1074)
  else .finite negative (fraction + Nat.pow 2 52) ((exponent : Int) - 1075)

/-- The exact value of a number. -/
def ofFloat (x : Float) : Binary64 :=
  ofBits x.toBits.toNat

/-- The encoding of positive infinity. -/
def infinityBits : Nat := 2047 * Nat.pow 2 52

/-- The exponent of the greatest power of two that is at most `num / den`, both positive. -/
def log2Div (num den : Nat) : Int :=
  let e : Int := (num.log2 : Int) - den.log2
  if den * Nat.pow 2 e.toNat ≤ num * Nat.pow 2 (-e).toNat then e else e - 1

/-- The encoding of the number nearest to `num / den`, a tie going to the even mantissa.

With the exponent `q` of the last place, the mantissa `m` is a natural number of at most 53 bits,
and the sum below is right also when rounding carried into a new bit and when the number is
subnormal. -/
def nearestBits (num den : Nat) : Nat :=
  if num = 0 then 0
  else
    let q := max (log2Div num den - 52) (-1074)
    let m := roundDiv (num * Nat.pow 2 (-q).toNat) (den * Nat.pow 2 q.toNat)
    min ((q + 1074).toNat * Nat.pow 2 52 + m) infinityBits

/-- The number with a sign and the encoding of its magnitude. -/
def ofSignedBits (negative : Bool) (bits : Nat) : Float :=
  Float.ofBits (UInt64.ofNat (bits + if negative then Nat.pow 2 63 else 0))

/-- The number nearest to `± num / den`. -/
def ofRatio (negative : Bool) (num den : Nat) : Float :=
  ofSignedBits negative (nearestBits num den)

/-- The number nearest to the quotient of an integer, which must lie in the range. -/
def quotient (n : Int) (den : Nat) : Except Fault Float :=
  if nearestBits n.natAbs den = infinityBits then .error .overflow
  else .ok (ofRatio (n < 0) n.natAbs den)

/-- The number nearest to an integer, which must lie in the range. -/
def ofInt (n : Int) : Except Fault Float :=
  quotient n 1

/-- A finite number rounded to an integer by rounding the quotient of its magnitude. -/
def toIntBy (round : Nat → Nat → Nat) (x : Float) : Except Fault Int :=
  match ofFloat x with
  | .nan => .error .domain
  | .infinite _ => .error .overflow
  | .finite negative m e =>
    let n : Int := round (m * Nat.pow 2 e.toNat) (Nat.pow 2 (-e).toNat)
    .ok (if negative then -n else n)

/-- The integer part of a finite number. -/
def truncate (x : Float) : Except Fault Int :=
  toIntBy (· / ·) x

/-- The integer nearest to a finite number, a half going to the even neighbour. -/
def roundInt (x : Float) : Except Fault Int :=
  toIntBy roundDiv x

/-- A number rounded to decimal places, a tie going to the even digit. -/
def roundPlaces (places : Nat) (x : Float) : Float :=
  match ofFloat x with
  | .finite negative m e =>
    let num := m * Nat.pow 2 e.toNat * Nat.pow 10 places
    ofRatio negative (roundDiv num (Nat.pow 2 (-e).toNat)) (Nat.pow 10 places)
  | _ => x

/-- The remainder of a number by a positive period, moved up into the period if it is negative. -/
def remainder (x : Float) (period : Nat) : Float :=
  match ofFloat x with
  | .finite negative m e =>
    let den := Nat.pow 2 (-e).toNat
    let r := m * Nat.pow 2 e.toNat % (period * den)
    if r = 0 then 0.0
    else if negative then ofRatio true r den + ofRatio false period 1
    else ofRatio false r den
  | _ => 0.0 / 0.0

/-- Whether two numbers agree up to a relative difference of `1e-9` or an absolute one. -/
def isClose (x y tolerance : Float) : Bool :=
  if x == y then true
  else if x.isInf || y.isInf then false
  else
    let d := (y - x).abs
    d ≤ (1e-9 * y).abs || d ≤ (1e-9 * x).abs || d ≤ tolerance

end Binary64

/-- The first number unless the second is greater. -/
def larger {α : Type} [LT α] [DecidableLT α] (a b : α) : α :=
  if a < b then b else a

/-- The first number unless the second is smaller. -/
def smaller {α : Type} [LT α] [DecidableLT α] (a b : α) : α :=
  if b < a then b else a

/-- A number moved into the closed interval from `low` to `high`. -/
def clamp {α : Type} [LT α] [DecidableLT α] (low high a : α) : α :=
  smaller (larger a low) high

end Styling
