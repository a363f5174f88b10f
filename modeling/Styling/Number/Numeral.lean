import Styling.Number.Decimal

/-!
# Written numbers

A numeral is an optional sign, digits, an optional fraction and an optional exponent:
`[+-]? ([0-9]* .)? [0-9]+ ([eE] [+-]? [0-9]+)?`.  Without fraction and exponent it is an integer of
any size, otherwise a decimal that is rounded to binary64.

* `NumeralParts.scan` splits the longest numeral off a text whose start is known to be one.
* `Numeral` keeps the written text next to its value, since both are shown.
-/

namespace Styling

/-- An ASCII digit. -/
def isDigit (c : Char) : Bool :=
  '0' ≤ c && c ≤ '9'

/-- The value of a digit in a base up to sixteen. -/
def digitValue (c : Char) : Nat :=
  if isDigit c then c.toNat - '0'.toNat
  else if 'a' ≤ c && c ≤ 'f' then c.toNat - 'a'.toNat + 10
  else if 'A' ≤ c && c ≤ 'F' then c.toNat - 'A'.toNat + 10
  else 0

/-- The natural number written by digits of a base. -/
def digitsValue (base : Nat) (ds : List Char) : Nat :=
  ds.foldl (fun n d => n * base + digitValue d) 0

/-- The parts of a written number.  The fraction holds its point and the exponent its mark, so the
parts together are the written text. -/
structure NumeralParts where
  sign : List Char
  whole : List Char
  fraction : List Char
  exponent : List Char
  deriving DecidableEq, Repr

namespace NumeralParts

/-- A sign at the start of a text. -/
def scanSign : List Char → List Char
  | c :: _ => if c = '+' ∨ c = '-' then [c] else []
  | [] => []

/-- A point followed by digits at the start of a text. -/
def scanFraction : List Char → List Char
  | '.' :: cs => if (cs.takeWhile isDigit).isEmpty then [] else '.' :: cs.takeWhile isDigit
  | _ => []

/-- An exponent at the start of a text. -/
def scanExponent : List Char → List Char
  | c :: cs =>
    let sign := scanSign cs
    let digits := (cs.drop sign.length).takeWhile isDigit
    if (c = 'e' ∨ c = 'E') ∧ ¬ digits.isEmpty then c :: (sign ++ digits) else []
  | [] => []

/-- The longest numeral at the start of a text. -/
def scan (cs : List Char) : NumeralParts :=
  let sign := scanSign cs
  let afterSign := cs.drop sign.length
  let whole := afterSign.takeWhile isDigit
  let afterWhole := afterSign.drop whole.length
  let fraction := scanFraction afterWhole
  ⟨sign, whole, fraction, scanExponent (afterWhole.drop fraction.length)⟩

/-- The written text. -/
def chars (p : NumeralParts) : List Char :=
  p.sign ++ p.whole ++ p.fraction ++ p.exponent

/-- Neither fraction nor exponent is written. -/
def isInteger (p : NumeralParts) : Bool :=
  p.fraction.isEmpty && p.exponent.isEmpty

/-- A minus sign is written. -/
def isNegative (p : NumeralParts) : Bool :=
  p.sign == ['-']

/-- The integer written by the digits before the point. -/
def integerValue (p : NumeralParts) : Int :=
  let n : Int := digitsValue 10 p.whole
  if p.isNegative then -n else n

/-- The written exponent, zero if there is none. -/
def exponentValue (p : NumeralParts) : Int :=
  match p.exponent with
  | [] => 0
  | _ :: cs =>
    let sign := scanSign cs
    let n : Int := digitsValue 10 (cs.drop sign.length)
    if sign = ['-'] then -n else n

/-- The magnitude as a decimal. -/
def decimal (p : NumeralParts) : Decimal :=
  let places := p.fraction.drop 1
  ⟨digitsValue 10 (p.whole ++ places), p.exponentValue - places.length⟩

/-- The nearest binary64 number. -/
def decimalValue (p : NumeralParts) : Float :=
  Binary64.ofSignedBits p.isNegative p.decimal.magnitudeBits

end NumeralParts

/-- The value of a written number. -/
inductive Quantity
  | integer (n : Int)
  | decimal (x : Float)
  deriving Repr

namespace Quantity

/-- The value of the parts of a numeral. -/
def ofParts (p : NumeralParts) : Quantity :=
  if p.isInteger then .integer p.integerValue else .decimal p.decimalValue

/-- The quantity is an integer. -/
def isInteger : Quantity → Bool
  | .integer _ => true
  | .decimal _ => false

/-- The quantity equals zero. -/
def isZero : Quantity → Bool
  | .integer n => n == 0
  | .decimal x => x == 0.0

/-- The quantity lies below zero. -/
def isNegative : Quantity → Bool
  | .integer n => n < 0
  | .decimal x => x < 0.0

/-- The nearest binary64 number. -/
def toFloat : Quantity → Except Fault Float
  | .integer n => Binary64.ofInt n
  | .decimal x => .ok x

/-- The hundredth part. -/
def hundredth : Quantity → Except Fault Float
  | .integer n => Binary64.quotient n 100
  | .decimal x => .ok (x / 100.0)

end Quantity

/-- A written number and its value. -/
structure Numeral where
  raw : String
  quantity : Quantity
  deriving Repr

namespace Numeral

/-- The numeral with the given parts. -/
def ofParts (p : NumeralParts) : Numeral :=
  ⟨String.ofList p.chars, .ofParts p⟩

/-- The greatest number of digits an integer may be written with. -/
def digitLimit : Nat := 4300

/-- The numeral is an integer of more digits than are accepted; the sign does not count. -/
def isOversized (n : Numeral) : Bool :=
  n.quantity.isInteger && digitLimit < (n.raw.toList.filter isDigit).length

/-- The nearest binary64 number. -/
def toFloat (n : Numeral) : Except Fault Float :=
  n.quantity.toFloat

end Numeral

end Styling
