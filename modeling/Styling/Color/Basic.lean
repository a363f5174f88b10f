import Styling.Number.Decimal

/-!
# Colors

A color has a red, green, blue and alpha channel; the alpha is straight.  Where a property takes a
color it also takes the keyword `currentcolor`, so the value of such a property is a `Paint`.

* `Color.toBytes` rounds the channels to eight bits.
* `Color.css` writes a color: in hexadecimal if every channel is a whole number of 255ths, otherwise
  as percentages.
-/

namespace Styling

/-- A color with straight alpha. -/
structure Color where
  red : Float
  green : Float
  blue : Float
  alpha : Float
  deriving BEq, DecidableEq, Repr

/-- A color, or the color of the text the value belongs to. -/
inductive Paint
  | current
  | color (c : Color)
  deriving BEq, DecidableEq, Repr

namespace Color

/-- Opaque black. -/
def black : Color := ⟨0.0, 0.0, 0.0, 1.0⟩

/-- Black that is fully transparent. -/
def transparent : Color := ⟨0.0, 0.0, 0.0, 0.0⟩

/-- The channels in order. -/
def channels (c : Color) : List Float :=
  [c.red, c.green, c.blue, c.alpha]

/-- The color with channels in 255ths. -/
def ofInts (red green blue alpha : Int) : Except Fault Color := do
  return ⟨← Binary64.quotient red 255, ← Binary64.quotient green 255,
    ← Binary64.quotient blue 255, ← Binary64.quotient alpha 255⟩

/-- The channels in 255ths, rounded. -/
def toBytes (c : Color) : Except Fault (List Int) :=
  c.channels.mapM fun channel => Binary64.roundInt (channel * 255.0)

/-- A channel is a whole number of 255ths. -/
def isByte (channel : Float) : Except Fault Bool := do
  let scaled := channel * 255.0
  let whole ← Binary64.roundInt scaled
  let wholeFloat ← Binary64.ofInt whole
  return Binary64.isClose scaled wholeFloat 1e-6

/-- Every channel of a list is a whole number of 255ths; channels after one that is none are not
looked at. -/
def allBytes : List Float → Except Fault Bool
  | [] => .ok true
  | channel :: rest => do
    if ← isByte channel then allBytes rest else return false

/-- A channel in hexadecimal, filled up to two characters; a sign takes one of them. -/
def hexByte (n : Int) : String :=
  let digits := Nat.toDigits 16 n.natAbs
  let sign := if n < 0 then ['-'] else []
  String.ofList (sign ++ List.replicate (2 - (sign.length + digits.length)) '0' ++ digits)

/-- A color as it stands in a style. -/
def css (c : Color) : Except Fault String := do
  if ← allBytes c.channels then
    let bytes ← c.toBytes
    let shown := if bytes[3]? = some 255 then bytes.take 3 else bytes
    return "#" ++ String.join (shown.map hexByte)
  else
    let red ← styleNumber (c.red * 100.0)
    let green ← styleNumber (c.green * 100.0)
    let blue ← styleNumber (c.blue * 100.0)
    let alpha ← styleNumber c.alpha
    return s!"rgba({red}%, {green}%, {blue}%, {alpha})"

end Color

namespace Paint

/-- A paint as it stands in a style. -/
def css : Paint → Except Fault String
  | current => .ok "currentcolor"
  | color c => c.css

/-- The color of a paint where the text has the given color. -/
def resolve (current : Color) : Paint → Color
  | .current => current
  | color c => c

/-- The color of a paint that has one of its own. -/
def color? : Paint → Option Color
  | current => none
  | color c => some c

end Paint

end Styling
