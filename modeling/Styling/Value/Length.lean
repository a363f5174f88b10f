import Styling.Number.Decimal

/-!
# Lengths and sizes

A length is a number of pixels or of font sizes.  A size is what layout properties take: `auto`, a
length, a percentage, or a share of the free space, written with the unit `s`.
-/

namespace Styling

/-- The units of lengths. -/
inductive LengthUnit
  | px
  | em
  deriving DecidableEq, Repr

namespace LengthUnit

/-- The spelling of a unit. -/
def text : LengthUnit → String
  | px => "px"
  | em => "em"

/-- The unit of a lowercase spelling. -/
def ofText? (s : String) : Option LengthUnit :=
  if s == "px" then some px else if s == "em" then some em else none

end LengthUnit

/-- A number of pixels or of font sizes. -/
structure Length where
  value : Float
  unit : LengthUnit
  deriving BEq, DecidableEq, Repr

namespace Length

/-- A length in pixels. -/
def px (value : Float) : Length := ⟨value, .px⟩

/-- The length zero. -/
def zero : Length := px 0.0

/-- The length lies below zero. -/
def isNegative (l : Length) : Bool := l.value < 0.0

/-- A length as it stands in a style. -/
def css (l : Length) : Except Fault String := do
  return (← styleNumber l.value) ++ l.unit.text

/-- The units that are recognized and not supported. -/
def otherUnits : List String :=
  ["rem", "ex", "rex", "ch", "rch", "ic", "lh", "rlh", "vw", "vh", "vi", "vb", "vmin", "vmax", "cm",
    "mm", "q", "in", "pt", "pc"]

end Length

/-- The extent of something in a layout. -/
inductive Size
  | auto
  | length (l : Length)
  /-- A fraction of the available extent. -/
  | percent (fraction : Float)
  /-- A share of the free extent. -/
  | stretch (factor : Float)
  deriving BEq, DecidableEq, Repr

namespace Size

/-- A size in pixels. -/
def px (value : Float) : Size := length (.px value)

/-- A size in font sizes. -/
def em (value : Float) : Size := length ⟨value, .em⟩

/-- The number of a size, zero for `auto`. -/
def value : Size → Float
  | auto => 0.0
  | length l => l.value
  | percent fraction => fraction
  | stretch factor => factor

/-- The name of the kind of size. -/
def kind : Size → String
  | auto => "auto"
  | length l => l.unit.text
  | percent _ => "percent"
  | stretch _ => "stretch"

/-- The size lies below zero; `auto` does not. -/
def isNegative (s : Size) : Bool := s.value < 0.0

/-- A size as it stands in a style. -/
def css : Size → Except Fault String
  | auto => .ok "auto"
  | length l => l.css
  | percent fraction => do return (← styleNumber (fraction * 100.0)) ++ "%"
  | stretch factor => do return (← styleNumber factor) ++ "s"

end Size

end Styling
