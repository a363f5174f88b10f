import Styling.Color.Written
import Styling.Value.Basic
import Styling.Value.Cursor

/-!
# Values of a single component

Most values are written as one component: a length, a size, an angle, a color, a number or a
keyword.  Each such grammar is a `Leaf`, a function of the component, so a grammar that takes
several of them can be understood component by component.
-/

namespace Styling.Grammar

/-- The number of a written number as a result of reading. -/
def float (n : Numeral) : Except ReadError Float :=
  ReadError.ofFault n.toFloat

/-- Refuse a dimension in a unit that does not fit: as unsupported if the unit is recognized. -/
def wrongUnit {α : Type} (unit : String) : Leaf α := fun source c =>
  if Length.otherUnits.contains unit then Leaf.unsupported source c else Leaf.unexpected source c

/-- A number of pixels or font sizes, or a bare zero. -/
def length : Leaf Length := fun source c =>
  match c with
  | .token ⟨.dimension n unit, _⟩ =>
    match LengthUnit.ofText? (Text.lowercase unit) with
    | some u => do return ⟨← float n, u⟩
    | none => wrongUnit (Text.lowercase unit) source c
  | .token ⟨.number n, _⟩ => if n.quantity.isZero then .ok .zero else Leaf.unexpected source c
  | _ => Leaf.unexpected source c

/-- A length that is not negative. -/
def positiveLength : Leaf Length := fun source c => do
  let l ← length source c
  if l.isNegative then Leaf.refuse .negativeLength source c else return l

/-- A length, a percentage, `auto`, or a share of the free extent: a number with the unit `s` or
without one. -/
def size : Leaf Size := fun source c =>
  match c with
  | .token ⟨.number n, _⟩ =>
    if n.quantity.isZero then .ok (.px 0.0) else do return .stretch (← float n)
  | .token ⟨.dimension n unit, _⟩ =>
    let u := Text.lowercase unit
    if u == "s" then do return .stretch (← float n)
    else
      match LengthUnit.ofText? u with
      | some u => do return .length ⟨← float n, u⟩
      | none => wrongUnit u source c
  | .token ⟨.percentage n, _⟩ => do
    return .percent (← ReadError.ofFault n.quantity.hundredth)
  | _ => if c.isKeyword "auto" then .ok .auto else Leaf.unexpected source c

/-- A size that is not negative. -/
def positiveSize : Leaf Size := fun source c => do
  let s ← size source c
  if s.isNegative then Leaf.refuse .negativeValue source c else return s

/-- The units of angles with their lengths in radians. -/
def angleUnits : List (String × Float) :=
  [("rad", 1.0), ("deg", Elementary.pi / 180.0), ("grad", Elementary.pi / 200.0),
    ("turn", Elementary.tau)]

/-- An angle in radians; a bare zero needs no unit. -/
def angle : Leaf Float := fun source c =>
  match c with
  | .token ⟨.number n, _⟩ => if n.quantity.isZero then .ok 0.0 else Leaf.unexpected source c
  | .token ⟨.dimension n unit, _⟩ =>
    match angleUnits.lookup (Text.lowercase unit) with
    | some scale => do return (← float n) * scale
    | none => Leaf.unsupported source c
  | _ => Leaf.unexpected source c

/-- A component that may be a color: an identifier, a hash sign with a name, or a call. -/
def mayBePaint : Component → Bool
  | .token ⟨.ident _, _⟩ | .token ⟨.hash _ _, _⟩ | .group (.function _) _ _ _ => true
  | _ => false

/-- A color or `currentcolor`.  The text of the component is read anew, since a color has tokens of
its own. -/
def paint : Leaf Paint := fun source c => do
  Leaf.noNestedVar source c
  if mayBePaint c then
    match ← ReadError.ofFault (Paint.ofText (source.textOf c)) with
    | some p => return p
    | none => Leaf.unexpected source c
  else Leaf.unexpected source c

/-- An integer. -/
def integer : Leaf Int := fun source c =>
  match c with
  | .token ⟨.number ⟨_, .integer n⟩, _⟩ => .ok n
  | _ => Leaf.unexpected source c

/-- A number or percentage moved into the unit interval. -/
def opacity : Leaf Float := fun source c =>
  match c with
  | .token ⟨.percentage n, _⟩ => do
    return clamp 0.0 1.0 (← ReadError.ofFault n.quantity.hundredth)
  | .token ⟨.number n, _⟩ => do return clamp 0.0 1.0 (← float n)
  | _ => Leaf.unexpected source c

/-- One of some keywords, each with its meaning. -/
def keyword {α : Type} (table : List (String × α)) : Leaf α := fun source c =>
  match c with
  | .token ⟨.ident name, _⟩ =>
    match table.lookup (Text.lowercase name) with
    | some a => .ok a
    | none => Leaf.unexpected source c
  | _ => Leaf.unexpected source c

/-- A direction of layout, or `none`. -/
def display : Leaf (Option Direction) :=
  keyword (("none", none) :: Direction.all.map fun d => (d.keyword, some d))

/-- A way to place a node. -/
def position : Leaf Position :=
  keyword (Position.all.map fun p => (p.keyword, p))

/-- An alignment of text. -/
def textAlign : Leaf TextAlign :=
  keyword (TextAlign.all.map fun a => (a.keyword, a))

/-- A number, or a number of pixels. -/
def fontSize : Leaf Float := fun source c => do
  let value ← match c with
    | .token ⟨.number n, _⟩ => float n
    | .token ⟨.dimension n unit, _⟩ =>
      if Text.lowercase unit == "px" then float n else Leaf.unsupported source c
    | _ => Leaf.unexpected source c
  if value < 0.0 then Leaf.refuse .negativeFontSize source c else return value

/-- `normal`, `bold`, or a number moved between 1 and 1000. -/
def fontWeight : Leaf Float := fun source c =>
  match c with
  | .token ⟨.ident name, _⟩ =>
    let word := Text.lowercase name
    if word == "normal" then .ok 400.0
    else if word == "bold" then .ok 700.0
    else if word == "bolder" || word == "lighter" then Leaf.unsupported source c
    else Leaf.unexpected source c
  | .token ⟨.number n, _⟩ => do return clamp 1.0 1000.0 (← float n)
  | _ => Leaf.unexpected source c

/-- A keyword for a font width, or a percentage that is not negative, as a fraction. -/
def fontWidth : Leaf Float := fun source c =>
  match c with
  | .token ⟨.percentage n, _⟩ =>
    if n.quantity.isNegative then Leaf.refuse .negativeFontWidth source c
    else ReadError.ofFault n.quantity.hundredth
  | _ => keyword fontWidths source c

/-- The keywords for the width of a line. -/
def lineWidths : List (String × Float) := [("thin", 2.0), ("medium", 4.0), ("thick", 6.0)]

/-- The width of a line: a keyword or a length that is not negative. -/
def lineWidth : Leaf Length := fun source c =>
  match c with
  | .token ⟨.ident _, _⟩ => do return .px (← keyword lineWidths source c)
  | _ => positiveLength source c

/-- A distance in pixels, or a bare zero. -/
def distance : Leaf Float := fun source c =>
  match c with
  | .token ⟨.number n, _⟩ => if n.quantity.isZero then .ok 0.0 else Leaf.unexpected source c
  | .token ⟨.dimension n unit, _⟩ =>
    if Text.lowercase unit == "px" then float n else Leaf.unsupported source c
  | .token ⟨.percentage _, _⟩ => Leaf.unsupported source c
  | _ => Leaf.unexpected source c

end Styling.Grammar
