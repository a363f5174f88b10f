import Styling.Number.Decimal

/-!
# Values that are keywords

The direction in which children are laid out, the way a node is positioned, the alignment of text,
the sides and corners a gradient runs to, and the style and width of a font, which are a keyword or
a number.
-/

namespace Styling

/-- The direction in which children follow each other. -/
inductive Direction
  | row
  | rowReverse
  | column
  | columnReverse
  deriving DecidableEq, Repr

namespace Direction

/-- Every direction. -/
def all : List Direction := [row, rowReverse, column, columnReverse]

/-- The keyword of a direction. -/
def keyword : Direction → String
  | row => "row"
  | rowReverse => "row-reverse"
  | column => "column"
  | columnReverse => "column-reverse"

end Direction

/-- How a node is placed. -/
inductive Position
  | parentDirected
  | selfDirected
  | fixed
  deriving DecidableEq, Repr

namespace Position

/-- Every way to place a node. -/
def all : List Position := [parentDirected, selfDirected, fixed]

/-- The keyword of a way to place a node. -/
def keyword : Position → String
  | parentDirected => "parent-directed"
  | selfDirected => "self-directed"
  | fixed => "fixed"

end Position

/-- The alignment of text. -/
inductive TextAlign
  | start
  | end_
  | left
  | right
  | center
  | justify
  deriving DecidableEq, Repr

namespace TextAlign

/-- Every alignment. -/
def all : List TextAlign := [start, end_, left, right, center, justify]

/-- The keyword of an alignment. -/
def keyword : TextAlign → String
  | start => "start"
  | end_ => "end"
  | left => "left"
  | right => "right"
  | center => "center"
  | justify => "justify"

end TextAlign

/-- The side or corner a gradient runs to. -/
inductive GradientSide
  | top
  | right
  | bottom
  | left
  | topLeft
  | topRight
  | bottomLeft
  | bottomRight
  deriving DecidableEq, Repr

namespace GradientSide

/-- Every side and corner. -/
def all : List GradientSide :=
  [top, right, bottom, left, topLeft, topRight, bottomLeft, bottomRight]

/-- The words that name a side or corner. -/
def words : GradientSide → List String
  | top => ["top"]
  | right => ["right"]
  | bottom => ["bottom"]
  | left => ["left"]
  | topLeft => ["top", "left"]
  | topRight => ["top", "right"]
  | bottomLeft => ["bottom", "left"]
  | bottomRight => ["bottom", "right"]

/-- The spelling of a side or corner. -/
def keyword (s : GradientSide) : String :=
  String.intercalate " " ("to" :: s.words)

/-- The side or corner named by words in either order. -/
def ofWords? (given : List String) : Option GradientSide :=
  all.find? fun s => s.words == given || s.words == given.reverse

end GradientSide

/-- The style of a font; an oblique font may have an angle in degrees. -/
inductive FontStyle
  | normal
  | italic
  | oblique (angle : Option Float)
  deriving BEq, DecidableEq, Repr

namespace FontStyle

/-- The keyword of a font style. -/
def keyword : FontStyle → String
  | normal => "normal"
  | italic => "italic"
  | oblique _ => "oblique"

/-- The angle of an oblique font that has one. -/
def angle? : FontStyle → Option Float
  | oblique angle => angle
  | _ => none

/-- A font style as it stands in a style. -/
def css : FontStyle → Except Fault String
  | oblique (some angle) => do
    let degrees ← styleNumber angle
    return s!"oblique {degrees}deg"
  | s => .ok s.keyword

end FontStyle

/-- The keywords for the width of a font, with the fraction of the normal width. -/
def fontWidths : List (String × Float) :=
  [("ultra-condensed", 0.5), ("extra-condensed", 0.625), ("condensed", 0.75),
    ("semi-condensed", 0.875), ("normal", 1.0), ("semi-expanded", 1.125), ("expanded", 1.25),
    ("extra-expanded", 1.5), ("ultra-expanded", 2.0)]

end Styling
