import Styling.Text.Lowercase

/-!
# Kinds of properties

A longhand is a property that a node has a value for.  A shorthand stands for several longhands and
is spread over them when it is read.  Many longhands come in families, one for each side, corner or
extent of a box, and are named accordingly.

* `Longhand.all` and `Shorthand.all` list the kinds.
* `PropertyKind.ofName?` finds the kind of a name.
-/

namespace Styling

/-- A side of a box. -/
inductive Side
  | top
  | right
  | bottom
  | left
  deriving DecidableEq, Repr

namespace Side

/-- The sides in the order in which shorthands give them. -/
def all : List Side := [top, right, bottom, left]

/-- The name of a side. -/
def name : Side → String
  | top => "top"
  | right => "right"
  | bottom => "bottom"
  | left => "left"

end Side

/-- A corner of a box. -/
inductive Corner
  | topLeft
  | topRight
  | bottomRight
  | bottomLeft
  deriving DecidableEq, Repr

namespace Corner

/-- The corners in the order in which shorthands give them. -/
def all : List Corner := [topLeft, topRight, bottomRight, bottomLeft]

/-- The name of a corner. -/
def name : Corner → String
  | topLeft => "top-left"
  | topRight => "top-right"
  | bottomRight => "bottom-right"
  | bottomLeft => "bottom-left"

end Corner

/-- An extent of a box that can be bounded: the space at a side, the space at a side of the
children, the space between children, the width and the height. -/
inductive Extent
  | side (s : Side)
  | childSide (s : Side)
  | childBetween
  | width
  | height
  deriving DecidableEq, Repr

namespace Extent

/-- Every extent. -/
def all : List Extent :=
  Side.all.map side ++ Side.all.map childSide ++ [childBetween, width, height]

/-- The name of an extent. -/
def name : Extent → String
  | side s => s.name
  | childSide s => "child-" ++ s.name
  | childBetween => "child-between"
  | width => "width"
  | height => "height"

end Extent

/-- A property that a node has a value for. -/
inductive Longhand
  | backgroundColor
  | backgroundImage
  | borderColor (s : Side)
  | borderRadius (c : Corner)
  | borderWidth (s : Side)
  | boxShadow
  | color
  | display
  | extent (e : Extent)
  | maximum (e : Extent)
  | minimum (e : Extent)
  | flexBasis
  | fontFamily
  | fontSize
  | fontStyle
  | fontWeight
  | fontWidth
  | letterSpacing
  | wordSpacing
  | lineHeight
  | opacity
  | outlineColor
  | outlineOffset
  | outlineWidth
  | position
  | selectionBackground
  | selectionColor
  | textAlign
  | textShadow
  | transform
  | zIndex
  deriving DecidableEq, Repr

namespace Longhand

/-- Every longhand. -/
def all : List Longhand :=
  [backgroundColor, backgroundImage] ++ Side.all.map borderColor ++ Corner.all.map borderRadius ++
    Side.all.map borderWidth ++ [boxShadow, color, display] ++ Extent.all.map extent ++
    Extent.all.map maximum ++ Extent.all.map minimum ++
    [flexBasis, fontFamily, fontSize, fontStyle, fontWeight, fontWidth, letterSpacing, wordSpacing,
      lineHeight, opacity, outlineColor, outlineOffset, outlineWidth, position, selectionBackground,
      selectionColor, textAlign, textShadow, transform, zIndex]

/-- The name of a longhand. -/
def name : Longhand → String
  | backgroundColor => "background-color"
  | backgroundImage => "background-image"
  | borderColor s => "border-" ++ s.name ++ "-color"
  | borderRadius c => "border-" ++ c.name ++ "-radius"
  | borderWidth s => "border-" ++ s.name ++ "-width"
  | boxShadow => "box-shadow"
  | color => "color"
  | display => "display"
  | extent e => e.name
  | maximum e => "max-" ++ e.name
  | minimum e => "min-" ++ e.name
  | flexBasis => "flex-basis"
  | fontFamily => "font-family"
  | fontSize => "font-size"
  | fontStyle => "font-style"
  | fontWeight => "font-weight"
  | fontWidth => "font-width"
  | letterSpacing => "letter-spacing"
  | wordSpacing => "word-spacing"
  | lineHeight => "line-height"
  | opacity => "opacity"
  | outlineColor => "outline-color"
  | outlineOffset => "outline-offset"
  | outlineWidth => "outline-width"
  | position => "position"
  | selectionBackground => "selection-background"
  | selectionColor => "selection-color"
  | textAlign => "text-align"
  | textShadow => "text-shadow"
  | transform => "transform"
  | zIndex => "z-index"

/-- A change of the property can change the layout. -/
def affectsLayout : Longhand → Bool
  | backgroundColor | backgroundImage | borderColor _ | boxShadow | color | opacity | outlineColor
  | outlineOffset | outlineWidth | selectionBackground | selectionColor | textShadow | transform
  | zIndex => false
  | _ => true

/-- A fresh style takes the property from the parent and not from the default. -/
def isInherited : Longhand → Bool
  | color | fontWidth | fontSize | fontStyle | fontFamily | fontWeight | textShadow | letterSpacing
  | wordSpacing | lineHeight => true
  | _ => false

end Longhand

/-- A property that stands for several longhands. -/
inductive Shorthand
  | border
  | borderSide (s : Side)
  | borderColor
  | borderWidth
  | borderRadius
  | space
  | childSpace
  | font
  | outline
  deriving DecidableEq, Repr

namespace Shorthand

/-- Every shorthand. -/
def all : List Shorthand :=
  [border] ++ Side.all.map borderSide ++
    [borderColor, borderWidth, borderRadius, space, childSpace, font, outline]

/-- The name of a shorthand. -/
def name : Shorthand → String
  | border => "border"
  | borderSide s => "border-" ++ s.name
  | borderColor => "border-color"
  | borderWidth => "border-width"
  | borderRadius => "border-radius"
  | space => "space"
  | childSpace => "child-space"
  | font => "font"
  | outline => "outline"

/-- A change of the property can change the layout. -/
def affectsLayout : Shorthand → Bool
  | borderColor | outline => false
  | _ => true

end Shorthand

/-- A kind of property. -/
inductive PropertyKind
  | longhand (l : Longhand)
  | shorthand (s : Shorthand)
  deriving DecidableEq, Repr

namespace PropertyKind

/-- Every kind of property. -/
def all : List PropertyKind :=
  Longhand.all.map longhand ++ Shorthand.all.map shorthand

/-- The name of a kind. -/
def name : PropertyKind → String
  | longhand l => l.name
  | shorthand s => s.name

/-- A change of the property can change the layout. -/
def affectsLayout : PropertyKind → Bool
  | longhand l => l.affectsLayout
  | shorthand s => s.affectsLayout

/-- The kind stands for several longhands. -/
def isShorthand : PropertyKind → Bool
  | longhand _ => false
  | shorthand _ => true

/-- The longhand, unless the kind is a shorthand. -/
def longhand? : PropertyKind → Option Longhand
  | longhand l => some l
  | shorthand _ => none

/-- The names of all kinds. -/
def table : List (String × PropertyKind) :=
  all.map fun kind => (kind.name, kind)

/-- The kind of a name in any case. -/
def ofName? (name : String) : Option PropertyKind :=
  table.lookup (Text.lowercase name)

end PropertyKind

end Styling
