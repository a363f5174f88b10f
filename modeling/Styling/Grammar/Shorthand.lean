import Styling.Grammar.Font
import Styling.Property.Basic

/-!
# Shorthands

A shorthand is read as a whole and spread over its longhands.  `initial` and `inherit`, standing
alone, are given to every longhand.

* `Shorthand.longhands` lists what a shorthand covers.
* `quad` reads one to four values and completes them to four, for top, right, bottom and left.
* `stroke` reads a color, a width and the style `solid` in any order.
* `font` reads the parts of a font.
-/

namespace Styling

namespace Shorthand

/-- The longhands for the colors of a border. -/
def borderColors : List Longhand := Side.all.map .borderColor

/-- The longhands for the widths of a border. -/
def borderWidths : List Longhand := Side.all.map .borderWidth

/-- The longhands a shorthand covers, in the order in which it gives them. -/
def longhands : Shorthand → List Longhand
  | border => borderColors ++ borderWidths
  | borderSide s => [.borderColor s, .borderWidth s]
  | borderColor => borderColors
  | borderWidth => borderWidths
  | borderRadius => Corner.all.map .borderRadius
  | space => Side.all.map fun s => .extent (.side s)
  | childSpace => Side.all.map fun s => .extent (.childSide s)
  | font => [.fontFamily, .fontStyle, .fontWeight, .fontWidth, .fontSize, .lineHeight]
  | outline => [.outlineColor, .outlineWidth]

end Shorthand

namespace Grammar

/-- The same declaration for several longhands. -/
def fanOut (ls : List Longhand) (value : PropertyValue) : List Property :=
  ls.map fun l => .longhand l value

/-- The declarations of a lone `initial` or `inherit`, if that is what remains. -/
def wideKeyword (ls : List Longhand) : Reader (Option (List Property)) := do
  if ← Reader.isKeywordExhausted "initial" then return some (fanOut ls .initial)
  if ← Reader.isKeywordExhausted "inherit" then return some (fanOut ls .inherit)
  return none

/-- Values for top, right, bottom and left completed from one to four values. -/
structure Quad (α : Type) where
  top : α
  right : α
  bottom : α
  left : α
  deriving DecidableEq, Repr

namespace Quad

/-- The four values in order. -/
def toList {α : Type} (q : Quad α) : List α := [q.top, q.right, q.bottom, q.left]

end Quad

/-- One to four values: a missing right is the top, a missing bottom the top, a missing left the
right. -/
def quad {α : Type} (leaf : Leaf α) : Reader (Quad α) := do
  let first ← Reader.leaf leaf
  if ← Reader.ask Cursor.isExhausted then return ⟨first, first, first, first⟩
  let second ← Reader.leaf leaf
  if ← Reader.ask Cursor.isExhausted then return ⟨first, second, first, second⟩
  let third ← Reader.leaf leaf
  if ← Reader.ask Cursor.isExhausted then return ⟨first, second, third, second⟩
  let fourth ← Reader.leaf leaf
  Reader.expectExhausted
  return ⟨first, second, third, fourth⟩

/-- A shorthand of four longhands with values of one sort. -/
def quadShorthand {α : Type} (ls : List Longhand) (leaf : Leaf α) (value : α → Value) :
    Reader (List Property) := do
  match ← wideKeyword ls with
  | some properties => return properties
  | none =>
    let q ← quad leaf
    return ls.zipWith (fun l a => .longhand l (.exact (value a))) q.toList

/-- The styles of lines that are recognized and not supported. -/
def lineStyles : List String := ["dotted", "dashed", "double", "groove", "ridge", "inset", "outset"]

/-- What was read of a line: its declarations so far, and which parts were given. -/
structure StrokeState where
  properties : List Property
  hasColor : Bool
  hasWidth : Bool
  hasStyle : Bool

namespace StrokeState

/-- Nothing read. -/
def start : StrokeState := ⟨[], false, false, false⟩

/-- Read a component that is neither a color nor a width. -/
def stepStyle (source : Source) (s : StrokeState) : Component → Except StepError StrokeState
  | .token ⟨.ident name, span⟩ =>
    let word := Text.lowercase name
    if lineStyles.contains word then
      .error (.here (.unsupported (.borderStyle word) (source.location span.start)))
    else if word == "solid" && !s.hasStyle then .ok { s with hasStyle := true }
    else StepError.ofLeaf (Leaf.unexpected source (.token ⟨.ident name, span⟩))
  | c => StepError.ofLeaf (Leaf.unexpected source c)

/-- Read a component of a line. -/
def step (source : Source) (colors widths : List Longhand) (s : StrokeState) (c : Component) :
    Except StepError StrokeState := do
  StepError.ofLeaf (Leaf.noVar source c)
  match ← StepError.ofLeaf (Reader.attempted (paint source c)) with
  | some p =>
    if s.hasColor then throw (.following .colorTwice)
    return { s with
      properties := s.properties ++ fanOut colors (.exact (.paint p)), hasColor := true }
  | none =>
    match ← StepError.ofLeaf (Reader.attempted (lineWidth source c)) with
    | some l =>
      if s.hasWidth then throw (.following .widthTwice)
      return { s with
        properties := s.properties ++ fanOut widths (.exact (.length l)), hasWidth := true }
    | none => stepStyle source s c

end StrokeState

/-- At most one color, one width and the style `solid`, in any order. -/
def stroke (colors widths : List Longhand) : Reader (List Property) := do
  let source ← Reader.source
  let state ← Reader.foldAll (StrokeState.step source colors widths) .start
  return state.properties

/-- A shorthand for a line. -/
def strokeShorthand (colors widths : List Longhand) : Reader (List Property) := do
  match ← wideKeyword (colors ++ widths) with
  | some properties => return properties
  | none => stroke colors widths

/-- The optional parts at the start of a font. -/
structure FontParts where
  style : Option FontStyle
  weight : Option Float
  width : Option Float

/-- Read one more part at the start of a font that has not been read yet, if one follows. -/
def fontPart (p : FontParts) : Reader (Option FontParts) := do
  if p.style.isNone then
    if let some style ← Reader.attempt (fontStyle false) then
      return some { p with style := some style }
  if p.weight.isNone then
    if let some weight ← Reader.attempt (Reader.leaf fontWeight) then
      return some { p with weight := some weight }
  if p.width.isNone then
    if let some width ← Reader.attempt (Reader.leaf fontWidth) then
      return some { p with width := some width }
  return none

/-- Read up to `count` parts at the start of a font. -/
def fontParts (p : FontParts) : Nat → Reader FontParts
  | 0 => return p
  | count + 1 => do
    match ← fontPart p with
    | some more => fontParts more count
    | none => return p

/-- The line height after a slash, if there is one; `normal` is the default. -/
def fontLineHeight : Reader PropertyValue := do
  match ← Reader.ask Cursor.peek with
  | some c =>
    if c.isTokenOf (·.isDelim "/") then
      let _ ← Reader.next
      if (← Reader.tryKeyword ["normal"]).isSome then return .initial
      return .exact (.size (← Reader.leaf size))
    else return .initial
  | none => return .initial

/-- What is declared for a part that may be missing. -/
def exactOrInitial {α : Type} (value : α → Value) : Option α → PropertyValue
  | some a => .exact (value a)
  | none => .initial

/-- Style, weight and width in any order, the size, an optional line height and the families. -/
def fontShorthand : Reader (List Property) := do
  match ← wideKeyword (Shorthand.longhands .font) with
  | some properties => return properties
  | none =>
    let parts ← fontParts ⟨none, none, none⟩ 3
    let points ← Reader.leaf fontSize
    let lineHeight ← fontLineHeight
    let family ← fontFamily
    return [
      .longhand .fontStyle (exactOrInitial .fontStyle parts.style),
      .longhand .fontWeight (exactOrInitial .real parts.weight),
      .longhand .fontWidth (exactOrInitial .fontWidth parts.width),
      .longhand .fontSize (.exact (.real points)),
      .longhand .lineHeight lineHeight,
      .longhand .fontFamily (.exact (.text family))]

end Grammar

/-- The grammar of a shorthand. -/
def Shorthand.reader (s : Shorthand) : Reader (List Property) :=
  match s with
  | border => Grammar.strokeShorthand borderColors borderWidths
  | borderSide side => Grammar.strokeShorthand [.borderColor side] [.borderWidth side]
  | outline => Grammar.strokeShorthand [.outlineColor] [.outlineWidth]
  | borderColor => Grammar.quadShorthand s.longhands Grammar.paint .paint
  | borderWidth => Grammar.quadShorthand s.longhands Grammar.lineWidth .length
  | borderRadius => Grammar.quadShorthand s.longhands Grammar.positiveLength .length
  | space => Grammar.quadShorthand s.longhands Grammar.size .size
  | childSpace => Grammar.quadShorthand s.longhands Grammar.size .size
  | font => Grammar.fontShorthand

end Styling
