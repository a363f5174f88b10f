import Styling.Color.Basic
import Styling.Value.Length

/-!
# Shadows

A shadow of a box or of text.  A shadow without a color is painted with the color of the text.
-/

namespace Styling

/-- A shadow of a box. -/
structure BoxShadow where
  offsetX : Length
  offsetY : Length
  blur : Length
  spread : Length
  color : Option Color
  inset : Bool
  deriving BEq, DecidableEq, Repr

/-- A shadow of text. -/
structure TextShadow where
  offsetX : Length
  offsetY : Length
  blur : Length
  color : Option Color
  deriving BEq, DecidableEq, Repr

/-- The words of a shadow: its lengths and its color, if it has one. -/
def shadowWords (lengths : List Length) (color : Option Color) : Except Fault (List String) := do
  let written ← lengths.mapM Length.css
  match color with
  | some c => return written ++ [← c.css]
  | none => return written

/-- A shadow of a box as it stands in a style. -/
def BoxShadow.css (s : BoxShadow) : Except Fault String := do
  let words ← shadowWords [s.offsetX, s.offsetY, s.blur, s.spread] s.color
  return String.intercalate " " ((if s.inset then ["inset"] else []) ++ words)

/-- A shadow of text as it stands in a style. -/
def TextShadow.css (s : TextShadow) : Except Fault String := do
  return String.intercalate " " (← shadowWords [s.offsetX, s.offsetY, s.blur] s.color)

end Styling
