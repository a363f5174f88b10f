import Styling.Value.Affine
import Styling.Value.Gradient
import Styling.Value.Shadow

/-!
# Values of properties

The values that a property of a node can have, and how each stands in a style.  Which sort of value
a property takes is the matter of its grammar.
-/

namespace Styling

/-- A value of a property. -/
inductive Value
  | none
  | paint (p : Paint)
  | length (l : Length)
  | size (s : Size)
  | direction (d : Direction)
  | position (p : Position)
  | textAlign (a : TextAlign)
  | fontStyle (s : FontStyle)
  /-- A font width as a fraction of the normal width. -/
  | fontWidth (fraction : Float)
  | boxShadows (shadows : List BoxShadow)
  | textShadows (shadows : List TextShadow)
  | transform (m : Affine Float)
  | gradients (gs : List LinearGradient)
  | real (x : Float)
  | integer (n : Int)
  | text (s : String)
  deriving BEq, DecidableEq, Repr

namespace Value

/-- The value of a color. -/
def color (c : Color) : Value := paint (.color c)

/-- Entries between commas. -/
def cssList {α : Type} (css : α → Except Fault String) (entries : List α) :
    Except Fault String := do
  return String.intercalate ", " (← entries.mapM css)

/-- A value as it stands in a style. -/
def css : Value → Except Fault String
  | none => .ok "none"
  | paint p => p.css
  | length l => l.css
  | size s => s.css
  | direction d => .ok d.keyword
  | position p => .ok p.keyword
  | textAlign a => .ok a.keyword
  | fontStyle s => s.css
  | fontWidth fraction => do return (← styleNumber (fraction * 100.0)) ++ "%"
  | boxShadows shadows => cssList BoxShadow.css shadows
  | textShadows shadows => cssList TextShadow.css shadows
  | transform m => .ok m.css
  | gradients gs => cssList LinearGradient.css gs
  | real x => styleNumber x
  | integer n => .ok (toString n)
  | text s => .ok s

end Value

end Styling
