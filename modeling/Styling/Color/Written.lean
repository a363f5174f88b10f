import Styling.Text.Digit
import Styling.Syntax.Component
import Styling.Color.Basic
import Styling.Color.Hue
import Styling.Color.Names
import Styling.Color.Token

/-!
# Written colors

A color is written as a name, as a hash sign with hexadecimal digits, or as a call of `rgb`, `rgba`,
`hsl` or `hsla` whose arguments are single tokens between commas.  The channels of a call are not
moved into the unit interval; only alpha is.

* `Paint.ofComponent` reads a component; the outer `Except` holds the faults of huge channels, the
  inner option is empty if the component is no color.
* `Paint.ofText` reads a text that must be a single component.
-/

namespace Styling

namespace Color

/-- The color with channels of eight bits. -/
def ofBytes (red green blue : Nat) (alpha : Nat) : Color :=
  let channel := fun n => Binary64.ofRatio false n 255
  ⟨channel red, channel green, channel blue, channel alpha⟩

/-- The color of a name in lowercase. -/
def ofName? (name : String) : Option Color :=
  if name == "transparent" then some transparent
  else
    (colorNames.lookup name).map fun n => ofBytes (n / 0x10000) (n / 0x100 % 0x100) (n % 0x100) 255

/-- The value of a hexadecimal digit; a decimal digit may be of any script. -/
def hexDigit? (c : Char) : Option Nat :=
  if isHexDigit c then some (digitValue c) else Text.decimalDigit? c

/-- The color of hexadecimal digits: one or two for each of three or four channels. -/
def ofHexDigits? (ds : List Char) : Option Color :=
  match ds.mapM hexDigit? with
  | some [r, g, b] => some (ofBytes (r * 17) (g * 17) (b * 17) 255)
  | some [r, g, b, a] => some (ofBytes (r * 17) (g * 17) (b * 17) (a * 17))
  | some [r, r', g, g', b, b'] =>
    some (ofBytes (r * 16 + r') (g * 16 + g') (b * 16 + b') 255)
  | some [r, r', g, g', b, b', a, a'] =>
    some (ofBytes (r * 16 + r') (g * 16 + g') (b * 16 + b') (a * 16 + a'))
  | _ => none

/-- The color after a hash sign; a newline at the end is left out. -/
def ofHash? (name : String) : Option Color :=
  let cs := name.toList
  ofHexDigits? (if cs.getLast? = some '\n' then cs.dropLast else cs)

/-- The arguments of a call without whitespace: single components between single commas. -/
def arguments? : List Component → Option (List Component)
  | [] => none
  | [a] => some [a]
  | a :: c :: rest => if c.isComma then (arguments? rest).map (a :: ·) else none

/-- The nearest binary64 number of a quantity, infinite beyond the range. -/
def saturated : Quantity → Float
  | .integer n => Binary64.ofRatio (n < 0) n.natAbs 1
  | .decimal x => x

/-- The value of a number. -/
def number? : Component → Option Quantity
  | .token ⟨.number n, _⟩ => some n.quantity
  | _ => none

/-- The value of a number that is written as an integer. -/
def integer? : Component → Option Int
  | .token ⟨.number ⟨_, .integer n⟩, _⟩ => some n
  | _ => none

/-- The value of a percentage, as a fraction. -/
def percentage? : Component → Option Float
  | .token ⟨.percentage n, _⟩ => some (saturated n.quantity / 100.0)
  | _ => none

/-- The alpha channel of an argument, moved into the unit interval. -/
def alpha? (c : Component) : Option Float :=
  (number? c).map fun q => smaller 1.0 (larger 0.0 (saturated q))

/-- The color of red, green and blue: three integers or three percentages. -/
def ofRgb (red green blue : Component) (alpha : Float) : Except Fault (Option Color) :=
  match integer? red, integer? green, integer? blue with
  | some r, some g, some b => do
    return some ⟨← Binary64.quotient r 255, ← Binary64.quotient g 255, ← Binary64.quotient b 255,
      alpha⟩
  | _, _, _ =>
    match percentage? red, percentage? green, percentage? blue with
    | some r, some g, some b => .ok (some ⟨r, g, b, alpha⟩)
    | _, _, _ => .ok none

/-- The color of a hue in degrees and a percentage each of saturation and lightness. -/
def ofHsl (hue saturation lightness : Component) (alpha : Float) : Option Color :=
  match number? hue, percentage? saturation, percentage? lightness with
  | some h, some s, some l =>
    let (red, green, blue) := hlsToRgb (saturated h / 360.0) l s
    some ⟨red, green, blue, alpha⟩
  | _, _, _ => none

/-- The color of a call of a function whose name is in lowercase. -/
def ofCall (name : String) (args : List Component) : Except Fault (Option Color) :=
  match args with
  | [a, b, c] =>
    if name == "rgb" then ofRgb a b c 1.0
    else if name == "hsl" then .ok (ofHsl a b c 1.0)
    else .ok none
  | [a, b, c, d] =>
    match alpha? d with
    | none => .ok none
    | some alpha =>
      if name == "rgba" then ofRgb a b c alpha
      else if name == "hsla" then .ok (ofHsl a b c alpha)
      else .ok none
  | _ => .ok none

end Color

namespace Paint

/-- The paint of a name in lowercase. -/
def ofName? (name : String) : Option Paint :=
  if name == "currentcolor" then some .current else (Color.ofName? name).map .color

/-- The paint that a component writes, if it writes one. -/
def ofComponent : Component → Except Fault (Option Paint)
  | .token ⟨.ident name, _⟩ => .ok (ofName? (Text.lowercaseAscii name))
  | .token ⟨.hash name _, _⟩ => .ok ((Color.ofHash? name).map .color)
  | .group (.function name) _ cs _ =>
    match Color.arguments? (cs.filter fun c => !c.isWhitespace) with
    | some args => do return (← Color.ofCall (Text.lowercaseAscii name) args).map .color
    | none => .ok none
  | _ => .ok none

/-- The paint that a text writes as a single component, if it writes one. -/
def ofText (text : String) : Except Fault (Option Paint) := do
  let parsed ← (Source.ofString text).componentsBy scanColorToken
  match parsed.value.filter fun c => !c.isWhitespace with
  | [c] => ofComponent c
  | _ => return none

end Paint

end Styling
