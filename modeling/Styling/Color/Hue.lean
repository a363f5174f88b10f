import Styling.Number.Elementary

/-!
# Hues and the cylindrical color models

Hue, lightness and saturation, and hue, saturation and value, are two ways to give the red, green
and blue channels of a color; hues run from zero to one there.  Between two hues there are two arcs
of the circle, and `HueDirection` names which of them a mixture follows.

* `HueDirection.adjust` moves one of two hues by a full turn, so that going straight from the first
  to the second follows the wanted arc.  It is stated over any ordered scalar, with the reduction
  into one turn as a parameter.
* `rgbToHls`, `hlsToRgb`, `rgbToHsv` and `hsvToRgb` are the conversions.  Channels outside of the
  unit interval can make a divisor vanish, which is a fault.
-/

namespace Styling

/-- Which arc of the circle a mixture of hues follows. -/
inductive HueDirection
  | shorter
  | longer
  | increasing
  | decreasing
  deriving DecidableEq, Repr

namespace HueDirection

/-- Every direction. -/
def all : List HueDirection := [shorter, longer, increasing, decreasing]

/-- The keyword of a direction. -/
def keyword : HueDirection → String
  | shorter => "shorter"
  | longer => "longer"
  | increasing => "increasing"
  | decreasing => "decreasing"

/-- The direction of a keyword. -/
def ofKeyword? (s : String) : Option HueDirection :=
  all.find? fun d => d.keyword == s

/-- Every direction is found under its keyword. -/
@[simp] theorem ofKeyword?_keyword (d : HueDirection) : ofKeyword? d.keyword = some d := by
  cases d <;> decide

/-- Move one of two hues in degrees by a full turn so that the way from the first to the second is
the wanted arc; `wrap` reduces a hue into one turn. -/
def adjust {α : Type} [Add α] [Sub α] [Neg α] [LT α] [DecidableLT α] [OfNat α 0] [OfNat α 180]
    [OfNat α 360] (wrap : α → α) (direction : HueDirection) (first second : α) : α × α :=
  let first := wrap first
  let second := wrap second
  let delta := second - first
  match direction with
  | shorter =>
    if 180 < delta then (first + 360, second)
    else if delta < -180 then (first, second + 360)
    else (first, second)
  | longer =>
    if 0 < delta ∧ delta < 180 then (first + 360, second)
    else if -180 < delta ∧ ¬ 0 < delta then (first, second + 360)
    else (first, second)
  | increasing => if second < first then (first, second + 360) else (first, second)
  | decreasing => if first < second then (first + 360, second) else (first, second)

end HueDirection

namespace Hue

/-- A hue reduced into one turn of length one. -/
def turn (h : Float) : Float := Binary64.remainder h 1

/-- The hue of three channels whose greatest is `high` and whose range is `range`. -/
def ofChannels (red green blue high range : Float) : Except Fault Float := do
  let redPart ← Elementary.div (high - red) range
  let greenPart ← Elementary.div (high - green) range
  let bluePart ← Elementary.div (high - blue) range
  let sixths :=
    if red == high then bluePart - greenPart
    else if green == high then 2.0 + redPart - bluePart
    else 4.0 + greenPart - redPart
  return turn (sixths / 6.0)

end Hue

/-- Hue, lightness and saturation of a color. -/
def rgbToHls (red green blue : Float) : Except Fault (Float × Float × Float) := do
  let high := larger (larger red green) blue
  let low := smaller (smaller red green) blue
  let sum := high + low
  let range := high - low
  let lightness := sum / 2.0
  if low == high then return (0.0, lightness, 0.0)
  let saturation ←
    if lightness ≤ 0.5 then Elementary.div range sum
    else Elementary.div range (2.0 - sum)
  let hue ← Hue.ofChannels red green blue high range
  return (hue, lightness, saturation)

/-- The channel at a hue, between the least value `m1` and the greatest value `m2`. -/
def hlsChannel (m1 m2 hue : Float) : Float :=
  let h := Hue.turn hue
  if h < 1.0 / 6.0 then m1 + (m2 - m1) * h * 6.0
  else if h < 0.5 then m2
  else if h < 2.0 / 3.0 then m1 + (m2 - m1) * (2.0 / 3.0 - h) * 6.0
  else m1

/-- Red, green and blue of a hue, lightness and saturation. -/
def hlsToRgb (hue lightness saturation : Float) : Float × Float × Float :=
  if saturation == 0.0 then (lightness, lightness, lightness)
  else
    let m2 :=
      if lightness ≤ 0.5 then lightness * (1.0 + saturation)
      else lightness + saturation - lightness * saturation
    let m1 := 2.0 * lightness - m2
    (hlsChannel m1 m2 (hue + 1.0 / 3.0), hlsChannel m1 m2 hue, hlsChannel m1 m2 (hue - 1.0 / 3.0))

/-- Hue, saturation and value of a color. -/
def rgbToHsv (red green blue : Float) : Except Fault (Float × Float × Float) := do
  let high := larger (larger red green) blue
  let low := smaller (smaller red green) blue
  let range := high - low
  if low == high then return (0.0, 0.0, high)
  let saturation ← Elementary.div range high
  let hue ← Hue.ofChannels red green blue high range
  return (hue, saturation, high)

/-- Red, green and blue of a hue, saturation and value. -/
def hsvToRgb (hue saturation value : Float) : Except Fault (Float × Float × Float) := do
  if saturation == 0.0 then return (value, value, value)
  let sextant ← Binary64.truncate (hue * 6.0)
  let fraction := hue * 6.0 - (← Binary64.ofInt sextant)
  let p := value * (1.0 - saturation)
  let q := value * (1.0 - saturation * fraction)
  let t := value * (1.0 - saturation * (1.0 - fraction))
  return match sextant % 6 with
    | 0 => (value, t, p)
    | 1 => (q, value, p)
    | 2 => (p, value, t)
    | 3 => (p, q, value)
    | 4 => (t, p, value)
    | _ => (value, p, q)

end Styling
