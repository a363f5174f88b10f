import Styling.Color.Basic
import Styling.Color.Hue

/-!
# Mixing colors

Two colors are mixed by taking them to the coordinates of a color space, mixing the coordinates and
taking the result back.  Coordinates are weighted by alpha, except for hues, which follow the arc
that the hue direction names.

* `ColorSpace.ofColor` and `ColorSpace.toChannels` are the two conversions.
* `Color.blendHues` follows the arc between two hues.  Like the choice of the arc it is stated over
  any ordered scalar.
* `Color.mix` mixes two colors; the result has its channels moved into the unit interval.
-/

namespace Styling

/-- The spaces in which colors are mixed. -/
inductive ColorSpace
  | srgb
  | srgbLinear
  | hsl
  | hwb
  | oklab
  | oklch
  | xyz
  deriving DecidableEq, Repr

/-- Three coordinates of a color. -/
abbrev Triple := Float × Float × Float

namespace ColorSpace

/-- Every space. -/
def all : List ColorSpace := [srgb, srgbLinear, hsl, hwb, oklab, oklch, xyz]

/-- The name of a space. -/
def keyword : ColorSpace → String
  | srgb => "srgb"
  | srgbLinear => "srgb-linear"
  | hsl => "hsl"
  | hwb => "hwb"
  | oklab => "oklab"
  | oklch => "oklch"
  | xyz => "xyz-d65"

/-- The space of a name or of one of its synonyms. -/
def ofKeyword? (s : String) : Option ColorSpace :=
  if s == "linear-srgb" then some srgbLinear
  else if s == "xyz" then some xyz
  else all.find? fun space => space.keyword == s

/-- The names of spaces that are recognized and not supported. -/
def notSupported : List String :=
  ["display-p3", "a98-rgb", "prophoto-rgb", "rec2020", "lab", "lch", "xyz-d50", "acescg", "aces-cg",
    "aces2065-1"]

/-- The space has a hue among its coordinates. -/
def isPolar : ColorSpace → Bool
  | hsl | hwb | oklch => true
  | _ => false

/-- The index of the coordinate that is a hue. -/
def hueIndex? : ColorSpace → Option Nat
  | hsl | hwb => some 0
  | oklch => some 2
  | _ => none

/-- Undo the gamma curve of a channel. -/
def toLinear (channel : Float) : Except Fault Float := do
  let magnitude := channel.abs
  if magnitude ≤ 0.04045 then return channel / 12.92
  let power ← Elementary.pow ((magnitude + 0.055) / 1.055) 2.4
  return Elementary.copySign power channel

/-- Apply the gamma curve to a channel. -/
def fromLinear (channel : Float) : Except Fault Float := do
  let magnitude := channel.abs
  if magnitude ≤ 0.0031308 then return channel * 12.92
  let power ← Elementary.pow magnitude (1.0 / 2.4)
  return Elementary.copySign (1.055 * power - 0.055) channel

/-- Apply a function that may fail to three coordinates. -/
def mapTriple (f : Float → Except Fault Float) (v : Triple) : Except Fault Triple := do
  return (← f v.1, ← f v.2.1, ← f v.2.2)

/-- The product of a row and a vector, summed from the left and from zero. -/
def dot (row v : Triple) : Float :=
  0.0 + row.1 * v.1 + row.2.1 * v.2.1 + row.2.2 * v.2.2

/-- The product of a matrix and a vector. -/
def product (m : Triple × Triple × Triple) (v : Triple) : Triple :=
  (dot m.1 v, dot m.2.1 v, dot m.2.2 v)

/-- Linear channels to XYZ coordinates. -/
def linearToXyz : Triple × Triple × Triple :=
  ((0.41239079926595934, 0.357584339383878, 0.1804807884018343),
    (0.21263900587151027, 0.715168678767756, 0.07219231536073371),
    (0.01933081871559182, 0.11919477979462598, 0.9505321522496607))

/-- XYZ coordinates to linear channels. -/
def xyzToLinear : Triple × Triple × Triple :=
  ((3.2409699419045226, -1.537383177570094, -0.4986107602930034),
    (-0.9692436362808796, 1.8759675015077202, 0.04155505740717559),
    (0.05563007969699366, -0.20397695888897652, 1.0569715142428786))

/-- Linear channels to cone responses. -/
def linearToLms : Triple × Triple × Triple :=
  ((0.4122214708, 0.5363325363, 0.0514459929),
    (0.2119034982, 0.6806995451, 0.1073969566),
    (0.0883024619, 0.2817188376, 0.6299787005))

/-- Compressed cone responses to lightness and the two color axes. -/
def lmsToOklab : Triple × Triple × Triple :=
  ((0.2104542553, 0.7936177850, -0.0040720468),
    (1.9779984951, -2.4285922050, 0.4505937099),
    (0.0259040371, 0.7827717662, -0.8086757660))

/-- Lightness and the two color axes to compressed cone responses. -/
def oklabToLms : Triple × Triple × Triple :=
  ((1.0, 0.3963377774, 0.2158037573),
    (1.0, -0.1055613458, -0.0638541728),
    (1.0, -0.0894841775, -1.2914855480))

/-- Cone responses to linear channels. -/
def lmsToLinear : Triple × Triple × Triple :=
  ((4.0767416621, -3.3077115913, 0.2309699292),
    (-1.2684380046, 2.6097574011, -0.3413193965),
    (-0.0041960863, -0.7034186147, 1.7076147010))

/-- The cube root with the sign of its argument. -/
def cubeRoot (x : Float) : Except Fault Float := do
  return Elementary.copySign (← Elementary.pow x.abs (1.0 / 3.0)) x

/-- Linear channels to lightness and the two color axes. -/
def oklabOfLinear (linear : Triple) : Except Fault Triple := do
  return product lmsToOklab (← mapTriple cubeRoot (product linearToLms linear))

/-- Lightness and the two color axes to linear channels. -/
def linearOfOklab (lab : Triple) : Except Fault Triple := do
  return product lmsToLinear
    (← mapTriple (fun c => Elementary.pow c 3.0) (product oklabToLms lab))

/-- The coordinates of a color. -/
def ofColor (space : ColorSpace) (c : Color) : Except Fault Triple := do
  let rgb : Triple := (c.red, c.green, c.blue)
  match space with
  | srgb => return rgb
  | hsl =>
    let (hue, lightness, saturation) ← rgbToHls c.red c.green c.blue
    return (hue * 360.0, saturation, lightness)
  | hwb =>
    let (hue, saturation, value) ← rgbToHsv c.red c.green c.blue
    return (hue * 360.0, (1.0 - saturation) * value, 1.0 - value)
  | srgbLinear => mapTriple toLinear rgb
  | xyz => return product linearToXyz (← mapTriple toLinear rgb)
  | oklab => oklabOfLinear (← mapTriple toLinear rgb)
  | oklch =>
    let (lightness, a, b) ← oklabOfLinear (← mapTriple toLinear rgb)
    return (lightness, Elementary.hypot a b,
      Binary64.remainder (Elementary.degrees (Float.atan2 b a)) 360)

/-- The channels red, green and blue of coordinates. -/
def toChannels (space : ColorSpace) (v : Triple) : Except Fault Triple := do
  match space with
  | srgb => return v
  | hsl =>
    let (hue, saturation, lightness) := v
    return hlsToRgb (Binary64.remainder hue 360 / 360.0) lightness saturation
  | hwb =>
    let (hue, whiteness, blackness) := v
    if whiteness + blackness ≥ 1.0 then
      let gray := whiteness / (whiteness + blackness)
      return (gray, gray, gray)
    let value := 1.0 - blackness
    let saturation := if value > 0.0 then 1.0 - whiteness / value else 0.0
    hsvToRgb (Binary64.remainder hue 360 / 360.0) saturation value
  | srgbLinear => mapTriple fromLinear v
  | xyz => mapTriple fromLinear (product xyzToLinear v)
  | oklab => mapTriple fromLinear (← linearOfOklab v)
  | oklch =>
    let (lightness, chroma, hue) := v
    let angle := Elementary.radians hue
    let a := chroma * (← Elementary.cos angle)
    let b := chroma * (← Elementary.sin angle)
    mapTriple fromLinear (← linearOfOklab (lightness, a, b))

end ColorSpace

namespace Color

/-- A coordinate between two coordinates. -/
def blend {α : Type} [Add α] [Sub α] [Mul α] (x y t : α) : α := x + (y - x) * t

/-- A hue between two hues in degrees, on the way that the direction names; `wrap` reduces a hue
into one turn. -/
def blendHues {α : Type} [Add α] [Sub α] [Mul α] [Neg α] [LT α] [DecidableLT α] [OfNat α 0]
    [OfNat α 180] [OfNat α 360] (wrap : α → α) (direction : HueDirection) (first second t : α) :
    α :=
  let arc := direction.adjust wrap first second
  blend arc.1 arc.2 t

/-- A coordinate between two coordinates that are weighted by alpha; `alpha` is that of the
mixture. -/
def blendWeighted (first second : Color) (alpha t x y : Float) : Float :=
  let value := blend (x * first.alpha) (y * second.alpha) t
  if alpha > 0.0 then value / alpha else value

/-- A channel moved into the unit interval. -/
def clampChannel (x : Float) : Float := clamp 0.0 1.0 x

/-- Mix two colors at a fraction of the way from the first to the second. -/
def mix (first second : Color) (t : Float) (space : ColorSpace) (direction : HueDirection) :
    Except Fault Color := do
  let a ← space.ofColor first
  let b ← space.ofColor second
  let alpha := blend first.alpha second.alpha t
  let coordinate := fun i x y =>
    if space.hueIndex? = some i then
      blendHues (fun hue => Binary64.remainder hue 360) direction x y t
    else blendWeighted first second alpha t x y
  let mixed := (coordinate 0 a.1 b.1, coordinate 1 a.2.1 b.2.1, coordinate 2 a.2.2 b.2.2)
  let (red, green, blue) ← space.toChannels mixed
  return ⟨clampChannel red, clampChannel green, clampChannel blue, clampChannel alpha⟩

end Color

end Styling
