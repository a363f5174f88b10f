import Styling.Property.Style

/-!
# The ranges of longhands

Most numbers in a style have a range: widths, radii and sizes are not negative, the opacity lies in
the unit interval and the weight of a font between 1 and 1000.

* `Longhand.range` is the range of a longhand, and `Range.admits` tells whether a value lies in it.
* `Longhand.admits_defaultValue` says that every default lies in its range.
* `Longhand.isLoose` are the longhands that some shorthand reads without looking at the sign.
* `Longhand.takes` tells whether a value is of a sort that a longhand can be declared with, and
  `Longhand.soleTaker?` is the longhand that takes a sort of values alone.
* `Property.IsAdmitted` and `Property.IsFitting` are about what is declared.
-/

namespace Styling

/-- The values that a longhand may have in a style. -/
inductive Range
  | any
  /-- A number of a closed interval. -/
  | between (low high : Float)
  /-- A number that is not negative. -/
  | nonnegative
  /-- A font width that is not negative. -/
  | fontWidth
  /-- A length that is not negative, or, if it is optional, none. -/
  | length (optional : Bool)
  /-- A size that is `auto` or not negative. -/
  | size

namespace Range

/-- The value lies in the range. -/
def admits : Range → Value → Bool
  | any, _ => true
  | between low high, .real x => decide (low ≤ x) && decide (x ≤ high)
  | nonnegative, .real x => !decide (x < 0.0)
  | fontWidth, .fontWidth x => !decide (x < 0.0)
  | length _, .length l => !l.isNegative
  | length optional, .none => optional
  | size, .size s => !s.isNegative
  | _, _ => false

end Range

namespace Longhand

/-- The range of a longhand. -/
def range : Longhand → Range
  | opacity => .between 0.0 1.0
  | fontWeight => .between 1.0 1000.0
  | fontSize => .nonnegative
  | fontWidth => .fontWidth
  | borderRadius _ | borderWidth _ | flexBasis | outlineWidth => .length false
  | maximum _ | minimum _ => .length true
  | extent (.side _) => .any
  | extent _ | lineHeight => .size
  | _ => .any

/-- The value lies in the range of the longhand. -/
def admits (l : Longhand) (v : Value) : Bool := l.range.admits v

/-- Every default lies in its range. -/
theorem admits_defaultValue (l : Longhand) : l.admits (Style.defaultValue l) = true := by
  cases l with
  | extent e => cases e <;> rfl
  | _ => rfl

/-- Some shorthand reads values of the longhand without looking at their sign. -/
def isLoose : Longhand → Bool
  | extent (.childSide _) | lineHeight => true
  | _ => false

/-- The longhand can be declared with a value of this sort. -/
def takes : Longhand → Value → Bool
  | backgroundColor, .paint _ | borderColor _, .paint _ | color, .paint _ | outlineColor, .paint _
  | selectionBackground, .paint _ | selectionColor, .paint _ => true
  | backgroundImage, .gradients _ => true
  | borderRadius _, .length _ | borderWidth _, .length _ | flexBasis, .length _
  | outlineWidth, .length _ | maximum _, .length _ | minimum _, .length _
  | outlineOffset, .length _ => true
  | extent _, .size _ | letterSpacing, .size _ | wordSpacing, .size _ | lineHeight, .size _ => true
  | boxShadow, .boxShadows _ => true
  | textShadow, .textShadows _ => true
  | display, .direction _ | display, .none => true
  | fontFamily, .text _ => true
  | fontSize, .real _ | fontWeight, .real _ | opacity, .real _ => true
  | fontStyle, .fontStyle _ => true
  | fontWidth, .fontWidth _ => true
  | position, .position _ => true
  | textAlign, .textAlign _ => true
  | transform, .transform _ => true
  | zIndex, .integer _ => true
  | _, _ => false

/-- The longhand that takes values of this sort, where it is the only one. -/
def soleTaker? : Value → Option Longhand
  | .none | .direction _ => some display
  | .paint _ | .length _ | .size _ | .real _ => none
  | .position _ => some position
  | .textAlign _ => some textAlign
  | .fontStyle _ => some fontStyle
  | .fontWidth _ => some fontWidth
  | .boxShadows _ => some boxShadow
  | .textShadows _ => some textShadow
  | .transform _ => some transform
  | .gradients _ => some backgroundImage
  | .integer _ => some zIndex
  | .text _ => some fontFamily

/-- No other longhand takes a value of a sort that one longhand takes alone. -/
theorem eq_of_takes {l k : Longhand} {v : Value} (hsole : soleTaker? v = some k)
    (htakes : l.takes v = true) : l = k := by
  cases v with
  | paint | length | size | real => cases hsole
  | _ =>
    cases hsole
    cases l <;> first | rfl | exact absurd htakes Bool.false_ne_true

end Longhand

/-- If a longhand is declared with a value, the value lies in its range, unless the longhand is
loose. -/
def Property.IsAdmitted (p : Property) : Prop :=
  ∀ l v, p.kind = .longhand l → p.value = .exact v → l.isLoose = true ∨ l.admits v = true

/-- If a longhand is declared with a value, the value is of a sort that it takes, and lies in the
range unless the longhand is loose. -/
def Property.IsFitting (p : Property) : Prop :=
  ∀ l v, p.kind = .longhand l → p.value = .exact v →
    l.takes v = true ∧ (l.isLoose = true ∨ l.admits v = true)

namespace Property

theorem IsFitting.isAdmitted {p : Property} (h : p.IsFitting) : p.IsAdmitted :=
  fun l v hl hv => (h l v hl hv).2

end Property

end Styling
