import Styling.Property.Basic

/-!
# Styles

A style has a value for every longhand.  A fresh style takes the inherited longhands from the parent
and the defaults otherwise; properties are then written into it one by one.

`currentcolor` is resolved when it is written, against the color the style has at that moment, so
the color of a style is settled before anything else is written.
-/

namespace Styling

/-- A value for every longhand. -/
structure Style where
  get : Longhand → Value

namespace Style

/-- Styles with the same values are equal. -/
@[ext] theorem ext {s t : Style} (h : ∀ l, s.get l = t.get l) : s = t := by
  cases s
  cases t
  exact congrArg Style.mk (funext h)

/-- The value a longhand has by default. -/
def defaultValue : Longhand → Value
  | .backgroundColor => .color .transparent
  | .borderColor _ | .color | .outlineColor => .color .black
  | .borderRadius _ | .borderWidth _ | .flexBasis | .outlineOffset | .outlineWidth => .length .zero
  | .extent .width | .extent .height => .size (.stretch 1.0)
  | .extent _ => .size .auto
  | .display => .direction .column
  | .fontSize => .real 16.0
  | .fontStyle => .fontStyle .normal
  | .fontWeight => .real 400.0
  | .fontWidth => .fontWidth 1.0
  | .lineHeight => .size (.stretch 1.2)
  | .opacity => .real 1.0
  | .position => .position .parentDirected
  | .selectionBackground => .color
      ⟨Binary64.ofRatio false 4 255, Binary64.ofRatio false 101 255, Binary64.ofRatio false 175 255,
        Binary64.ofRatio false 128 255⟩
  | .textAlign => .textAlign .start
  | .transform => .transform .identity
  | .zIndex => .integer 0
  | .backgroundImage | .boxShadow | .fontFamily | .letterSpacing | .wordSpacing | .maximum _
  | .minimum _ | .selectionColor | .textShadow => .none

/-- The style with the default of every longhand. -/
def initial : Style := ⟨defaultValue⟩

/-- The style with another value of one longhand. -/
def set (s : Style) (l : Longhand) (v : Value) : Style :=
  ⟨fun k => if k = l then v else s.get k⟩

@[simp] theorem get_set_self (s : Style) (l : Longhand) (v : Value) : (s.set l v).get l = v := by
  simp [set]

theorem get_set_of_ne (s : Style) {l k : Longhand} (v : Value) (h : k ≠ l) :
    (s.set l v).get k = s.get k := by
  simp [set, h]

/-- A fresh style under a parent, if there is one. -/
def fresh (parent : Option Style) : Style :=
  ⟨fun l =>
    match parent with
    | some p => if l.isInherited then p.get l else defaultValue l
    | none => defaultValue l⟩

/-- The value that is written for an exact value: `currentcolor` is the color of the text, and
spacing between letters or words has no value instead of `auto`. -/
def resolve (s : Style) (l : Longhand) : Value → Value
  | .paint .current => s.get .color
  | .size .auto => if l = .letterSpacing ∨ l = .wordSpacing then .none else .size .auto
  | v => v

/-- Write a longhand.  A deferred value writes nothing. -/
def write (s : Style) (parent : Option Style) (l : Longhand) : PropertyValue → Style
  | .initial => s.set l (defaultValue l)
  | .inherit => s.set l ((parent.getD initial).get l)
  | .exact v => s.set l (s.resolve l v)
  | .deferred _ _ => s

/-- Writing a longhand leaves every other one as it is. -/
theorem get_write_of_ne (s : Style) (parent : Option Style) {l k : Longhand} (v : PropertyValue)
    (h : k ≠ l) : (s.write parent l v).get k = s.get k := by
  cases v <;> simp [write, get_set_of_ne, h]

/-- Write a property; a property that is deferred or a shorthand is given back instead. -/
def apply (s : Style) (parent : Option Style) (p : Property) : Except Property Style :=
  match p.kind with
  | .longhand l => if p.value.isDeferred then .error p else .ok (s.write parent l p.value)
  | .shorthand _ => .error p

end Style

/-- Why a property was not written. -/
def Property.unresolvedMessage (p : Property) : Except Fault String := do
  let css ← p.css
  return s!"`{css}` must be resolved before it can be applied"

end Styling
