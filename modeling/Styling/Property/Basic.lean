import Styling.Property.Kind
import Styling.Text.Source
import Styling.Value.Basic

/-!
# Properties

A property is a kind with what was declared for it: the default value (`initial`), the value of the
parent (`inherit`), a value that was read (`exact`), or the text of a value with `var()` calls that
can only be read later (`deferred`).

A shorthand is spread over its longhands when it is read, so it never carries an exact value.  That
is part of the type: `Property.exact_longhand`.
-/

namespace Styling

/-- What is declared for a property. -/
inductive PropertyValue
  | initial
  | inherit
  | exact (value : Value)
  | deferred (raw : String) (location : Location)
  deriving DecidableEq, Repr

namespace PropertyValue

/-- A value was read. -/
def isExact : PropertyValue → Bool
  | exact _ => true
  | _ => false

/-- The value has to be read later. -/
def isDeferred : PropertyValue → Bool
  | deferred _ _ => true
  | _ => false

/-- The text of what is declared. -/
def css : PropertyValue → Except Fault String
  | initial => .ok "initial"
  | inherit => .ok "inherit"
  | exact value => value.css
  | deferred raw _ => .ok raw

end PropertyValue

/-- A kind of property with what is declared for it. -/
structure Property where
  kind : PropertyKind
  value : PropertyValue
  /-- Only longhands carry exact values. -/
  exact_longhand : value.isExact = true → kind.isShorthand = false
  deriving DecidableEq

namespace Property

/-- A longhand with what is declared for it. -/
def longhand (l : Longhand) (value : PropertyValue) : Property :=
  ⟨.longhand l, value, fun _ => rfl⟩

/-- A kind with its default value. -/
def initial (kind : PropertyKind) : Property :=
  ⟨kind, .initial, fun h => absurd h (by simp [PropertyValue.isExact])⟩

/-- A kind with the value of the parent. -/
def inherit (kind : PropertyKind) : Property :=
  ⟨kind, .inherit, fun h => absurd h (by simp [PropertyValue.isExact])⟩

/-- A kind whose value has to be read later. -/
def deferred (kind : PropertyKind) (raw : String) (location : Location) : Property :=
  ⟨kind, .deferred raw location, fun h => absurd h (by simp [PropertyValue.isExact])⟩

/-- A kind with a value, unless a shorthand would carry an exact value. -/
def make? (kind : PropertyKind) (value : PropertyValue) : Option Property :=
  if h : value.isExact = true → kind.isShorthand = false then some ⟨kind, value, h⟩ else none

/-- Why a shorthand is not given an exact value. -/
def exactShorthandMessage (kind : PropertyKind) : String :=
  let name := kind.name
  s!"Shorthand `{name}` cannot carry an exact value"

/-- A change of the property can change the layout. -/
def affectsLayout (p : Property) : Bool := p.kind.affectsLayout

/-- The declaration of a property. -/
def css (p : Property) : Except Fault String := do
  return p.kind.name ++ ": " ++ (← p.value.css)

end Property

end Styling
