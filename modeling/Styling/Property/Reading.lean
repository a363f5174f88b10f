import Styling.Grammar.Gradient
import Styling.Grammar.Shadow
import Styling.Grammar.Shorthand
import Styling.Grammar.Transform
import Styling.Property.Style

/-!
# Reading properties

Every kind of property has a grammar.  A longhand is `initial`, `inherit` or a value of its grammar;
a shorthand is read by its own grammar.  A value with a `var()` call where the grammar would take it
is not read but deferred: it is kept as text with its location.

* `Longhand.reader` and `Shorthand.reader` are the grammars.
* `PropertyKind.read` reads what is declared for a kind.
* `Declaration.read` finds the kind of a name and reads its value.
-/

namespace Styling

namespace Longhand

/-- The declaration of a value, or of the default if the keyword `none` was read. -/
def exactOrInitial {α : Type} (value : α → Value) (r : Reader (Option α)) :
    Reader PropertyValue := do
  return Grammar.exactOrInitial value (← r)

/-- The declaration of a value of one component. -/
def exactLeaf {α : Type} (value : α → Value) (leaf : Leaf α) : Reader PropertyValue := do
  return .exact (value (← Reader.leaf leaf))

/-- The value of an optional direction. -/
def displayValue : Option Direction → Value
  | some d => .direction d
  | none => .none

/-- The grammar of the values of a longhand. -/
def reader : Longhand → Reader PropertyValue
  | backgroundColor | borderColor _ | color | outlineColor | selectionBackground | selectionColor =>
    exactLeaf .paint Grammar.paint
  | backgroundImage => exactOrInitial .gradients Grammar.backgroundImage
  | borderRadius _ | borderWidth _ | flexBasis | outlineWidth | maximum _ | minimum _ =>
    exactLeaf .length Grammar.positiveLength
  | outlineOffset => exactLeaf .length Grammar.length
  | extent (.side _) | letterSpacing | wordSpacing => exactLeaf .size Grammar.size
  | extent _ | lineHeight => exactLeaf .size Grammar.positiveSize
  | boxShadow => exactOrInitial .boxShadows Grammar.boxShadow
  | textShadow => exactOrInitial .textShadows Grammar.textShadow
  | display => exactLeaf displayValue Grammar.display
  | fontFamily => do return .exact (.text (← Grammar.fontFamily))
  | fontSize => exactLeaf .real Grammar.fontSize
  | fontStyle => do return .exact (.fontStyle (← Grammar.fontStyle true))
  | fontWeight => exactLeaf .real Grammar.fontWeight
  | fontWidth => exactLeaf .fontWidth Grammar.fontWidth
  | opacity => exactLeaf .real Grammar.opacity
  | position => exactLeaf .position Grammar.position
  | textAlign => exactLeaf .textAlign Grammar.textAlign
  | transform => do return .exact (.transform (← Grammar.transform))
  | zIndex => exactLeaf .integer Grammar.integer

end Longhand

namespace Reader

/-- Read the whole value, or defer it if a `var()` call stands in the way: then everything from the
start of the value is kept as text. -/
def exactOrDeferred {α : Type} (r : Reader α) (deferred : String → Location → α) :
    Reader α := fun c =>
  match (do let a ← r; expectExhausted; return a : Reader α).run c with
  | .error (.refused (.varCall _)) _ => .ok (deferred c.remaining c.location) c.toEnd
  | result => result

end Reader

namespace PropertyKind

/-- Read what is declared for a kind of property. -/
def read : PropertyKind → Reader (List Property)
  | longhand l => do
    if ← Reader.isKeywordExhausted "initial" then return [.initial (longhand l)]
    if ← Reader.isKeywordExhausted "inherit" then return [.inherit (longhand l)]
    let value ← Reader.exactOrDeferred l.reader .deferred
    return [.longhand l value]
  | shorthand s =>
    Reader.exactOrDeferred s.reader fun raw location => [.deferred (shorthand s) raw location]

/-- Read what is declared for a kind of property, given the components of its value. -/
def readCursor (kind : PropertyKind) (c : Cursor) : Except ReadError (List Property) :=
  match kind.read.run c with
  | .ok properties _ => .ok properties
  | .error e _ => .error e

end PropertyKind

namespace Declaration

/-- Read the value of a declaration with a name; an unknown name is refused. -/
def read (name : String) (c : Cursor) : Except ReadError (List Property) :=
  match PropertyKind.ofName? name with
  | some kind => kind.readCursor c
  | none => .error (.invalid (.propertyUnknown name) c.location)

/-- Read a declaration whose value is a text of its own. -/
def readText (name value : String) : Except ReadError (List Property) := do
  read name (← Cursor.ofText value)

end Declaration

end Styling
