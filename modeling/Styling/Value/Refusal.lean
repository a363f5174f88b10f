import Styling.Syntax.Problem
import Styling.Number.Fault

/-!
# Refusals

A reader of a value refuses it for a reason at a location.  A value may be malformed (`invalid`), or
recognized and not supported (`unsupported`), or it may hold a `var()` call where something else was
wanted (`varCall`).  The last is no verdict on the value: it tells that the value can only be read
once custom properties are known.

`ReadError` adds the faults of arithmetic, which no reader steps back from.
-/

namespace Styling

/-- Why a value is refused. -/
inductive Reason
  | unexpected (text : String)
  | unexpectedEnd
  | unexpectedValue
  | notSupported (text : String)
  | borderStyle (keyword : String)
  | negativeLength
  | negativeValue
  | negativeFontSize
  | negativeFontWidth
  | familyMissing
  | familyMissingAfterComma
  | shadowLengthCount
  | shadowLengthSurplus
  | shadowColorSurplus
  | shadowSpread
  | negativeBlur
  | colorTwice
  | widthTwice
  | sideMissing
  | stopsTooFew
  | hintFirst
  | hintLast
  | hintsAdjacent
  | pseudoClassMissing
  | pseudoClassUnknown (name : String)
  | selectorIncomplete
  | propertyUnknown (name : String)
  | syntaxProblem (problem : SyntaxProblem)
  | stated (message : String)
  deriving DecidableEq, Repr

namespace Reason

/-- The wording of a reason. -/
def message : Reason → String
  | unexpected text => s!"Unexpected `{text}`"
  | unexpectedEnd => "Unexpected end of input"
  | unexpectedValue => "Unexpected value"
  | notSupported text => s!"Unsupported `{text}`"
  | borderStyle keyword => s!"Border style `{keyword}` is not supported"
  | negativeLength => "Length must not be negative"
  | negativeValue => "Value must not be negative"
  | negativeFontSize => "Font size must not be negative"
  | negativeFontWidth => "Font width must not be negative"
  | familyMissing => "Expected a font family"
  | familyMissingAfterComma => "Expected a font family after `,`"
  | shadowLengthCount => "A shadow needs two to four lengths"
  | shadowLengthSurplus => "A shadow has at most four lengths"
  | shadowColorSurplus => "A shadow may only have one color"
  | shadowSpread => "text-shadow does not take a spread"
  | negativeBlur => "Shadow blur must not be negative"
  | colorTwice => "Color was given twice"
  | widthTwice => "Width was given twice"
  | sideMissing => "Expected a side or corner"
  | stopsTooFew => "A gradient needs at least two color stops"
  | hintFirst => "A gradient cannot start with a color hint"
  | hintLast => "A color hint must be followed by a color stop"
  | hintsAdjacent => "Two color hints in a row"
  | pseudoClassMissing => "Expected a pseudo class"
  | pseudoClassUnknown name => s!"Unknown pseudo class `:{name}`"
  | selectorIncomplete => "Selector is empty or ends with a combinator"
  | propertyUnknown name => s!"Unknown property `{name}`"
  | syntaxProblem problem => problem.message
  | stated message => message

end Reason

/-- The verdict of a reader that does not take a value. -/
inductive Refusal
  /-- The value is malformed. -/
  | invalid (reason : Reason) (location : Location)
  /-- The value is recognized and not supported. -/
  | unsupported (reason : Reason) (location : Location)
  /-- A `var()` call stands where something else is wanted. -/
  | varCall (location : Location)
  deriving DecidableEq, Repr

namespace Refusal

/-- The wording of a refusal. -/
def message : Refusal → String
  | invalid reason _ => reason.message
  | unsupported reason _ => reason.message
  | varCall _ => "var() found"

/-- Where a value is refused. -/
def location : Refusal → Location
  | invalid _ l => l
  | unsupported _ l => l
  | varCall l => l

/-- The refusal is no verdict but waits for custom properties. -/
def isVarCall : Refusal → Bool
  | varCall _ => true
  | _ => false

end Refusal

/-- Why reading a value has no result. -/
inductive ReadError
  | refused (refusal : Refusal)
  | fault (fault : Fault)
  deriving DecidableEq, Repr

namespace ReadError

/-- A malformed value. -/
def invalid (reason : Reason) (location : Location) : ReadError :=
  .refused (.invalid reason location)

/-- A value that is recognized and not supported. -/
def unsupported (reason : Reason) (location : Location) : ReadError :=
  .refused (.unsupported reason location)

/-- A `var()` call. -/
def varCall (location : Location) : ReadError :=
  .refused (.varCall location)

/-- The error of a computation with numbers. -/
def ofFault {α : Type} : Except Fault α → Except ReadError α
  | .ok a => .ok a
  | .error f => .error (.fault f)

end ReadError

end Styling
