import Styling.Grammar.Leaf

/-!
# Fonts

A list of font families is a sequence of quoted strings and runs of identifiers between commas; its
value is the text as it is written.  A font style is a keyword that may have an angle after it.
-/

namespace Styling.Grammar

/-- Where a list of families stands. -/
inductive FamilyState
  /-- At the start, where a family has to follow. -/
  | start
  /-- After a comma, where a family has to follow. -/
  | afterComma
  /-- Inside a run of identifiers. -/
  | inName
  /-- After a string. -/
  | afterString
  deriving DecidableEq, Repr

namespace FamilyState

/-- Read a component of a list of families. -/
def step (source : Source) (state : FamilyState) (c : Component) :
    Except StepError FamilyState := do
  StepError.ofLeaf (Leaf.noVar source c)
  let wrong := StepError.ofLeaf (Leaf.unexpected source c)
  match state, c with
  | start, .token ⟨.ident _, _⟩ | afterComma, .token ⟨.ident _, _⟩ | inName, .token ⟨.ident _, _⟩ =>
    return inName
  | start, .token ⟨.string _, _⟩ | afterComma, .token ⟨.string _, _⟩ => return afterString
  | inName, .token ⟨.comma, _⟩ | afterString, .token ⟨.comma, _⟩ => return afterComma
  | _, _ => wrong

/-- Why the list cannot end here, if it cannot. -/
def incomplete? : FamilyState → Option Reason
  | start => some .familyMissing
  | afterComma => some .familyMissingAfterComma
  | inName | afterString => none

end FamilyState

/-- A list of font families, as the trimmed text it is written as. -/
def fontFamily : Reader String := do
  let start ← Reader.ask Cursor.index
  let source ← Reader.source
  let state ← Reader.foldAll (FamilyState.step source) .start
  match state.incomplete? with
  | some reason => Reader.refuse reason
  | none => return Text.trim (← Reader.ask (·.sliceFrom start))

/-- The keyword of a font style. -/
def fontStyleKeyword : Leaf FontStyle :=
  keyword [("normal", .normal), ("italic", .italic), ("oblique", .oblique none)]

/-- A font style.  After `oblique` an angle in degrees may follow; an angle in another unit is
refused if the reader is strict, and left for the next reader otherwise. -/
def fontStyle (strict : Bool) : Reader FontStyle := do
  let style ← Reader.leaf fontStyleKeyword
  if style == .oblique none then
    let source ← Reader.source
    match ← Reader.ask Cursor.peek with
    | none => return style
    | some (.token ⟨.dimension n unit, span⟩) =>
      if Text.lowercase unit == "deg" then
        let _ ← Reader.next
        return .oblique (some (← Reader.ofExcept (float n)))
      else if strict then
        Reader.ofExcept (Leaf.unsupported source (.token ⟨.dimension n unit, span⟩))
      else return style
    | some c =>
      Reader.ofExcept (Leaf.noNestedVar source c)
      return style
  else return style

end Styling.Grammar
