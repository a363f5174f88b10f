import Styling.Grammar.Leaf

/-!
# Shadows

A list of shadows is read component by component.  `ShadowParts` holds what was read of the shadow
that is being read; a comma finishes it and starts the next one.
-/

namespace Styling.Grammar

/-- What was read of one shadow. -/
structure ShadowParts where
  lengths : List Length
  paint : Option Paint
  inset : Bool
  deriving Repr

namespace ShadowParts

/-- Nothing read. -/
def empty : ShadowParts := ⟨[], none, false⟩

/-- The offsets, the blur and the spread, or why the parts are no shadow. -/
def finish (p : ShadowParts) : Except Reason (Length × Length × Option Length × Option Length) := do
  let (x, y, blur, spread) ← match p.lengths with
    | [x, y] => pure (x, y, none, none)
    | [x, y, blur] => pure (x, y, some blur, none)
    | [x, y, blur, spread] => pure (x, y, some blur, some spread)
    | _ => throw .shadowLengthCount
  if blur.any Length.isNegative then throw .negativeBlur
  return (x, y, blur, spread)

/-- The color of the shadow, if it has one of its own. -/
def color? (p : ShadowParts) : Option Color :=
  p.paint.bind Paint.color?

end ShadowParts

/-- The shadows that are finished, in reverse, and the one that is being read. -/
structure ShadowState where
  finished : List ShadowParts
  current : ShadowParts
  deriving Repr

namespace ShadowState

/-- Nothing read. -/
def start : ShadowState := ⟨[], .empty⟩

/-- All shadows in order. -/
def all (s : ShadowState) : List ShadowParts :=
  (s.current :: s.finished).reverse

/-- Read a component that is neither a color nor a length. -/
def stepMark (source : Source) (allowInset : Bool) (s : ShadowState) (c : Component) :
    Except StepError ShadowState :=
  if c.isComma then
    match s.current.finish with
    | .ok _ => .ok ⟨s.current :: s.finished, .empty⟩
    | .error reason => .error (.following reason)
  else if allowInset && c.isKeyword "inset" && !s.current.inset then
    .ok { s with current := { s.current with inset := true } }
  else StepError.ofLeaf (Leaf.unexpected source c)

/-- Read a component of a list of shadows. -/
def step (source : Source) (allowInset : Bool) (s : ShadowState) (c : Component) :
    Except StepError ShadowState := do
  StepError.ofLeaf (Leaf.noVar source c)
  match ← StepError.ofLeaf (Reader.attempted (paint source c)) with
  | some p =>
    if s.current.paint.isSome then throw (.following .shadowColorSurplus)
    return { s with current := { s.current with paint := some p } }
  | none =>
    match ← StepError.ofLeaf (Reader.attempted (length source c)) with
    | some l =>
      if s.current.lengths.length = 4 then throw (.following .shadowLengthSurplus)
      return { s with current := { s.current with lengths := s.current.lengths ++ [l] } }
    | none => stepMark source allowInset s c

end ShadowState

/-- A list of shadows, or nothing for the keyword `none`. -/
def shadowList (allowInset : Bool) : Reader (Option (List ShadowParts)) := do
  if ← Reader.isKeywordExhausted "none" then return none
  let source ← Reader.source
  let state ← Reader.foldAll (ShadowState.step source allowInset) .start
  match state.current.finish with
  | .ok _ => return some state.all
  | .error reason => Reader.refuse reason

/-- The shadow of a box that was read. -/
def boxShadowOf (p : ShadowParts) : Except Reason BoxShadow := do
  let (x, y, blur, spread) ← p.finish
  return ⟨x, y, blur.getD .zero, spread.getD .zero, p.color?, p.inset⟩

/-- The shadow of text that was read; it has no spread. -/
def textShadowOf (p : ShadowParts) : Except Reason TextShadow := do
  let (x, y, blur, spread) ← p.finish
  if spread.isSome then throw .shadowSpread
  return ⟨x, y, blur.getD .zero, p.color?⟩

/-- The values of the shadows that were read. -/
def shadowsOf {α : Type} (f : ShadowParts → Except Reason α) (parts : List ShadowParts) :
    Reader (List α) :=
  match parts.mapM f with
  | .ok shadows => pure shadows
  | .error reason => Reader.refuse reason

/-- The shadows of a box, or nothing for the keyword `none`. -/
def boxShadow : Reader (Option (List BoxShadow)) := do
  match ← shadowList true with
  | some parts => return some (← shadowsOf boxShadowOf parts)
  | none => return none

/-- The shadows of text, or nothing for the keyword `none`. -/
def textShadow : Reader (Option (List TextShadow)) := do
  match ← shadowList false with
  | some parts => return some (← shadowsOf textShadowOf parts)
  | none => return none

end Styling.Grammar
