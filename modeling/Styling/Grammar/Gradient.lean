import Styling.Grammar.Leaf

/-!
# Gradients

The inside of a `linear-gradient` call is an optional direction and an optional color space,
followed by a comma, and then the color stops and hints.  A background image is a list of such
calls.
-/

namespace Styling.Grammar

/-- The words that name the sides of a box. -/
def sideWords : List String := ["left", "right", "top", "bottom"]

/-- The word of a component that names a side. -/
def sideWord? : Component → Option String
  | .token ⟨.ident name, _⟩ =>
    let word := Text.lowercase name
    if sideWords.contains word then some word else none
  | _ => none

/-- Up to `count` more words that name sides, each different from the ones read. -/
def sidesAfter (words : List String) : Nat → Reader (List String)
  | 0 => return words
  | count + 1 => do
    match ← Reader.ask Cursor.peek with
    | none => return words
    | some c =>
      match sideWord? c with
      | none => return words
      | some word =>
        let _ ← Reader.next
        if words.contains word then
          let source ← Reader.source
          Reader.ofExcept (Leaf.unexpected source c)
        else sidesAfter (words ++ [word]) count

/-- A side or corner, after the word `to`. -/
def gradientSide : Reader GradientSide := do
  let _ ← Reader.keyword ["to"]
  let words ← sidesAfter [] 2
  match GradientSide.ofWords? words with
  | some side => return side
  | none => Reader.refuse .sideMissing

/-- The direction of a gradient: an angle, or a side or corner. -/
def gradientAngle : Reader GradientAngle := do
  match ← Reader.attempt (Reader.leaf angle) with
  | some radians => return .radians radians
  | none => return .side (← gradientSide)

/-- A color space, after the word `in`. -/
def colorSpace : Leaf ColorSpace := fun source c =>
  match c with
  | .token ⟨.ident name, _⟩ =>
    let word := Text.lowercase name
    if ColorSpace.notSupported.contains word then Leaf.unsupported source c
    else
      match ColorSpace.ofKeyword? word with
      | some space => .ok space
      | none => Leaf.unexpected source c
  | _ => Leaf.unexpected source c

/-- A hue direction and the word `hue`. -/
def hueDirection : Reader HueDirection := do
  let direction ← Reader.leaf (keyword (HueDirection.all.map fun d => (d.keyword, d)))
  let _ ← Reader.keyword ["hue"]
  return direction

/-- A color space and an optional hue direction, after the word `in`. -/
def interpolation : Reader (ColorSpace × HueDirection) := do
  let space ← Reader.leaf colorSpace
  let direction ← Reader.attempt hueDirection
  return (space, direction.getD .shorter)

/-- Where a list of color stops stands. -/
inductive StopState
  /-- A stop or hint has to follow. -/
  | expecting
  /-- After a hint. -/
  | afterHint
  /-- After a color and as many positions as given. -/
  | afterColor (paint : Paint) (positions : List Float)
  deriving Repr

namespace StopState

/-- The pieces of a color with its positions: one for each position, or one without position. -/
def stopPieces (paint : Paint) : List Float → List (StopPiece Paint Float)
  | [] => [.stop paint none]
  | positions => positions.map fun position => .stop paint (some position)

/-- The pieces that are complete once the state is left. -/
def pending : StopState → List (StopPiece Paint Float)
  | afterColor paint positions => stopPieces paint positions
  | _ => []

/-- A component is a percentage. -/
def isPercentage : Component → Bool
  | .token ⟨.percentage _, _⟩ => true
  | _ => false

/-- Read a component of a list of color stops, or stop before it. -/
def step (source : Source) (s : List (StopPiece Paint Float) × StopState) (c : Component) :
    Except StepError (Option (List (StopPiece Paint Float) × StopState)) :=
  StepError.ofLeaf <|
    match s with
    | (pieces, expecting) =>
      if isPercentage c then do
        return some (pieces ++ [.hint (some (← Reader.percentageLeaf source c))], afterHint)
      else do
        Leaf.noVar source c
        return some (pieces, afterColor (← paint source c) [])
    | (pieces, afterColor p positions) =>
      if isPercentage c && positions.length < 2 then do
        return some (pieces, afterColor p (positions ++ [← Reader.percentageLeaf source c]))
      else if c.isComma then .ok (some (pieces ++ stopPieces p positions, expecting))
      else .ok none
    | (pieces, afterHint) => if c.isComma then .ok (some (pieces, expecting)) else .ok none

end StopState

/-- The stops and hints of a gradient.  At the end of the text one more is wanted after a comma. -/
def stopPieces : Reader (List (StopPiece Paint Float)) := do
  let source ← Reader.source
  let (pieces, state) ← Reader.foldWhile (StopState.step source) ([], .expecting)
  match state with
  | .expecting => Reader.leaf Leaf.unexpected
  | _ => return pieces ++ state.pending

/-- The placed stops of a gradient. -/
def placedStops (space : ColorSpace) (direction : HueDirection)
    (pieces : List (StopPiece Paint Float)) : Reader (List (Stop Paint Float)) :=
  match normalizeStops Float.ofNat (hintPaint space direction) pieces with
  | .ok stops => pure stops
  | .error (.malformed reason) => Reader.refuse reason
  | .error .unplacedHint => throw (.fault .missingOperand)
  | .error (.mixing fault) => throw (.fault fault)

/-- The inside of a `linear-gradient` call. -/
def linearGradient : Reader LinearGradient := do
  let angle ← Reader.attempt gradientAngle
  let hasSpace := (← Reader.tryKeyword ["in"]).isSome
  let (space, direction) ← if hasSpace then interpolation else pure (.srgb, .shorter)
  if angle.isSome || hasSpace then Reader.expectComma
  let pieces ← stopPieces
  Reader.expectExhausted
  let stops ← placedStops space direction pieces
  return ⟨angle.getD (.side .bottom), stops, space, direction⟩

/-- A part of a background image: a single `linear-gradient` call. -/
def gradientCall : Reader LinearGradient := do
  let call ← Reader.leaf fun source c => do
    let f ← Reader.functionLeaf source c
    if f.isCall "linear-gradient" then return f else Leaf.unexpected source c
  let cursor ← Reader.ask id
  Reader.ofExcept (linearGradient.inside (cursor.nested call))

/-- A list of gradients, or nothing for the keyword `none`. -/
def backgroundImage : Reader (Option (List LinearGradient)) := do
  if ← Reader.isKeywordExhausted "none" then return none
  let parts ← Reader.ask Cursor.commaParts
  modify Cursor.toEnd
  let gradients ← Reader.ofExcept (parts.mapM gradientCall.inside)
  return some gradients

end Styling.Grammar
