import Styling.Color.Space
import Styling.Value.Keyword
import Styling.Value.Refusal

/-!
# Linear gradients and the placement of their stops

A gradient is written as a list of pieces: color stops, which may have a position, and hints, which
have no color.  Normalization gives every stop a position and every hint a color:

* the first stop without a position stands at 0, the last one at 1;
* a written position never lies before the one in front of it;
* stops without a position are spread evenly between their neighbours that have one;
* a hint becomes a stop whose color is the mixture of its neighbours at its place between them, so
  it must have a position.

`normalizeStops` is stated over any scalar for positions, any type of colors and any way to mix
them.  The list is read from left to right as segments: a segment is a run of unplaced stops and
hints that ends with a placed stop.
-/

namespace Styling

/-- One entry of a list of stops as it is written: a stop with a color, which may lack a position,
or a hint, which has no color and cannot be placed without a position. -/
inductive StopPiece (κ α : Type)
  | stop (color : κ) (position : Option α)
  | hint (position : Option α)
  deriving BEq, DecidableEq, Repr

/-- A stop of a gradient: its position and its color. -/
structure Stop (κ α : Type) where
  position : α
  color : κ
  deriving BEq, DecidableEq, Repr

/-- Why a list of pieces is no gradient. -/
inductive StopsError (ε : Type)
  | malformed (reason : Reason)
  /-- A hint between two stops has no position. -/
  | unplacedHint
  | mixing (error : ε)
  deriving DecidableEq, Repr

namespace StopPiece

variable {κ α ε : Type}

/-- The piece is a hint. -/
def isHint : StopPiece κ α → Bool
  | hint _ => true
  | stop _ _ => false

/-- Give a stop a position unless it has one. -/
def withDefault (default : α) : StopPiece κ α → StopPiece κ α
  | stop color position => stop color (some (position.getD default))
  | hint position => hint position

/-- Apply a function to the last entry of a list. -/
def mapLast (f : StopPiece κ α → StopPiece κ α) : List (StopPiece κ α) → List (StopPiece κ α)
  | [] => []
  | [p] => [f p]
  | p :: ps => p :: mapLast f ps

/-- Give the first and the last piece their default positions. -/
def withEnds [OfNat α 0] [OfNat α 1] : List (StopPiece κ α) → List (StopPiece κ α)
  | [] => []
  | p :: ps => mapLast (withDefault 1) (p.withDefault 0 :: ps)

@[simp] theorem length_mapLast (f : StopPiece κ α → StopPiece κ α) (ps : List (StopPiece κ α)) :
    (mapLast f ps).length = ps.length := by
  fun_induction mapLast f ps with
  | case1 => rfl
  | case2 => rfl
  | case3 p ps _ ih => simp [ih]

/-- Default positions neither add nor lose a piece. -/
@[simp] theorem length_withEnds [OfNat α 0] [OfNat α 1] (ps : List (StopPiece κ α)) :
    (withEnds ps).length = ps.length := by
  cases ps <;> simp [withEnds]

/-- The first fault in the shape of a list of pieces, apart from adjacent hints. -/
def shapeError? (ps : List (StopPiece κ α)) : Option Reason :=
  if (ps.filter fun p => !p.isHint).length < 2 then some .stopsTooFew
  else if ps.head?.any isHint then some .hintFirst
  else if ps.getLast?.any isHint then some .hintLast
  else none

/-- The stops and hints of a segment before its placed end, how many of them are stops, the placed
end, and the pieces after it. -/
structure Segment (κ α : Type) where
  inner : List (StopPiece κ α)
  unplaced : Nat
  endColor : κ
  endPosition : α
  rest : List (StopPiece κ α)

/-- Split the first segment off a list of pieces; none if no stop in it has a position. -/
def segment? : List (StopPiece κ α) → Option (Segment κ α)
  | [] => none
  | stop color (some position) :: ps => some ⟨[], 0, color, position, ps⟩
  | p :: ps =>
    (segment? ps).map fun s =>
      { s with inner := p :: s.inner, unplaced := s.unplaced + if p.isHint then 0 else 1 }

/-- What is left after the first segment is shorter. -/
theorem length_rest_segment? {ps : List (StopPiece κ α)} {s : Segment κ α}
    (h : segment? ps = some s) : s.rest.length < ps.length := by
  fun_induction segment? ps generalizing s with
  | case1 => simp at h
  | case2 color position ps => simp_all; subst h; simp
  | case3 p ps _ ih =>
    obtain ⟨t, ht, rfl⟩ := Option.map_eq_some_iff.1 h
    have := ih ht
    simp only [List.length_cons]
    omega

/-- Place the pieces of a segment.  `start` is the position at which the segment starts, `step` the
distance of its unplaced stops and `placed` the number of them that are placed already; `before` is
the stop in front and `hint` the hint that waits for the stop after it, as its position. -/
def placeInner [Add α] [Mul α] [LT α] [DecidableLT α] (ofNat : Nat → α)
    (mix : Stop κ α → Stop κ α → α → Except ε κ) (start step : α) (last : Stop κ α)
    (placed : Nat) (before : Stop κ α) (hint : Option (Option α)) :
    List (StopPiece κ α) → Except (StopsError ε) (List (Stop κ α))
  | [] => finishStop before hint last
  | p :: ps =>
    match p with
    | .hint position =>
      match hint with
      | some _ => .error (.malformed .hintsAdjacent)
      | none => placeInner ofNat mix start step last placed before (some position) ps
    | .stop color _ => do
      let stop : Stop κ α := ⟨start + step * ofNat (placed + 1), color⟩
      let placedStops ← finishStop before hint stop
      let more ← placeInner ofNat mix start step last (placed + 1) stop none ps
      return placedStops ++ more
where
  /-- The stop itself, after the hint that waits for it. -/
  finishStop (before : Stop κ α) (hint : Option (Option α)) (stop : Stop κ α) :
      Except (StopsError ε) (List (Stop κ α)) :=
    match hint with
    | none => .ok [stop]
    | some none => .error .unplacedHint
    | some (some raw) =>
      let position := clamp before.position stop.position raw
      match mix before stop position with
      | .ok color => .ok [⟨position, color⟩, stop]
      | .error e => .error (.mixing e)

/-- Place the pieces after a stop, segment by segment. -/
def placeFrom [Add α] [Sub α] [Mul α] [Div α] [LT α] [DecidableLT α] (ofNat : Nat → α)
    (mix : Stop κ α → Stop κ α → α → Except ε κ) (before : Stop κ α)
    (ps : List (StopPiece κ α)) : Except (StopsError ε) (List (Stop κ α)) :=
  match _h : segment? ps with
  | none => .ok []
  | some s => do
    let last : Stop κ α := ⟨larger s.endPosition before.position, s.endColor⟩
    let step := (last.position - before.position) / ofNat (s.unplaced + 1)
    let stops ← placeInner ofNat mix before.position step last 0 before none s.inner
    let more ← placeFrom ofNat mix last s.rest
    return stops ++ more
termination_by ps.length
decreasing_by exact length_rest_segment? ‹_›

end StopPiece

/-- Give every piece of a gradient a position and a color; `ofNat` takes the number of stops into
the scalar and `mix` gives the color of a hint between two stops. -/
def normalizeStops {κ α ε : Type} [Add α] [Sub α] [Mul α] [Div α] [LT α] [DecidableLT α]
    [OfNat α 0] [OfNat α 1] (ofNat : Nat → α) (mix : Stop κ α → Stop κ α → α → Except ε κ)
    (pieces : List (StopPiece κ α)) : Except (StopsError ε) (List (Stop κ α)) :=
  match StopPiece.shapeError? pieces with
  | some reason => .error (.malformed reason)
  | none =>
    match StopPiece.withEnds pieces with
    | .stop color (some position) :: ps => do
      let first : Stop κ α := ⟨position, color⟩
      let rest ← StopPiece.placeFrom ofNat mix first ps
      return first :: rest
    | _ => .ok []

/-- Positions that lie closer together than this count as one. -/
def stopEpsilon : Float := 1.1920929e-07

/-- The paint of a hint between two stops: the text color if one of them has it, otherwise the
mixture at the hint's place between them. -/
def hintPaint (space : ColorSpace) (direction : HueDirection) (before after : Stop Paint Float)
    (position : Float) : Except Fault Paint :=
  match before.color, after.color with
  | .color first, .color second => do
    let span := after.position - before.position
    let t :=
      if stopEpsilon < span.abs then clamp 0.0 1.0 ((position - before.position) / span) else 0.5
    return .color (← Color.mix first second t space direction)
  | _, _ => .ok .current

/-- The direction of a gradient: to a side or corner, or an angle in radians. -/
inductive GradientAngle
  | side (s : GradientSide)
  | radians (angle : Float)
  deriving BEq, DecidableEq, Repr

/-- A linear gradient with its stops in order. -/
structure LinearGradient where
  angle : GradientAngle
  stops : List (Stop Paint Float)
  space : ColorSpace
  hue : HueDirection
  deriving BEq, DecidableEq, Repr

namespace LinearGradient

/-- The words before the stops, empty if all is as by default. -/
def introduction (g : LinearGradient) : List String :=
  let angle := match g.angle with
    | .side .bottom => []
    | .side s => [s.keyword]
    | .radians angle => [literal angle ++ "rad"]
  let hue := if g.hue = .shorter then [] else [g.hue.keyword ++ " hue"]
  let space := if g.space = .srgb ∧ g.hue = .shorter then [] else ["in " ++ g.space.keyword]
  angle ++ space ++ hue

/-- A stop as it stands in a style. -/
def stopCss (s : Stop Paint Float) : Except Fault String := do
  let color ← s.color.css
  let percent ← styleNumber (s.position * 100.0)
  return s!"{color} {percent}%"

/-- A gradient as it stands in a style. -/
def css (g : LinearGradient) : Except Fault String := do
  let introduction := g.introduction
  let stops ← g.stops.mapM stopCss
  let parts :=
    (if introduction.isEmpty then [] else [String.intercalate " " introduction]) ++ stops
  return "linear-gradient(" ++ String.intercalate ", " parts ++ ")"

end LinearGradient

end Styling
