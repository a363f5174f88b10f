import Styling.Grammar.Leaf

/-!
# Transforms

A transform is a list of calls, each of which is an affine map; the maps are applied from left to
right.
-/

namespace Styling.Grammar

/-- A second argument, after an optional comma, if anything follows. -/
def secondArgument {α : Type} (leaf : Leaf α) : Reader (Option α) := do
  if ← Reader.ask Cursor.isExhausted then return none
  let _ ← Reader.tryComma
  return some (← Reader.leaf leaf)

/-- A number of arguments, each after an optional comma. -/
def moreNumbers : Nat → Reader (List Float)
  | 0 => return []
  | n + 1 => do
    let _ ← Reader.tryComma
    let x ← Reader.leaf Reader.numberLeaf
    return x :: (← moreNumbers n)

/-- The arguments of `translate`: one distance or two. -/
def translate : Reader (Affine Float) := do
  let x ← Reader.leaf distance
  let y ← secondArgument distance
  return .shift x (y.getD 0.0)

/-- The argument of `rotate`: an angle. -/
def rotate : Reader (Affine Float) := do
  let theta ← Reader.leaf angle
  let sin ← Reader.ofExcept (ReadError.ofFault (Elementary.sin theta))
  let cos ← Reader.ofExcept (ReadError.ofFault (Elementary.cos theta))
  return .rotation sin cos

/-- The arguments of `scale`: one factor or two. -/
def scale : Reader (Affine Float) := do
  let x ← Reader.leaf Reader.numberLeaf
  let y ← secondArgument Reader.numberLeaf
  return .scaling x (y.getD x)

/-- The arguments of `skew`: one angle or two. -/
def skew : Reader (Affine Float) := do
  let x ← Reader.leaf angle
  let y := (← secondArgument angle).getD 0.0
  let tanY ← Reader.ofExcept (ReadError.ofFault (Elementary.tan y))
  let tanX ← Reader.ofExcept (ReadError.ofFault (Elementary.tan x))
  return .skewing tanX tanY

/-- The arguments of `matrix`: six numbers. -/
def matrix : Reader (Affine Float) := do
  let a ← Reader.leaf Reader.numberLeaf
  let more ← moreNumbers 5
  return (Affine.ofEntries? (a :: more)).getD .identity

/-- The functions of a transform with the readers of their arguments. -/
def transformFunctions : List (String × Reader (Affine Float)) :=
  [("translate", translate), ("rotate", rotate), ("scale", scale), ("skew", skew),
    ("matrix", matrix)]

/-- A call of a function of a transform, in a value that a cursor stands in. -/
def transformCall (cursor : Cursor) : Leaf (Affine Float) := fun source c => do
  Leaf.noVar source c
  match c with
  | .group (.function name) _ _ _ =>
    match transformFunctions.lookup (Text.lowercase name) with
    | some arguments => arguments.inside (cursor.nested c)
    | none => Leaf.unsupported source c
  | _ => Leaf.unexpected source c

/-- The map of a list of calls, or the identity for the keyword `none`. -/
def transform : Reader (Affine Float) := do
  if ← Reader.isKeywordExhausted "none" then return .identity
  let cursor ← Reader.ask id
  let maps ← Reader.foldAll
    (fun ms c => StepError.ofLeaf (do return (← transformCall cursor cursor.source c) :: ms)) []
  return .compose maps.reverse

end Styling.Grammar
