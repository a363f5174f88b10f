import Styling.Syntax.Component
import Styling.Variable.Context
import Styling.Variable.Event

/-!
# Substitution of custom properties

A pass replaces every outermost `var()` call of a text by the value of its name, or by the fallback
that the call gives.  Passes are repeated until one replaces nothing, at most as often as a limit
allows.

* `Component.splices` walks through the components in the order of the text and lists what is
  replaced.
* `Splice.render` puts the replacements into the text.
* `substitute` is one pass, and `resolve` the repetition.
-/

namespace Styling

/-- Why a text with `var()` calls has no value. -/
inductive ResolveProblem
  | unresolved
  | depthExceeded
  | notReadable
  deriving DecidableEq, Repr

namespace ResolveProblem

/-- The wording of a problem. -/
def message : ResolveProblem → String
  | unresolved => "Unresolved var() reference (no fallback)"
  | depthExceeded => "var() expansion limit exceeded (possible cycle)"
  | notReadable => "Invalid value after var() expansion"

end ResolveProblem

/-- A problem with the text in which it arose and the place of that text. -/
structure ResolveError where
  problem : ResolveProblem
  raw : String
  location : Location
  deriving DecidableEq, Repr

namespace ResolveError

/-- The wording of an error. -/
def message (e : ResolveError) : String :=
  e.problem.message ++ ": `" ++ e.raw ++ "`"

end ResolveError

/-- A stretch of text and what it is replaced by. -/
structure Splice where
  span : Span
  replacement : String
  deriving DecidableEq, Repr

namespace Splice

/-- Put replacements, which follow each other without overlap, into a text that starts at offset
`start`. -/
def render (start : Nat) (text : List Char) : List Splice → List Char
  | [] => text
  | s :: ss =>
    text.take (s.span.start - start) ++ s.replacement.toList ++
      render s.span.stop (text.drop (s.span.stop - start)) ss

end Splice

namespace Component

/-- The component is a closing bracket that closes nothing. -/
def isStray : Component → Bool
  | token ⟨.closing _, _⟩ => true
  | _ => false

mutual

/-- The component is or holds a closing bracket that closes nothing. -/
def hasStray : Component → Bool
  | token t => isStray (token t)
  | group _ _ cs _ => listHasStray cs

/-- Some component is or holds a closing bracket that closes nothing. -/
def listHasStray : List Component → Bool
  | [] => false
  | c :: cs => c.hasStray || listHasStray cs

end

/-- What a `var()` call gives: a name, and the components of a fallback if there is a comma. -/
structure VarCall where
  name : String
  fallback : Option (List Component)
  deriving Repr

/-- Read the inside of a `var()` call. -/
def varCall? (cs : List Component) : Option VarCall :=
  match cs.dropWhile isWhitespace with
  | .token ⟨.ident name, _⟩ :: rest =>
    match rest.dropWhile isWhitespace with
    | [] => some ⟨name, none⟩
    | .token ⟨.comma, _⟩ :: fallback => some ⟨name, some (fallback.dropWhile isWhitespace)⟩
    | _ => none
  | _ => none

/-- The text of a fallback that ends at an offset. -/
def fallbackText (source : Source) (stop : Nat) : List Component → String
  | [] => ""
  | c :: _ => source.slice c.start stop

/-- The replacement of a `var()` call whose inside ends at an offset. -/
def varReplacement (source : Source) (vars : Variables) (stop : Nat) (cs : List Component) :
    Except ResolveProblem String :=
  match varCall? cs with
  | none => .error .notReadable
  | some call =>
    if listHasStray (call.fallback.getD []) then .error .notReadable
    else
      match vars.lookup call.name, call.fallback with
      | some value, _ => .ok value
      | none, some fallback => .ok (fallbackText source stop fallback)
      | none, none => .error .unresolved

mutual

/-- The replacements inside a component. -/
def splices (source : Source) (vars : Variables) :
    Component → Except ResolveProblem (List Splice)
  | token t => if isStray (token t) then .error .notReadable else .ok []
  | group opener opened cs ending =>
    if opener.isFunction "var" then
      match varReplacement source vars (ending.stop - 1) cs with
      | .ok replacement => .ok [⟨⟨opened.start, ending.stop⟩, replacement⟩]
      | .error e => .error e
    else listSplices source vars cs

/-- The replacements inside components, in order; the first problem counts. -/
def listSplices (source : Source) (vars : Variables) :
    List Component → Except ResolveProblem (List Splice)
  | [] => .ok []
  | c :: cs =>
    match c.splices source vars with
    | .error e => .error e
    | .ok first =>
      match listSplices source vars cs with
      | .error e => .error e
      | .ok rest => .ok (first ++ rest)

end

end Component

/-- One pass over a text: the new text and the number of replacements. -/
def substitute (text : String) (vars : Variables) :
    Except Fault (Except ResolveProblem (String × Nat)) := do
  let source := Source.ofString text
  let parsed ← source.components
  if !parsed.errors.isEmpty then return .error .notReadable
  match Component.listSplices source vars parsed.value with
  | .error e => return .error e
  | .ok splices =>
    return .ok (String.ofList (Splice.render 0 source.chars splices), splices.length)

/-- Repeat passes over `text`, at most `limit` times, until one replaces nothing. -/
def resolveFrom (vars : Variables) (text : String) :
    Nat → Traced Fault (Except ResolveProblem String)
  | 0 => pure (.error .depthExceeded)
  | limit + 1 => do
    match ← Traced.ofExcept (substitute text vars) with
    | .error e => return .error e
    | .ok (expanded, count) =>
      if count = 0 then return .ok text
      Traced.report (.varsExpanded count expanded)
      resolveFrom vars expanded limit

/-- The number of passes unless another limit is set. -/
def defaultVarLimit : Int := 8

/-- Replace the `var()` calls of a text until none is left. -/
def resolve (raw : String) (location : Location) (vars : Variables) (limit : Int) :
    Traced Fault (Except ResolveError String) := do
  match ← resolveFrom vars raw limit.toNat with
  | .ok text => return .ok text
  | .error problem => return .error ⟨problem, raw, location⟩

/-- Replace the `var()` calls of a text within a limit that has to be given. -/
def resolveWithin (limit : Option Int) (raw : String) (location : Location) (vars : Variables) :
    Traced Fault (Except ResolveError String) :=
  match limit with
  | some limit => resolve raw location vars limit
  | none => Traced.ofExcept (.error .missingOperand)

end Styling
