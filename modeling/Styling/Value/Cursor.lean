import Styling.Text.Blank
import Styling.Syntax.Component
import Styling.Value.Refusal

/-!
# Reading a value component by component

A `Cursor` stands between two components of a value.  Readers skip whitespace, can step back to a
place they have been at, and are refused with a `var()` refusal the moment they would take a `var()`
call, so that any reader can be abandoned until custom properties are known.

* `Cursor` holds the components, the offset where the value ends and the index of the next
  component.
* `Reader` is a computation that moves a cursor; the cursor is kept also when the reader is refused.
* `Leaf` reads a single component, and `Reader.leaf` applies it to the next one.
* `Reader.attempt` steps back from an ordinary refusal; `var()` refusals and faults go through.
* `Reader.foldWhile` is the one loop: it feeds the components in turn to a step, which may go on,
  stop before a component, or be refused.
-/

namespace Styling

/-- A place between the components of a value. -/
structure Cursor where
  source : Source
  components : List Component
  /-- The offset at which the value ends. -/
  stop : Nat
  index : Nat
  deriving Repr

namespace Cursor

/-- A cursor before the first component of a value that ends at an offset. -/
def ofComponents (source : Source) (components : List Component) (stop : Nat) : Cursor :=
  ⟨source, components, stop, 0⟩

/-- A cursor over components that end where the last of them ends. -/
def ofList (source : Source) (components : List Component) : Cursor :=
  ofComponents source components (components.getLast?.elim 0 Component.stop)

/-- Read a text as a value of its own; a text with a syntax error is refused. -/
def ofText (text : String) : Except ReadError Cursor := do
  let source := Source.ofString text
  let parsed ← ReadError.ofFault source.components
  match parsed.errors with
  | e :: _ => throw (.invalid (.syntaxProblem e.problem) e.location)
  | [] => return ofComponents source parsed.value source.length

/-- A cursor over the inside of a function or block. -/
def nested (c : Cursor) (group : Component) : Cursor :=
  ofComponents c.source group.children (group.stop - 1)

/-- The components after the cursor. -/
def rest (c : Cursor) : List Component :=
  c.components.drop c.index

/-- The same cursor at another index. -/
def moveTo (c : Cursor) (index : Nat) : Cursor :=
  { c with index := index }

/-- The number of whitespace components after the cursor. -/
def blanks (c : Cursor) : Nat :=
  (c.rest.takeWhile Component.isWhitespace).length

/-- The cursor after the whitespace that follows it. -/
def skipWhitespace (c : Cursor) : Cursor :=
  c.moveTo (c.index + c.blanks)

/-- The next component that is no whitespace. -/
def peek (c : Cursor) : Option Component :=
  (c.rest.dropWhile Component.isWhitespace).head?

/-- Only whitespace follows. -/
def isExhausted (c : Cursor) : Bool :=
  c.peek.isNone

/-- The location of the first component that is no whitespace, or of the end of the value. -/
def locationIn (source : Source) (stop : Nat) (cs : List Component) : Location :=
  source.location ((cs.dropWhile Component.isWhitespace).head?.elim stop Component.start)

/-- The location of the next component that is no whitespace, or of the end of the value. -/
def location (c : Cursor) : Location :=
  locationIn c.source c.stop c.rest

/-- The source text from the component at an index up to the component before the cursor. -/
def sliceFrom (c : Cursor) (index : Nat) : String :=
  if c.index ≤ index then ""
  else
    match c.components[index]?, c.components[c.index - 1]? with
    | some first, some last => c.source.slice first.start last.stop
    | _, _ => ""

/-- The trimmed source text of everything after the cursor. -/
def remaining (c : Cursor) : String :=
  match c.rest with
  | [] => ""
  | first :: _ => Text.trim (c.source.slice first.start c.stop)

/-- Cut components at their commas; each part ends at its comma, the last one at `stop`. -/
def splitAtCommas (stop : Nat) : List Component → List (List Component × Nat)
  | [] => [([], stop)]
  | c :: cs =>
    if c.isComma then ([], c.start) :: splitAtCommas stop cs
    else
      match splitAtCommas stop cs with
      | (part, partStop) :: parts => (c :: part, partStop) :: parts
      | [] => [([c], stop)]

/-- There is always a part, if only an empty one. -/
theorem splitAtCommas_ne_nil (stop : Nat) (cs : List Component) : splitAtCommas stop cs ≠ [] := by
  cases cs with
  | nil => simp [splitAtCommas]
  | cons c cs =>
    rw [splitAtCommas]
    split
    · simp
    · split <;> simp

/-- Cursors over the parts between the commas after a cursor. -/
def commaParts (c : Cursor) : List Cursor :=
  (splitAtCommas c.stop c.rest).map fun part => ofComponents c.source part.1 part.2

/-- The refusal of a value for a stated reason, at a component or at what follows the cursor;
without a statement the component, or the lack of one, is the reason. -/
def statedRefusal (c : Cursor) (message : String) (component : Option Component) : Refusal :=
  match component with
  | some component =>
    .invalid (if message.isEmpty then .unexpected (c.source.textOf component) else .stated message)
      (c.source.locationOf component)
  | none => .invalid (if message.isEmpty then .unexpectedValue else .stated message) c.location

/-- The refusal of a component that is not supported, for a stated reason if there is one. -/
def statedUnsupported (c : Cursor) (message : String) (component : Component) : Refusal :=
  .unsupported
    (if message.isEmpty then .notSupported (c.source.textOf component) else .stated message)
    (c.source.locationOf component)

/-- The cursor after the last component. -/
def toEnd (c : Cursor) : Cursor :=
  c.moveTo (max c.index c.components.length)

end Cursor

/-- A computation that moves a cursor and may be refused. -/
abbrev Reader := EStateM ReadError Cursor

/-- A reader of a single component, which is no whitespace. -/
abbrev Leaf (α : Type) := Source → Component → Except ReadError α

namespace Leaf

/-- The refusal of a component that does not fit. -/
def unexpected {α : Type} : Leaf α := fun source c =>
  .error (.invalid (.unexpected (source.textOf c)) (source.locationOf c))

/-- The refusal of a component that is recognized and not supported. -/
def unsupported {α : Type} : Leaf α := fun source c =>
  .error (.unsupported (.notSupported (source.textOf c)) (source.locationOf c))

/-- The refusal of a component for a stated reason. -/
def refuse {α : Type} (reason : Reason) : Leaf α := fun source c =>
  .error (.invalid reason (source.locationOf c))

/-- The refusal of a component that is or holds a `var()` call. -/
def varCall {α : Type} : Leaf α := fun source c =>
  .error (.varCall (source.locationOf c))

/-- Refuse a component that is a `var()` call. -/
def noVar : Leaf Unit := fun source c =>
  if c.isVar then varCall source c else .ok ()

/-- Refuse a component that is a `var()` call or has one inside it. -/
def noNestedVar : Leaf Unit := fun source c =>
  if c.containsVar then varCall source c else .ok ()

end Leaf

/-- Why a step of a loop is refused: for a component, or for a reason that is reported at whatever
follows the component. -/
inductive StepError
  | here (error : ReadError)
  | following (reason : Reason)
  deriving DecidableEq, Repr

namespace StepError

/-- The error of a step, given the location of what follows its component. -/
def resolve (following : Location) : StepError → ReadError
  | here error => error
  | .following reason => .invalid reason following

/-- A step that reads its component with a leaf. -/
def ofLeaf {α : Type} : Except ReadError α → Except StepError α
  | .ok a => .ok a
  | .error e => .error (.here e)

end StepError

namespace Reader

/-- The source text of the value. -/
def source : Reader Source := return (← get).source

/-- A question about the cursor. -/
def ask {α : Type} (f : Cursor → α) : Reader α := return f (← get)

/-- The result of a computation that moves no cursor. -/
def ofExcept {α : Type} : Except ReadError α → Reader α
  | .ok a => pure a
  | .error e => throw e

/-- Be refused for a reason at the next component or the end. -/
def refuse {α : Type} (reason : Reason) : Reader α := do
  throw (.invalid reason (← get).location)

/-- Take the next component that is no whitespace, which must be there. -/
def nextComponent : Reader Component := do
  modify Cursor.skipWhitespace
  let c ← get
  match c.rest with
  | [] => throw (.invalid .unexpectedEnd (c.source.location c.stop))
  | component :: _ =>
    set (c.moveTo (c.index + 1))
    return component

/-- Take the next component that is no whitespace; it must be there and be no `var()` call. -/
def next : Reader Component := do
  let component ← nextComponent
  ofExcept (Leaf.noVar (← source) component)
  return component

/-- Take the next component, whitespace or not, if there is one. -/
def nextRaw : Reader (Option Component) := do
  let c ← get
  match c.rest with
  | [] => return none
  | component :: _ =>
    set (c.moveTo (c.index + 1))
    return some component

/-- Read the next component. -/
def leaf {α : Type} (f : Leaf α) : Reader α := do
  let component ← next
  ofExcept (f (← source) component)

/-- Be refused if anything but whitespace follows. -/
def expectExhausted : Reader Unit := do
  match (← get).peek with
  | none => return
  | some component =>
    let source ← source
    ofExcept (Leaf.noNestedVar source component)
    ofExcept (Leaf.unexpected source component)

/-- Run a reader; step back and give nothing if it is refused.  A `var()` refusal and a fault are
passed on. -/
def attempt {α : Type} (r : Reader α) : Reader (Option α) := fun c =>
  match r.run c with
  | .ok a c' => .ok (some a) c'
  | .error (.refused (.invalid _ _)) _ => .ok none c
  | .error (.refused (.unsupported _ _)) _ => .ok none c
  | .error e c' => .error e c'

/-- The step back that `attempt` takes, on the result of a leaf. -/
def attempted {α : Type} : Except ReadError α → Except ReadError (Option α)
  | .ok a => .ok (some a)
  | .error (.refused (.invalid _ _)) => .ok none
  | .error (.refused (.unsupported _ _)) => .ok none
  | .error e => .error e

/-- An identifier. -/
def identLeaf : Leaf String := fun source c =>
  match c with
  | .token ⟨.ident name, _⟩ => .ok name
  | _ => Leaf.unexpected source c

/-- An identifier that must be one of some lowercase keywords. -/
def keywordLeaf (keywords : List String) : Leaf String := fun source c => do
  let name ← identLeaf source c
  let lowered := Text.lowercase name
  if keywords.contains lowered then return lowered else Leaf.unexpected source c

/-- Read one of some lowercase keywords. -/
def keyword (keywords : List String) : Reader String := leaf (keywordLeaf keywords)

/-- Read one of some lowercase keywords, if one stands here. -/
def tryKeyword (keywords : List String) : Reader (Option String) := attempt (keyword keywords)

/-- A keyword is all that remains; it is taken if so. -/
def isKeywordExhausted (word : String) : Reader Bool := fun c =>
  match c.rest.dropWhile Component.isWhitespace with
  | component :: _ =>
    let after := c.moveTo (c.index + c.blanks + 1)
    if component.isKeyword word && after.isExhausted then .ok true after else .ok false c
  | [] => .ok false c

/-- Read a comma. -/
def expectComma : Reader Unit :=
  leaf fun source c => if c.isComma then .ok () else Leaf.unexpected source c

/-- Take a comma if one stands here, and tell whether it did. -/
def tryComma : Reader Bool := do
  match (← get).peek with
  | some component =>
    if component.isComma then
      let _ ← next
      return true
    else return false
  | none => return false

/-- A function. -/
def functionLeaf : Leaf Component := fun source c =>
  match c with
  | .group (.function _) _ _ _ => .ok c
  | _ => Leaf.unexpected source c

/-- A percentage, as a fraction. -/
def percentageLeaf : Leaf Float := fun source c =>
  match c with
  | .token ⟨.percentage n, _⟩ => ReadError.ofFault n.quantity.hundredth
  | _ => Leaf.unexpected source c

/-- A number without unit. -/
def numberLeaf : Leaf Float := fun source c =>
  match c with
  | .token ⟨.number n, _⟩ => ReadError.ofFault n.toFloat
  | _ => Leaf.unexpected source c

/-- The next component is a percentage. -/
def peeksPercentage : Reader Bool := do
  match (← get).peek with
  | some (.token ⟨.percentage _, _⟩) => return true
  | _ => return false

/-- Feed components in turn to a step, from an index on.  The step gives the next state, or nothing
to stop before the component; at the end the loop stops as well.  The index returned is the one
after the last component taken. -/
def foldComponents {σ : Type} (source : Source) (stop : Nat)
    (step : σ → Component → Except StepError (Option σ)) (lastIndex index : Nat) (state : σ) :
    List Component → Nat × Except ReadError σ
  | [] => (lastIndex, .ok state)
  | c :: cs =>
    if c.isWhitespace then foldComponents source stop step lastIndex (index + 1) state cs
    else
      match step state c with
      | .ok (some next) => foldComponents source stop step (index + 1) (index + 1) next cs
      | .ok none => (lastIndex, .ok state)
      | .error e => (index + 1, .error (e.resolve (Cursor.locationIn source stop cs)))

/-- Feed the components after the cursor in turn to a step, until it stops or nothing is left. -/
def foldWhile {σ : Type} (step : σ → Component → Except StepError (Option σ)) (state : σ) :
    Reader σ := fun c =>
  match foldComponents c.source c.stop step c.index c.index state c.rest with
  | (index, .ok final) => .ok final (c.moveTo index)
  | (index, .error e) => .error e (c.moveTo index)

/-- Feed every component after the cursor in turn to a step. -/
def foldAll {σ : Type} (step : σ → Component → Except StepError σ) (state : σ) : Reader σ :=
  foldWhile (fun s c => (step s c).map some) state

/-- Run a reader on the inside of a function or block, which it must use up. -/
def inside {α : Type} (r : Reader α) (c : Cursor) : Except ReadError α :=
  match (do let a ← r; expectExhausted; return a : Reader α).run c with
  | .ok a _ => .ok a
  | .error e _ => .error e

end Reader

end Styling
