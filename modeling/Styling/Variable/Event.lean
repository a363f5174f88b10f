import Styling.Syntax.Declaration
import Styling.Value.Refusal

/-!
# Events and computations that report them

What goes wrong in a style sheet is reported and skipped.  An `Event` is one such report, with a
level and a wording; `Traced` computations collect events in order, and keep those reported so far
also when they fail.
-/

namespace Styling

/-- How serious an event is. -/
inductive Level
  | debug
  | info
  | warning
  | error
  deriving DecidableEq, Repr

/-- The name of a level. -/
def Level.name : Level → String
  | debug => "DEBUG"
  | info => "INFO"
  | warning => "WARNING"
  | error => "ERROR"

/-- Something that is reported while a sheet is read, loaded or applied. -/
inductive Event
  /-- Something was skipped, at a place in a file. -/
  | skipped (message : String) (location : Location) (file : Option String)
  /-- Why something was skipped. -/
  | detail (message : String)
  | importantIgnored (snippet : String)
  | atRuleSkipped (name : String)
  | rulesRead (count : Nat) (file : Option String)
  | varsExpanded (count : Nat) (text : String)
  | rereadFailed (text message : String)
  | propertyKept (name : String)
  | charsetUnknown (label fallback : String)
  | fileMissing (path : String)
  | sheetReloaded (path : String)
  deriving DecidableEq, Repr

/-- The name shown for a file, also if it has none. -/
def shownFileName (file : Option String) : String :=
  match file with
  | some name => if name.isEmpty then "<no-filename>" else name
  | none => "<no-filename>"

/-- A location in a file. -/
def Location.inFile (l : Location) (file : Option String) : String :=
  shownFileName file ++ ":" ++ l.text

/-- Why a missing file cannot be read. -/
def missingFileReason (path : String) : String :=
  "[Errno 2] No such file or directory: " ++ Text.quoted path

namespace Event

/-- The level of an event. -/
def level : Event → Level
  | skipped _ _ _ => .error
  | importantIgnored _ | atRuleSkipped _ | charsetUnknown _ _ | fileMissing _ => .warning
  | sheetReloaded _ => .info
  | detail _ | rulesRead _ _ | varsExpanded _ _ | rereadFailed _ _ | propertyKept _ => .debug

/-- The wording of an event. -/
def message : Event → String
  | skipped message location file => message ++ " " ++ location.inFile file
  | detail message => message
  | importantIgnored snippet => s!"`!important` is not supported and was ignored: `{snippet}`"
  | atRuleSkipped name => s!"Skipping unsupported at-rule `@{name}`"
  | rulesRead count file =>
    let name := shownFileName file
    s!"Parsed {count} rule(s) from {name}"
  | varsExpanded count text => s!"Expanded {count} var() call(s): `{text}`"
  | rereadFailed text message => s!"Reparse of `{text}` failed: {message}"
  | propertyKept name => s!"Leaving `{name}` unchanged"
  | charsetUnknown label fallback =>
    s!"Unknown @charset `{label}`, decoding as {fallback}"
  | fileMissing path =>
    let reason := missingFileReason path
    s!"Could not stat `{path}`: {reason}"
  | sheetReloaded path => s!"Reloaded stylesheet `{path}`"

/-- The line of an event in a log. -/
def line (e : Event) : String :=
  e.level.name ++ " " ++ e.message

/-- A declaration that is recognized and not supported was skipped. -/
def declarationUnsupported (snippet : String) : Location → Option String → Event :=
  skipped s!"Unsupported CSS value: `{snippet}`"

/-- A malformed declaration was skipped. -/
def declarationRefused (snippet : String) : Location → Option String → Event :=
  skipped s!"Failed to parse CSS property: `{snippet}`"

/-- A rule with a malformed selector was skipped. -/
def ruleRefused (line : String) : Location → Option String → Event :=
  skipped s!"Failed to parse CSS rule: `{line}`"

/-- Something that is no declaration was skipped. -/
def declarationMalformed (e : SyntaxError) (file : Option String) : Event :=
  let message := e.message
  skipped s!"Failed to parse CSS property: {message}" e.location file

/-- The shape of the text is broken. -/
def syntaxBroken (e : SyntaxError) (file : Option String) : Event :=
  skipped e.message e.location file

end Event

/-- A computation that reports events and may fail. -/
structure Traced (ε α : Type) where
  events : List Event
  result : Except ε α

namespace Traced

variable {ε α β : Type}

/-- A computation that reports nothing. -/
def ofExcept (result : Except ε α) : Traced ε α := ⟨[], result⟩

/-- Report an event. -/
def report (e : Event) : Traced ε Unit := ⟨[e], .ok ()⟩

/-- Report an event if there is one. -/
def reportAll (es : List Event) : Traced ε Unit := ⟨es, .ok ()⟩

/-- Go on with the result of a computation, unless it failed. -/
def andThen (x : Traced ε α) (f : α → Traced ε β) : Traced ε β :=
  match x.result with
  | .ok a => ⟨x.events ++ (f a).events, (f a).result⟩
  | .error e => ⟨x.events, .error e⟩

instance : Monad (Traced ε) where
  pure a := ofExcept (.ok a)
  bind := andThen

/-- Nothing is reported in front of a value. -/
@[simp] theorem andThen_ofExcept_ok (a : α) (f : α → Traced ε β) :
    (ofExcept (.ok a)).andThen f = f a := by
  simp [andThen, ofExcept]

/-- A failure is the end of a computation. -/
@[simp] theorem andThen_ofExcept_error (e : ε) (f : α → Traced ε β) :
    (ofExcept (.error e)).andThen f = ofExcept (.error e) := rfl

/-- How computations are grouped makes no difference. -/
theorem andThen_assoc {γ : Type} (x : Traced ε α) (f : α → Traced ε β) (g : β → Traced ε γ) :
    (x.andThen f).andThen g = x.andThen fun a => (f a).andThen g := by
  obtain ⟨events, result⟩ := x
  cases result with
  | error e => rfl
  | ok a =>
    cases h : (f a).result <;> simp [andThen, h]

instance : LawfulMonad (Traced ε) := LawfulMonad.mk' (Traced ε)
  (by
    rintro α ⟨events, _ | _⟩ <;> simp [Functor.map, andThen, ofExcept])
  (fun a f => andThen_ofExcept_ok a f)
  (fun x f g => andThen_assoc x f g)

/-- The result of two computations one after the other. -/
theorem result_bind (x : Traced ε α) (f : α → Traced ε β) :
    (x >>= f).result = x.result >>= fun a => (f a).result := by
  obtain ⟨events, _ | a⟩ := x <;> rfl

/-- A chain of two computations succeeds if both do. -/
theorem bind_result_eq_ok {x : Traced ε α} {f : α → Traced ε β} {b : β} :
    (x >>= f).result = .ok b ↔ ∃ a, x.result = .ok a ∧ (f a).result = .ok b := by
  obtain ⟨events, _ | a⟩ := x
  · simp [bind, andThen]
  · simp [bind, andThen]

@[simp] theorem pure_result (a : α) : (pure a : Traced ε α).result = .ok a := rfl

@[simp] theorem ofExcept_result (r : Except ε α) : (ofExcept r).result = r := rfl

@[simp] theorem report_result (e : Event) : (report e : Traced ε Unit).result = .ok () := rfl

@[simp] theorem reportAll_result (es : List Event) :
    (reportAll es : Traced ε Unit).result = .ok () := rfl

/-- Take the error of a computation to another type. -/
def mapError {ε' : Type} (f : ε → ε') (x : Traced ε α) : Traced ε' α :=
  ⟨x.events, x.result.mapError f⟩

end Traced

end Styling
