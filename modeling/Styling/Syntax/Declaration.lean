import Styling.Syntax.Component

/-!
# Declarations

The inside of a block is a list of declarations that are separated by semicolons.  Each part between
two semicolons is read on its own: it is empty, or it starts with a name and a colon, or it is an
error.  Semicolons inside functions and blocks separate nothing, since they are nested.

* `splitBy` cuts a list at the entries that satisfy a test.
* `DeclarationSyntax.ofPart` reads one part.
* `DeclarationSyntax.ofComponents` reads the inside of a block.
-/

namespace Styling

/-- Cut a list at the entries that satisfy a test, which are dropped. -/
def splitBy {α : Type} (p : α → Bool) : List α → List (List α)
  | [] => [[]]
  | a :: as =>
    if p a then [] :: splitBy p as
    else
      match splitBy p as with
      | part :: parts => (a :: part) :: parts
      | [] => [[a]]

/-- There is always a part, if only an empty one. -/
theorem splitBy_ne_nil {α : Type} (p : α → Bool) (as : List α) : splitBy p as ≠ [] := by
  cases as with
  | nil => simp [splitBy]
  | cons a as =>
    rw [splitBy]
    split
    · simp
    · split <;> simp

/-- The parts on both sides of a dropped entry are cut on their own. -/
theorem splitBy_append_cons {α : Type} {p : α → Bool} {a : α} (h : p a = true)
    (as bs : List α) : splitBy p (as ++ a :: bs) = splitBy p as ++ splitBy p bs := by
  induction as with
  | nil => simp [splitBy, h]
  | cons c as ih =>
    by_cases hc : p c = true
    · simp [splitBy, hc, ih]
    · simp only [List.cons_append, splitBy, hc, ih]
      cases hs : splitBy p as with
      | nil => exact absurd hs (splitBy_ne_nil p as)
      | cons part parts => simp

/-- Drop the entries at the end of a list that satisfy a test. -/
def dropLastWhile {α : Type} (p : α → Bool) (as : List α) : List α :=
  (as.reverse.dropWhile p).reverse

/-- A name with the components of its value. -/
structure DeclarationSyntax where
  name : String
  start : Nat
  important : Bool
  value : List Component
  deriving Repr

namespace DeclarationSyntax

/-- The mark `!important` at the end of reversed components. -/
def endsImportant : List Component → Bool
  | word :: bang :: _ => bang.isTokenOf (·.isDelim "!") && word.isKeyword "important"
  | _ => false

/-- Split the mark `!important` off the components of a value. -/
def splitImportant (value : List Component) : Bool × List Component :=
  let reversed := value.reverse
  if endsImportant reversed then
    (true, dropLastWhile Component.isWhitespace (reversed.drop 2).reverse)
  else (false, value)

/-- Read what follows the name of a declaration. -/
def ofRest (source : Source) (name : String) (start : Nat) (rest : List Component) :
    Except SyntaxError DeclarationSyntax :=
  match rest.dropWhile Component.isWhitespace with
  | .token ⟨.colon, _⟩ :: afterColon =>
    let value := dropLastWhile Component.isWhitespace (afterColon.dropWhile Component.isWhitespace)
    let (important, kept) := splitImportant value
    .ok ⟨name, start, important, kept⟩
  | _ => .error (.ofOffset source .missingColon start)

/-- Read the components between two semicolons; nothing is read from whitespace alone. -/
def ofPart (source : Source) (part : List Component) :
    Option (Except SyntaxError DeclarationSyntax) :=
  match part.dropWhile Component.isWhitespace with
  | [] => none
  | .token ⟨.ident name, span⟩ :: rest => some (ofRest source name span.start rest)
  | c :: _ => some (.error (.ofOffset source .invalidDeclaration c.start))

/-- Read the components inside a block. -/
def ofComponents (source : Source) (cs : List Component) : Parsed (List DeclarationSyntax) :=
  let read := (splitBy Component.isSemicolon cs).filterMap (ofPart source)
  ⟨read.filterMap fun r => match r with | .ok d => some d | .error _ => none,
    read.filterMap fun r => match r with | .ok _ => none | .error e => some e⟩

/-- The declaration is one of a custom property: its name starts with two dashes. -/
def isCustom (d : DeclarationSyntax) : Bool :=
  d.name.toList.take 2 == ['-', '-']

/-- The offset after the value, or after the name if there is no value. -/
def stop (d : DeclarationSyntax) : Nat :=
  match d.value.getLast? with
  | some c => c.stop
  | none => d.start + d.name.toList.length

/-- The source text of a declaration. -/
def snippet (source : Source) (d : DeclarationSyntax) : String :=
  source.slice d.start d.stop

/-- The description of a declaration. -/
def display (d : DeclarationSyntax) : String :=
  "Decl(" ++ (if d.important then "!, " else "") ++ Text.quoted d.name ++ ", " ++
    Component.displayList d.value ++ ")"

end DeclarationSyntax

end Styling
