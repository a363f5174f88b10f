import Styling.Text.Source

/-!
# Syntax errors

Reading tokens, components, rules and declarations never stops at a fault in the text: it notes a
problem with a location and goes on.
-/

namespace Styling

/-- What is wrong with the shape of a text. -/
inductive SyntaxProblem
  | commentNotClosed
  | stringNotClosed
  | stringBroken
  | invalidBackslash
  | functionNotClosed
  | blockNotClosed
  | atRuleNotEnded
  | ruleNotClosed
  | missingColon
  | invalidDeclaration
  deriving DecidableEq, Repr

namespace SyntaxProblem

/-- The wording of a problem. -/
def message : SyntaxProblem → String
  | commentNotClosed => "Comment not closed"
  | stringNotClosed => "String was not closed"
  | stringBroken => "String literal not closed"
  | invalidBackslash => "Invalid backslash"
  | functionNotClosed => "Function was not closed"
  | blockNotClosed => "Block was not closed"
  | atRuleNotEnded => "At Rule missing semi-colon"
  | ruleNotClosed => "Qualified rule is not closed"
  | missingColon => "Expected a colon"
  | invalidDeclaration => "Invalid decleration list"

end SyntaxProblem

/-- A problem and the place where it was noticed. -/
structure SyntaxError where
  problem : SyntaxProblem
  location : Location
  deriving DecidableEq, Repr

namespace SyntaxError

/-- The error of a problem at an offset of a source. -/
def ofOffset (source : Source) (problem : SyntaxProblem) (offset : Nat) : SyntaxError :=
  ⟨problem, source.location offset⟩

/-- The wording of an error. -/
def message (e : SyntaxError) : String :=
  e.problem.message

end SyntaxError

end Styling
