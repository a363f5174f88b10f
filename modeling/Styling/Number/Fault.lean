/-!
# Faults of arithmetic

Reading and mixing values can fail below the level of the style language: a number leaves the range
of binary64, a function is applied outside of its domain, or a quotient has no value.  Such a fault
is kept apart from the refusal of a value, since no reader may step back from it and try another
form.
-/

namespace Styling

/-- Why a computation with numbers has no result. -/
inductive Fault
  /-- A finite result is too large. -/
  | overflow
  /-- A function has no value at its argument. -/
  | domain
  /-- A divisor is zero. -/
  | divisionByZero
  /-- An integer is written with more digits than are accepted. -/
  | digitLimit
  /-- A number that an operation needs is not given. -/
  | missingOperand
  deriving DecidableEq, Repr

end Styling
