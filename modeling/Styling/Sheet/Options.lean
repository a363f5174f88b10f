import Styling.Variable.Substitution

/-!
# Options of a style sheet
-/

namespace Styling

/-- How a style sheet is read and applied. -/
structure Options where
  /-- The name shown in reports. -/
  fileName : Option String
  /-- The greatest number of passes that replace `var()` calls; if it is not given, a property with
  such calls cannot be resolved. -/
  varLimit : Option Int
  deriving DecidableEq, Repr

namespace Options

/-- No file name, and the usual number of passes. -/
def default : Options := ⟨none, some defaultVarLimit⟩

end Options

end Styling
