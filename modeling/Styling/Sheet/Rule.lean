import Styling.Property.Reading
import Styling.Selector.Matching
import Styling.Variable.Substitution

/-!
# Rules of a style sheet

A rule is a selector with the properties and custom properties that it declares.  Rules are applied
in ascending specificity, and rules of equal specificity in the order of the sheet;
`Rule.cascadeOrder` sorts by both.
-/

namespace Styling

/-- A selector with what it declares. -/
structure Rule where
  specificity : Nat
  selector : Selector
  properties : List Property
  hasPseudo : Bool
  vars : VariableLayer
  order : Nat
  deriving DecidableEq

namespace Rule

/-- The rule of a selector, placed at an index of its sheet. -/
def ofSelector (s : Selector) (properties : List Property) (vars : VariableLayer)
    (order : Nat) : Rule :=
  ⟨s.specificity, s, properties, s.hasPseudo, vars, order⟩

/-- The rule selects an element. -/
def selects (r : Rule) (e : Element) : Bool := r.selector.selects e

/-- The first rule may be applied before the second. -/
def precedes (r s : Rule) : Bool :=
  r.specificity < s.specificity || (r.specificity == s.specificity && r.order ≤ s.order)

/-- Rules in the order in which they are applied. -/
def cascadeOrder (rules : List Rule) : List Rule :=
  rules.mergeSort precedes

theorem precedes_trans {r s t : Rule} (h₁ : r.precedes s = true) (h₂ : s.precedes t = true) :
    r.precedes t = true := by
  simp only [precedes, Bool.or_eq_true, Bool.and_eq_true, decide_eq_true_eq, beq_iff_eq] at *
  omega

theorem precedes_total (r s : Rule) : (r.precedes s || s.precedes r) = true := by
  simp only [precedes, Bool.or_eq_true, Bool.and_eq_true, decide_eq_true_eq, beq_iff_eq]
  omega

/-- Sorting neither loses nor adds a rule. -/
theorem cascadeOrder_perm (rules : List Rule) : (cascadeOrder rules).Perm rules :=
  List.mergeSort_perm rules precedes

/-- Of two rules in the order of application the first may be applied before the second. -/
theorem pairwise_cascadeOrder (rules : List Rule) :
    (cascadeOrder rules).Pairwise fun r s => r.precedes s = true := by
  have trans : ∀ r s t : Rule, r.precedes s = true → s.precedes t = true → r.precedes t = true :=
    fun _ _ _ => precedes_trans
  exact List.pairwise_mergeSort trans precedes_total rules

/-- The text of a rule. -/
def css (r : Rule) : Except Fault String := do
  let vars := r.vars.map fun v => v.1 ++ ": " ++ v.2 ++ ";"
  let properties ← r.properties.mapM Property.css
  let body := vars ++ properties.map (· ++ ";")
  return r.selector.css ++ " \x7b " ++ String.intercalate " " body ++ " \x7d"

end Rule

end Styling
