import Styling.Selector.Basic

/-!
# Matching nodes

A node has classes and states, and it stands below its ancestors.  A chain is matched from right to
left: its last atoms against the node, and the part before a combinator against the parent, or
against any ancestor for which the rest of the chain fits as well.
-/

namespace Styling

/-- A node of a tree, apart from its place in the tree. -/
structure Node where
  classes : List String
  hover : Bool
  focus : Bool
  active : Bool
  enabled : Bool
  deriving DecidableEq, Repr, Inhabited

/-- A node with its ancestors, the parent first. -/
structure Element where
  node : Node
  ancestors : List Node
  deriving DecidableEq, Repr

namespace SelectorPart

/-- A node satisfies an atom; a combinator is satisfied by no node. -/
def isSatisfiedBy (part : SelectorPart) (n : Node) : Bool :=
  match part with
  | className name => n.classes.contains name
  | wildcard => true
  | pseudo .hover => n.hover
  | pseudo .focus => n.focus
  | pseudo .active => n.active
  | pseudo .enabled => n.enabled
  | pseudo .disabled => !n.enabled
  | combinator _ => false

end SelectorPart

/-- Some node of a list satisfies a test, given the nodes above it. -/
def anyAbove (test : Node → List Node → Bool) : List Node → Bool
  | [] => false
  | n :: above => test n above || anyAbove test above

/-- The test succeeds for some entry of the list together with what follows it. -/
theorem anyAbove_eq_true_iff {test : Node → List Node → Bool} {ns : List Node} :
    anyAbove test ns = true ↔
      ∃ nearer n above, ns = nearer ++ n :: above ∧ test n above = true := by
  induction ns with
  | nil => simp [anyAbove]
  | cons m ms ih =>
    rw [anyAbove, Bool.or_eq_true, ih]
    constructor
    · rintro (h | ⟨nearer, n, above, rfl, h⟩)
      · exact ⟨[], m, ms, rfl, h⟩
      · exact ⟨m :: nearer, n, above, rfl, h⟩
    · rintro ⟨nearer, n, above, e, h⟩
      cases nearer with
      | nil =>
        obtain ⟨rfl, rfl⟩ := List.cons.inj e
        exact Or.inl h
      | cons k nearer =>
        obtain ⟨rfl, rfl⟩ := List.cons.inj e
        exact Or.inr ⟨nearer, n, above, rfl, h⟩

namespace Selector

/-- A reversed chain fits a node below its ancestors. -/
def fits : List SelectorPart → Node → List Node → Bool
  | [], _, _ => true
  | .combinator .child :: rest, _, ancestors =>
    match ancestors with
    | [] => false
    | parent :: above => fits rest parent above
  | .combinator .descendant :: rest, _, ancestors => anyAbove (fits rest) ancestors
  | atom :: rest, n, ancestors => atom.isSatisfiedBy n && fits rest n ancestors

/-- A chain selects an element; the empty chain selects none. -/
def selects (s : Selector) (e : Element) : Bool :=
  !s.isEmpty && fits s.reverse e.node e.ancestors

/-- The class of the last atoms of a reversed chain, up to a combinator. -/
def reversedKey? : List SelectorPart → Option String
  | [] => none
  | .combinator _ :: _ => none
  | .className name :: _ => some name
  | _ :: rest => reversedKey? rest

/-- The class that every node selected by a chain has, if the chain names one there. -/
def key? (s : Selector) : Option String :=
  reversedKey? s.reverse

end Selector

end Styling
