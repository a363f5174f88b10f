import Styling.Value.Cursor

/-!
# Selectors

A selector is a chain of atoms and combinators.  The atoms are classes, the wildcard and five pseudo
classes; the combinators tell whether the part on the left belongs to the parent or to any ancestor.
A bare identifier is a class, so `button` and `.button` select the same nodes.

* `Selector.css` writes a chain.
* `Selector.specificity` counts the classes and pseudo classes, ten for each.
* `Selector.ofComponents` reads a chain, and `Selector.listOfCursor` a list of them between commas.
-/

namespace Styling

/-- A state that a node can be in. -/
inductive PseudoClass
  | focus
  | hover
  | active
  | enabled
  | disabled
  deriving DecidableEq, Repr

namespace PseudoClass

/-- Every pseudo class. -/
def all : List PseudoClass := [focus, hover, active, enabled, disabled]

/-- The name of a pseudo class. -/
def name : PseudoClass → String
  | focus => "focus"
  | hover => "hover"
  | active => "active"
  | enabled => "enabled"
  | disabled => "disabled"

/-- The pseudo class of a lowercase name. -/
def ofName? (s : String) : Option PseudoClass :=
  all.find? fun p => p.name == s

/-- Every pseudo class is found under its name. -/
@[simp] theorem ofName?_name (p : PseudoClass) : ofName? p.name = some p := by
  cases p <;> decide

end PseudoClass

/-- How two parts of a chain are related: the left part belongs to the parent, or
to any ancestor. -/
inductive Combinator
  | child
  | descendant
  deriving DecidableEq, Repr

/-- An entry of a chain. -/
inductive SelectorPart
  | className (name : String)
  | wildcard
  | pseudo (p : PseudoClass)
  | combinator (c : Combinator)
  deriving DecidableEq, Repr

namespace SelectorPart

/-- The name of the kind of an entry. -/
def kind : SelectorPart → String
  | className _ => "class"
  | wildcard => "wildcard"
  | pseudo p => p.name
  | combinator .child => "child"
  | combinator .descendant => "descendant"

/-- The name of a class. -/
def className? : SelectorPart → Option String
  | className name => some name
  | _ => none

/-- The entry is a combinator. -/
def isCombinator : SelectorPart → Bool
  | combinator _ => true
  | _ => false

/-- An entry of a chain is a combinator or an atom. -/
theorem eq_combinator_or_atom (a : SelectorPart) :
    (∃ k, a = .combinator k) ∨ a.isCombinator = false := by
  cases a with
  | combinator k => exact Or.inl ⟨k, rfl⟩
  | _ => exact Or.inr rfl

/-- The entry is a pseudo class. -/
def isPseudo : SelectorPart → Bool
  | pseudo _ => true
  | _ => false

/-- The written form of an entry. -/
def css : SelectorPart → String
  | className name => "." ++ name
  | wildcard => "*"
  | pseudo p => ":" ++ p.name
  | combinator .child => " > "
  | combinator .descendant => " "

/-- What an entry adds to the specificity of a chain. -/
def specificity : SelectorPart → Nat
  | className _ | pseudo _ => 10
  | wildcard | combinator _ => 0

end SelectorPart

/-- A chain of atoms and combinators, from left to right. -/
abbrev Selector := List SelectorPart

namespace Selector

/-- The written form of a chain. -/
def css (s : Selector) : String :=
  String.join (s.map SelectorPart.css)

/-- Ten for every class and pseudo class. -/
def specificity (s : Selector) : Nat :=
  s.foldr (fun part rest => part.specificity + rest) 0

/-- The chain has a pseudo class. -/
def hasPseudo (s : Selector) : Bool :=
  s.any SelectorPart.isPseudo

@[simp] theorem css_append (s t : Selector) : css (s ++ t) = s.css ++ t.css := by
  simp [css, String.join_append]

@[simp] theorem specificity_append (s t : Selector) :
    specificity (s ++ t) = s.specificity + t.specificity := by
  induction s with
  | nil => simp [specificity]
  | cons part s ih =>
    simp only [specificity, List.cons_append, List.foldr_cons] at ih ⊢
    rw [ih, Nat.add_assoc]

@[simp] theorem hasPseudo_append (s t : Selector) :
    hasPseudo (s ++ t) = (s.hasPseudo || t.hasPseudo) := by
  simp [hasPseudo]

/-- What was read of a chain: its entries in reverse, and a combinator that waits for the atom after
it. -/
structure Partial where
  reversed : List SelectorPart
  waiting : Option Combinator
  deriving DecidableEq, Repr

namespace Partial

/-- Nothing read. -/
def empty : Partial := ⟨[], none⟩

/-- No atom was read. -/
def isEmpty (p : Partial) : Bool := p.reversed.isEmpty

/-- Add an atom, after the combinator that waits for it. -/
def push (p : Partial) (atom : SelectorPart) : Partial :=
  match p.waiting with
  | some c => ⟨atom :: .combinator c :: p.reversed, none⟩
  | none => ⟨atom :: p.reversed, none⟩

/-- Read whitespace: it relates atoms to descendants unless something else is said. -/
def space (p : Partial) : Partial :=
  if p.isEmpty || p.waiting.isSome then p else { p with waiting := some .descendant }

@[simp] theorem reversed_space (p : Partial) : p.space.reversed = p.reversed := by
  rw [space]
  split <;> rfl

/-- The chain, if it is complete. -/
def finish? (p : Partial) : Option Selector :=
  if p.isEmpty || p.waiting == some .child then none else some p.reversed.reverse

end Partial

/-- Read the components of a chain that ends at an offset. -/
def ofComponents (source : Source) (stop : Nat) (p : Partial) :
    List Component → Except Refusal Selector
  | [] =>
    match p.finish? with
    | some s => .ok s
    | none => .error (.invalid .selectorIncomplete (source.location stop))
  | .token ⟨.whitespace _, _⟩ :: cs => ofComponents source stop p.space cs
  | .token ⟨.ident name, _⟩ :: cs => ofComponents source stop (p.push (.className name)) cs
  | .token ⟨.colon, colonSpan⟩ :: cs =>
    match cs with
    | .token ⟨.ident name, span⟩ :: rest =>
      match PseudoClass.ofName? (Text.lowercase name) with
      | some pseudo => ofComponents source stop (p.push (.pseudo pseudo)) rest
      | none => .error (.invalid (.pseudoClassUnknown name) (source.location span.start))
    | _ => .error (.invalid .pseudoClassMissing (source.location colonSpan.start))
  | c :: cs =>
    if c.isTokenOf (·.isDelim ">") then
      ofComponents source stop { p with waiting := some .child } cs
    else if c.isTokenOf (·.isDelim "*") then ofComponents source stop (p.push .wildcard) cs
    else if c.isTokenOf (·.isDelim ".") then ofComponents source stop p cs
    else .error (.invalid (.unexpected (source.textOf c)) (source.locationOf c))

/-- Read the chains between the commas of a prelude; one that is malformed spoils all. -/
def listOfCursor (c : Cursor) : Except Refusal (List Selector) :=
  c.commaParts.mapM fun part => ofComponents part.source part.stop .empty part.components

end Selector

end Styling
