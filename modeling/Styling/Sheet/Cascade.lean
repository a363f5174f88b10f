import Styling.Sheet.Rule

/-!
# The cascade

The style of a node is computed from the rules that match it.  Their custom properties are laid over
those of the parent, and their properties are written into a fresh style one after the other, so the
last write of a property counts.  `color` is written before everything else, since `currentcolor`
refers to the final color of the node.

A deferred property is resolved and read again when it is written.  If that fails, the failure is
reported and collected, and the style stays as it is.

* `Property.reread` reads the text of a deferred property that no longer has `var()` calls.
* `Property.expand` gives the properties that are written for a property.
* `Cascade.compute` computes a style from matching rules.
-/

namespace Styling

/-- Why a style cannot be computed. -/
inductive CascadeError
  | fault (fault : Fault)
  | unresolved (property : Property)
  deriving DecidableEq

/-- A resolved text is read with the grammar of a kind; a failure carries the text that was written
and its place. -/
def PropertyKind.reread (kind : PropertyKind) (text raw : String) (location : Location) :
    Traced Fault (Except ResolveError (List Property)) :=
  let failure : ResolveError := ⟨.notReadable, raw, location⟩
  match Cursor.ofText text >>= kind.readCursor with
  | .ok properties =>
    if properties.any (·.value.isDeferred) then pure (.error failure) else pure (.ok properties)
  | .error (.refused refusal) => do
    Traced.report (.rereadFailed text refusal.message)
    return .error failure
  | .error (.fault f) => Traced.ofExcept (.error f)

namespace Property

/-- The properties that are written for a property: itself, or what its resolved text reads as. -/
def expand (p : Property) (vars : Variables) (limit : Option Int) :
    Traced Fault (Except ResolveError (List Property)) :=
  match p.value with
  | .deferred raw location => do
    match ← resolveWithin limit raw location vars with
    | .error e => return .error e
    | .ok text => p.kind.reread text raw location
  | _ => pure (.ok [p])

end Property

/-- The style of a node, what its children can see of it, and what was noticed on the way. -/
structure Computed where
  style : Style
  vars : Variables
  affectsLayout : Bool
  errors : List ResolveError

namespace Computed

/-- A fresh style under a parent, with a layer of custom properties laid over those
of the parent. -/
def start (parentStyle : Option Style) (parentVariables : Option Variables)
    (layer : VariableLayer) : Computed :=
  ⟨.fresh parentStyle, (parentVariables.getD .empty).child layer, false, []⟩

/-- Write a property that is not deferred. -/
def write (parentStyle : Option Style) (c : Computed) (p : Property) :
    Except CascadeError Computed :=
  match c.style.apply parentStyle p with
  | .ok style =>
    .ok { c with style := style, affectsLayout := c.affectsLayout || p.affectsLayout }
  | .error p => .error (.unresolved p)

/-- Write a property, or collect the error that keeps it from being written. -/
def writeExpanded (parentStyle : Option Style) (limit : Option Int)
    (fileName : Option String) (c : Computed) (p : Property) : Traced CascadeError Computed := do
  match ← (p.expand c.vars limit).mapError .fault with
  | .ok properties => Traced.ofExcept (properties.foldlM (write parentStyle) c)
  | .error e =>
    Traced.report (.propertyKept p.kind.name)
    Traced.report (.skipped e.message e.location fileName)
    return { c with errors := c.errors ++ [e] }

end Computed

namespace Cascade

/-- A property of the color of text. -/
def isColor (p : Property) : Bool := p.kind == .longhand .color

/-- The properties of rules in the order in which they are written: `color` first. -/
def writes (rules : List Rule) : List Property :=
  let properties := rules.flatMap Rule.properties
  properties.filter isColor ++ properties.filter fun p => !isColor p

/-- Compute the style of a node from the rules that match it, in any order. -/
def compute (rules : List Rule) (parentStyle : Option Style) (parentVariables : Option Variables)
    (limit : Option Int) (fileName : Option String) : Traced CascadeError Computed :=
  let ordered := Rule.cascadeOrder rules
  (writes ordered).foldlM (Computed.writeExpanded parentStyle limit fileName)
    (.start parentStyle parentVariables (ordered.flatMap Rule.vars))

end Cascade

end Styling
