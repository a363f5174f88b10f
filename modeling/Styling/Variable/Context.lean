import Styling.Text.Quoted

/-!
# Custom properties

The custom properties that a node can see are those declared for the node itself and, behind them,
those of its ancestors.  A `Variables` value is the list of these layers, the innermost first; in a
layer the last declaration of a name counts.
-/

namespace Styling

/-- The custom properties declared for one node, in order. -/
abbrev VariableLayer := List (String × String)

/-- The custom properties that a node can see, its own layer first. -/
structure Variables where
  layers : List VariableLayer
  deriving DecidableEq, Repr

namespace Variables

/-- No custom properties. -/
def empty : Variables := ⟨[]⟩

/-- The value of the last declaration of a name in a layer. -/
def layerLookup (name : String) (layer : VariableLayer) : Option String :=
  layer.reverse.lookup name

/-- The value of a name: the one of the innermost layer that declares it. -/
def lookup (v : Variables) (name : String) : Option String :=
  v.layers.findSome? (layerLookup name)

/-- The custom properties of a child that declares a layer of its own. -/
def child (v : Variables) (layer : VariableLayer) : Variables :=
  ⟨layer :: v.layers⟩

/-- Without layers no name has a value. -/
@[simp] theorem lookup_empty (name : String) : empty.lookup name = none := rfl

/-- A child sees its own declarations in front of those of its parent. -/
@[simp] theorem lookup_child (v : Variables) (layer : VariableLayer) (name : String) :
    (v.child layer).lookup name = (layerLookup name layer).or (v.lookup name) := by
  simp only [lookup, child, List.findSome?_cons]
  cases layerLookup name layer <;> rfl

/-- The names that can be seen, each once: outer layers first, in the order of declaration. -/
def names (v : Variables) : List String :=
  ((v.layers.reverse.flatMap fun layer => layer.map (·.1)).eraseDups)

/-- The names that can be seen with their values. -/
def entries (v : Variables) : List (String × String) :=
  v.names.filterMap fun name => (v.lookup name).map fun value => (name, value)

/-- The description of a context. -/
def display (v : Variables) : String :=
  let entry := fun (e : String × String) => Text.quoted e.1 ++ ": " ++ Text.quoted e.2
  "VariableContext(\x7b" ++ String.intercalate ", " (v.entries.map entry) ++ "\x7d)"

end Variables

end Styling
