import Mathlib
import Styling.Proofs.Sheet.Declared
import Styling.Proofs.Sheet.LastWrite

/-!
# Custom properties are inherited down a tree

Elements are computed from the root down, and each gets the custom properties of its parent.  What
it declares itself is one layer in front of them, so a name has the value of its last declaration
for the nearest element that declares it at all, at any depth.  The layers of the parent are shared
by all of its children, and none of them writes there.

The reference says this of the text of the sheet and knows nothing of layers.

* `Source.declared?` is the last declaration of a name for an element, in the order of the cascade,
  and `Source.inherited?` that of the nearest element on the path to the root.
* `Stylesheet.Grows` is the step from a tree of computed elements to one with an element more.
* `Stylesheet.layers_of_grows` says what layers the elements of a tree have, and
  `Stylesheet.lookup_of_grows` compares the values with the reference.
-/

namespace Styling

open Relation (ReflTransGen)

/-! ## The reference -/

namespace Source

/-- Every selector of a text with the custom properties in its block, in the order of the text. -/
def customs (s : Source) : List (Selector × VariableLayer) :=
  match s.rules with
  | .ok parsed =>
    parsed.value.flatMap fun r => (r.selectors s).map fun selector => (selector, r.customs s)
  | .error _ => []

/-- The selectors in the order of the cascade: the less specific first, and those of the same
specificity as in the text. -/
def cascade (s : Source) : List (Selector × VariableLayer) :=
  s.customs.mergeSort fun a b => a.1.specificity ≤ b.1.specificity

/-- The declarations of custom properties for an element, in the order of the cascade. -/
def layer (s : Source) (e : Element) : VariableLayer :=
  (s.cascade.filter fun entry => entry.1.selects e).flatMap Prod.snd

/-- The text of the last declaration of a name for an element. -/
def declared? (s : Source) (name : String) (e : Element) : Option String :=
  (((s.layer e).filter fun v => v.1 = name).getLast?).map Prod.snd

end Source

namespace Element

/-- A node below an element. -/
def child (e : Element) (n : Node) : Element := ⟨n, e.node :: e.ancestors⟩

/-- A node and its ancestors with the path of each to the root. -/
def pathFrom (n : Node) : List Node → List Element
  | [] => [⟨n, []⟩]
  | parent :: above => ⟨n, parent :: above⟩ :: pathFrom parent above

/-- The elements from an element up to the root. -/
def path (e : Element) : List Element := pathFrom e.node e.ancestors

@[simp] theorem path_root (n : Node) : path ⟨n, []⟩ = [⟨n, []⟩] := rfl

@[simp] theorem path_child (e : Element) (n : Node) : (e.child n).path = e.child n :: e.path := rfl

/-- The path of an element goes through the whole path of each element on it. -/
theorem path_isSuffix {e a : Element} (h : a ∈ e.path) : a.path <:+ e.path := by
  obtain ⟨n, ancestors⟩ := e
  induction ancestors generalizing n with
  | nil =>
    obtain rfl := List.mem_singleton.mp h
    exact List.suffix_rfl
  | cons parent above ih =>
    rcases List.mem_cons.mp h with rfl | h
    · exact List.suffix_rfl
    · exact (ih parent h).trans (List.suffix_cons _ _)

end Element

/-- The text of the last declaration of a name for the nearest element on the path to the root that
declares it. -/
def Source.inherited? (s : Source) (name : String) (e : Element) : Option String :=
  e.path.findSome? (s.declared? name)

/-! ## The rules of a sheet -/

namespace Variables

/-- The value of a name in a layer is that of its last entry. -/
theorem layerLookup_eq_getLast? (name : String) (layer : VariableLayer) :
    layerLookup name layer = ((layer.filter fun v => v.1 = name).getLast?).map Prod.snd := by
  induction layer using List.reverseRecOn with
  | nil => rfl
  | append_singleton layer v ih =>
    rw [layerLookup, List.reverse_append, List.filter_append]
    by_cases h : v.1 = name
    · simp [List.lookup, h]
    · have hne : (name == v.1) = false := by simpa using Ne.symm h
      simpa [layerLookup, List.lookup, h, hne] using ih

end Variables

namespace Stylesheet

variable {text : String} {options : Options} {sheet : Stylesheet}

/-- The rules of a text have its selectors with their custom properties, and the specificity of
their selectors. -/
theorem map_customs_declared (source : Source) :
    source.declared.map (fun rule => (rule.selector, rule.vars)) = source.customs ∧
      ∀ rule ∈ source.declared, rule.specificity = rule.selector.specificity := by
  rw [Source.declared, Source.customs]
  cases source.rules with
  | error f => exact ⟨rfl, fun rule hrule => absurd hrule List.not_mem_nil⟩
  | ok parsed =>
    refine ⟨by simp [RuleSyntax.rules, Rule.ofSelector, List.map_flatMap, Function.comp_def],
      fun rule hrule => ?_⟩
    obtain ⟨r, -, hrule⟩ := List.mem_flatMap.mp hrule
    obtain ⟨selector, -, rfl⟩ := List.mem_map.mp hrule
    rfl

/-- The rules of a sheet have the selectors of its text with their custom properties, in the order
of the cascade. -/
theorem map_customs_rules (h : (read text options).result = .ok sheet) :
    sheet.rules.map (fun rule => (rule.selector, rule.vars)) = (Source.ofString text).cascade := by
  obtain ⟨hcustoms, hspecificity⟩ := map_customs_declared (.ofString text)
  have hnumbered : (arrange (Source.ofString text).declared).map
      (fun rule => (rule.selector, rule.vars)) =
        ((Source.ofString text).declared.mergeSort fun r s => r.specificity ≤ s.specificity).map
          fun rule => (rule.selector, rule.vars) :=
    List.ext_getElem (by simp [arrange]) fun i _ _ => by simp [arrange]
  rw [rules_of_read h, Source.cascade, ← hcustoms, hnumbered]
  refine List.map_mergeSort fun r hr s hs => ?_
  rw [hspecificity r hr, hspecificity s hs]

/-- The custom properties of the rules that select an element. -/
theorem flatMap_vars_matching (h : (read text options).result = .ok sheet) (e : Element) :
    (Rule.cascadeOrder (sheet.matching e)).flatMap Rule.vars = (Source.ofString text).layer e := by
  have hsorted : Rule.cascadeOrder (sheet.matching e) = sheet.matching e :=
    List.mergeSort_of_pairwise (Rule.pairwise_cascadeOrder _)
  rw [hsorted, matching_eq_filter_of_read h, Source.layer, ← map_customs_rules h, List.filter_map,
    List.flatMap_map]
  rfl

end Stylesheet

/-! ## The layers of a tree -/

/-- Writing properties leaves the custom properties as they are. -/
theorem Computed.vars_of_foldlM_writeExpanded {parent : Option Style} {limit : Option Int}
    {file : Option String} {ps : List Property} {c c' : Computed}
    (h : (ps.foldlM (writeExpanded parent limit file) c).result = .ok c') : c'.vars = c.vars := by
  induction ps generalizing c with
  | nil => exact congrArg Computed.vars (Except.ok.inj h).symm
  | cons p ps ih =>
    rw [List.foldlM_cons, Traced.bind_result_eq_ok] at h
    obtain ⟨next, hp, h⟩ := h
    exact (ih h).trans (writeExpanded_eq_ok hp).2.2.1

namespace Stylesheet

variable {text : String} {options : Options} {sheet : Stylesheet}

/-- The step: an element has one layer of its own in front of those of its parent, and these stay as
they are. -/
theorem vars_of_compute (hread : (read text options).result = .ok sheet) {e : Element}
    {parent : Option Style} {parentVariables : Option Variables} {c : Computed}
    (h : (sheet.compute e parent parentVariables).result = .ok c) :
    c.vars = (parentVariables.getD .empty).child ((Source.ofString text).layer e) := by
  rw [← flatMap_vars_matching hread e]
  exact Computed.vars_of_foldlM_writeExpanded h

/-- One more element is computed, a root or a node below an element that was computed before.  The
style that it inherits from may be any. -/
inductive Grows (s : Stylesheet) (tree : List (Element × Computed)) :
    List (Element × Computed) → Prop
  | root (n : Node) (style : Option Style) {c : Computed}
    (h : (s.compute ⟨n, []⟩ style none).result = .ok c) : Grows s tree (tree ++ [(⟨n, []⟩, c)])
  | child {parent : Element × Computed} (hparent : parent ∈ tree) (n : Node)
    (style : Option Style) {c : Computed}
    (h : (s.compute (parent.1.child n) style (some parent.2.vars)).result = .ok c) :
    Grows s tree (tree ++ [(parent.1.child n, c)])

variable {tree later : List (Element × Computed)}

/-- The run: an element has a layer for each element on its path to the root, its own first. -/
theorem layers_of_grows (hread : (read text options).result = .ok sheet)
    (h : ReflTransGen sheet.Grows [] tree) :
    ∀ x ∈ tree, x.2.vars.layers = x.1.path.map (Source.ofString text).layer := by
  induction h with
  | refl => exact fun x hx => absurd hx List.not_mem_nil
  | tail _ hgrows ih =>
    cases hgrows with
    | root n style hcompute =>
      intro x hx
      rcases List.mem_append.mp hx with hx | hx
      · exact ih x hx
      · obtain rfl := List.mem_singleton.mp hx
        rw [vars_of_compute hread hcompute]
        rfl
    | child hparent n style hcompute =>
      intro x hx
      rcases List.mem_append.mp hx with hx | hx
      · exact ih x hx
      · obtain rfl := List.mem_singleton.mp hx
        rw [vars_of_compute hread hcompute, Element.path_child, List.map_cons, ← ih _ hparent]
        rfl

/-- What was computed stays when the tree grows. -/
theorem isPrefix_of_grows (h : ReflTransGen sheet.Grows tree later) : tree <+: later := by
  induction h with
  | refl => exact List.prefix_rfl
  | tail _ hgrows ih =>
    cases hgrows with
    | root n style hcompute => exact ih.trans (List.prefix_append _ _)
    | child hparent n style hcompute => exact ih.trans (List.prefix_append _ _)

/-- **A custom property has the value of its last declaration for the nearest element on the path to
the root that declares it.**  An element keeps the layers of its ancestors unchanged behind its own,
and what was computed for an element stays when more elements are computed. -/
theorem lookup_of_grows (hread : (read text options).result = .ok sheet)
    (h : ReflTransGen sheet.Grows [] tree) :
    (∀ x ∈ tree, (∀ name, x.2.vars.lookup name = (Source.ofString text).inherited? name x.1) ∧
      ∀ a ∈ tree, a.1 ∈ x.1.path → a.2.vars.layers <:+ x.2.vars.layers) ∧
    ∀ later, ReflTransGen sheet.Grows tree later → tree <+: later := by
  have hlayers := layers_of_grows hread h
  refine ⟨fun x hx => ⟨fun name => ?_, fun a ha hpath => ?_⟩, fun later => isPrefix_of_grows⟩
  · rw [Variables.lookup, hlayers x hx, List.findSome?_map]
    refine congrArg (fun f => x.1.path.findSome? f) (funext fun e => ?_)
    exact Variables.layerLookup_eq_getLast? name _
  · rw [hlayers a ha, hlayers x hx]
    exact (Element.path_isSuffix hpath).map _

/-- Below a root, a child with two rules and a repeated declaration, a sibling that declares
nothing, and a node under the sibling. -/
theorem lookup_of_grows_siblings :
    ∃ sheet tree,
      (read ".r\x7b--x:1px;--y:a b\x7d.c.d\x7b--x:2px;--x: 3px \x7d.d\x7b--x:4px;--y:\x7d"
        .default).result = .ok sheet ∧
      ReflTransGen sheet.Grows [] tree ∧
      tree.map (fun x => (x.2.vars.lookup "--x", x.2.vars.lookup "--y")) =
        [(some "1px", some "a b"), (some "3px", some ""), (some "1px", some "a b"),
          (some "4px", some "")] := by
  let text := ".r\x7b--x:1px;--y:a b\x7d.c.d\x7b--x:2px;--x: 3px \x7d.d\x7b--x:4px;--y:\x7d"
  let root : Element := ⟨⟨["r"], false, false, false, true⟩, []⟩
  let first := root.child ⟨["c", "d"], false, false, false, true⟩
  let second := root.child ⟨[], false, false, false, true⟩
  let third := second.child ⟨["d"], false, false, false, true⟩
  have hrun : ((read text .default).result.toOption.bind fun sheet =>
      (sheet.compute root none none).result.toOption.bind fun r =>
      (sheet.compute first (some r.style) (some r.vars)).result.toOption.bind fun f =>
      (sheet.compute second (some r.style) (some r.vars)).result.toOption.bind fun s =>
      (sheet.compute third (some s.style) (some s.vars)).result.toOption).isSome = true := by
    cbv
  obtain ⟨t, hrun⟩ := Option.isSome_iff_exists.mp hrun
  obtain ⟨sheet, hsheet, hrun⟩ := Option.bind_eq_some_iff.mp hrun
  obtain ⟨r, hr, hrun⟩ := Option.bind_eq_some_iff.mp hrun
  obtain ⟨f, hf, hrun⟩ := Option.bind_eq_some_iff.mp hrun
  obtain ⟨s, hs, ht⟩ := Option.bind_eq_some_iff.mp hrun
  have hread := eq_ok_of_toOption hsheet
  let tree := [(root, r), (first, f), (second, s), (third, t)]
  have hgrows : ReflTransGen sheet.Grows [] tree :=
    (((ReflTransGen.single (.root _ _ (eq_ok_of_toOption hr))).tail
      (.child (List.mem_singleton_self (root, r)) _ _ (eq_ok_of_toOption hf))).tail
      (.child (List.mem_cons_self : (root, r) ∈ [(root, r), (first, f)]) _ _
        (eq_ok_of_toOption hs))).tail
      (.child (by simp : (second, s) ∈ [(root, r), (first, f), (second, s)]) _ _
        (eq_ok_of_toOption ht))
  refine ⟨sheet, tree, hread, hgrows, ?_⟩
  have hlookup := (lookup_of_grows hread hgrows).1
  calc tree.map (fun x => (x.2.vars.lookup "--x", x.2.vars.lookup "--y"))
      = tree.map fun x => ((Source.ofString text).inherited? "--x" x.1,
          (Source.ofString text).inherited? "--y" x.1) :=
        List.map_congr_left fun x hx => by rw [(hlookup x hx).1, (hlookup x hx).1]
    _ = [root, first, second, third].map fun e => ((Source.ofString text).inherited? "--x" e,
          (Source.ofString text).inherited? "--y" e) := rfl
    _ = [(some "1px", some "a b"), (some "3px", some ""), (some "1px", some "a b"),
          (some "4px", some "")] := by cbv

end Stylesheet

end Styling
