import Mathlib
import Styling.Proofs.Selector.Compounds
import Styling.Proofs.Sheet.Declared

/-!
# Rules that do not depend on states

A node is hovered over, has the focus, is active or enabled for a while, and when that changes only
the rules with a pseudo class have to be looked at again.  A rule carries a flag for this, and the
flag can be relied on: where it is not set, the answer for an element depends on the shape of its
tree and on the classes alone.

* `NodeTree.element?` is the element at the end of a path through a tree, with its ancestors.
* `NodeTree.SameClasses` relates two trees that differ in nothing but states.
* `Selector.selects_congr` is about one chain and two elements whose nodes have the same classes.
* `Stylesheet.selects_eq_of_sameClasses` is about the rules of a sheet.
-/

namespace Styling

/-! ## Trees -/

/-- A node with the trees below it. -/
inductive NodeTree
  | branch (node : Node) (children : List NodeTree)

namespace NodeTree

/-- The element at the end of a path from child to child, in a tree below some ancestors. -/
def elementBelow (ancestors : List Node) : NodeTree → List Nat → Option Element
  | branch n _, [] => some ⟨n, ancestors⟩
  | branch n children, i :: path =>
    children[i]?.bind fun child => elementBelow (n :: ancestors) child path

/-- The element at the end of a path from child to child. -/
def element? (t : NodeTree) (path : List Nat) : Option Element :=
  t.elementBelow [] path

/-- Two trees have the same shape, and nodes in the same place have the same classes. -/
inductive SameClasses : NodeTree → NodeTree → Prop
  | branch {n m : Node} {ts us : List NodeTree} (classes : n.classes = m.classes)
    (children : List.Forall₂ SameClasses ts us) : SameClasses (.branch n ts) (.branch m us)

end NodeTree

/-- The classes of an element and of each of its ancestors. -/
def Element.lineage (e : Element) : List (List String) :=
  e.nodes.map Node.classes

/-- In trees with the same classes a path leads to elements with the same classes, or to none in
either. -/
theorem NodeTree.SameClasses.lineage_elementBelow {t u : NodeTree} (h : t.SameClasses u)
    {above above' : List Node} (habove : above.map Node.classes = above'.map Node.classes)
    (path : List Nat) :
    (t.elementBelow above path).map Element.lineage =
      (u.elementBelow above' path).map Element.lineage := by
  induction path generalizing t u above above' with
  | nil =>
    obtain ⟨hclasses, -⟩ := h
    exact congrArg some (congrArg₂ List.cons hclasses habove)
  | cons i path ih =>
    obtain @⟨n, m, ts, us, hclasses, hchildren⟩ := h
    rw [elementBelow, elementBelow]
    rcases Nat.lt_or_ge i ts.length with hi | hi
    · have hi' : i < us.length := hchildren.length_eq ▸ hi
      rw [List.getElem?_eq_getElem hi, List.getElem?_eq_getElem hi']
      exact ih (hchildren.get hi hi') (congrArg₂ List.cons hclasses habove)
    · rw [List.getElem?_eq_none hi, List.getElem?_eq_none (hchildren.length_eq ▸ hi)]
      rfl

/-! ## Chains -/

/-- An atom that is no pseudo class looks at the classes of a node only. -/
theorem SelectorPart.isSatisfiedBy_congr {part : SelectorPart} (hpart : part.isPseudo = false)
    {n m : Node} (h : n.classes = m.classes) : part.isSatisfiedBy n = part.isSatisfiedBy m := by
  cases part with
  | className name => exact congrArg (List.contains · name) h
  | wildcard => rfl
  | pseudo p => exact absurd hpart (by simp [isPseudo])
  | combinator c => rfl

namespace Selector

variable {s : Selector}

/-- A chain without a pseudo class has none in any of its compounds. -/
theorem isPseudo_of_mem_compounds (hs : s.hasPseudo = false) :
    ∀ compound ∈ s.compounds, ∀ atom ∈ compound, atom.isPseudo = false := by
  intro compound hcompound atom hatom
  refine Bool.eq_false_iff.mpr fun hpseudo => ?_
  have hmem : atom ∈ s := (infix_of_mem_splitBy hcompound).mem hatom
  exact absurd (List.any_eq_true.mpr ⟨atom, hmem, hpseudo⟩) (Bool.eq_false_iff.mp hs)

/-- The places of a chain without a pseudo class serve for any nodes with the same classes. -/
theorem IsPlacement.congr (hs : s.hasPseudo = false) {nodes nodes' : List Node}
    (hnodes : nodes.map Node.classes = nodes'.map Node.classes) {place : Nat → Nat}
    (h : s.IsPlacement nodes place) : s.IsPlacement nodes' place where
  last := h.last
  above := h.above
  child := h.child
  satisfied i compound hi := by
    obtain ⟨n, hn, hatoms⟩ := h.satisfied i compound hi
    have hclasses : nodes'[place i]?.map Node.classes = some n.classes := by
      rw [← List.getElem?_map, ← hnodes, List.getElem?_map, hn, Option.map_some]
    obtain ⟨m, hm, hmn⟩ := Option.map_eq_some_iff.mp hclasses
    refine ⟨m, hm, fun atom hatom => ?_⟩
    have hpseudo := isPseudo_of_mem_compounds hs compound (List.mem_of_getElem? hi) atom hatom
    rw [SelectorPart.isSatisfiedBy_congr hpseudo hmn]
    exact hatoms atom hatom

/-- A chain without a pseudo class selects both of two elements with the same classes, or none. -/
theorem selects_congr (hs : s.hasPseudo = false) {e d : Element} (h : e.lineage = d.lineage) :
    s.selects e = s.selects d := by
  refine congrArg (!s.isEmpty && ·) (Bool.eq_iff_iff.mpr ?_)
  rw [fits_iff, fits_iff, List.reverse_reverse]
  exact exists_congr fun place => ⟨IsPlacement.congr hs h, IsPlacement.congr hs h.symm⟩

end Selector

/-! ## Rules -/

namespace Stylesheet

variable {text : String} {options : Options} {sheet : Stylesheet}

/-- The flag of a rule tells whether its selector has a pseudo class. -/
theorem hasPseudo_of_read (h : (read text options).result = .ok sheet) :
    ∀ rule ∈ sheet.rules, rule.hasPseudo = rule.selector.hasPseudo := by
  intro rule hrule
  rw [rules_of_read h] at hrule
  obtain ⟨declared, hdeclared, order, rfl⟩ := exists_mem_of_mem_arrange hrule
  unfold Source.declared at hdeclared
  split at hdeclared
  next parsed _ =>
    obtain ⟨r, -, hr⟩ := List.mem_flatMap.mp hdeclared
    obtain ⟨selector, -, rfl⟩ := List.mem_map.mp hr
    rfl
  next => exact absurd hdeclared List.not_mem_nil

/-- **A rule whose flag is not set gives the same answer whatever the states of the nodes are**: in
two trees of the same shape with the same classes it selects the same elements. -/
theorem selects_eq_of_sameClasses (h : (read text options).result = .ok sheet) :
    ∀ rule ∈ sheet.rules, rule.hasPseudo = false →
      ∀ t u : NodeTree, t.SameClasses u → ∀ path,
        (t.element? path).map rule.selects = (u.element? path).map rule.selects := by
  intro rule hrule hflag t u htu path
  have hs : rule.selector.hasPseudo = false := (hasPseudo_of_read h rule hrule).symm.trans hflag
  have hlineage : (t.element? path).map Element.lineage = (u.element? path).map Element.lineage :=
    htu.lineage_elementBelow rfl path
  cases ht : t.element? path with
  | none =>
    rw [ht, Option.map_none, eq_comm, Option.map_eq_none_iff] at hlineage
    rw [hlineage]
  | some e =>
    rw [ht, Option.map_some, eq_comm, Option.map_eq_some_iff] at hlineage
    obtain ⟨d, hd, hde⟩ := hlineage
    rw [hd]
    exact congrArg some (Selector.selects_congr hs hde.symm)

/-- A rule looks at two ancestors of an element, and is not disturbed when the element loses the
focus and one of the ancestors is disabled. -/
theorem selects_eq_of_sameClasses_focus :
    ∃ (sheet : Stylesheet) (rule : Rule) (t u : NodeTree) (e d : Element),
      (read ".a > .b .c\x7b\x7d" .default).result = .ok sheet ∧ sheet.rules = [rule] ∧
      rule.hasPseudo = false ∧ t.SameClasses u ∧
      t.element? [1, 0] = some e ∧ u.element? [1, 0] = some d ∧
      (e.node.focus, d.node.focus) = (true, false) ∧
      e.ancestors.map Node.enabled = [true, true] ∧ d.ancestors.map Node.enabled = [false, true] ∧
      rule.selects e = true ∧ rule.selects d = true := by
  have hrun : (read ".a > .b .c\x7b\x7d" .default).result.toOption.map (fun sheet =>
      sheet.rules.map fun rule => (rule.hasPseudo, rule.selector)) =
      some [(false, [.className "a", .combinator .child, .className "b", .combinator .descendant,
        .className "c"])] := by
    decide +kernel
  obtain ⟨sheet, hread, hrules⟩ := exists_ok_of_observed hrun
  obtain ⟨rule, hsheet, hrule⟩ := List.map_eq_singleton_iff.mp hrules
  obtain ⟨hflag, hselector⟩ := Prod.mk.inj hrule
  let tree (focus enabled : Bool) : NodeTree :=
    .branch ⟨["a"], false, false, false, true⟩
      [.branch ⟨["d"], false, false, false, true⟩ [],
        .branch ⟨["b"], false, false, false, enabled⟩
          [.branch ⟨["c"], false, focus, false, true⟩ []]]
  have htrees : (tree true true).SameClasses (tree false false) :=
    .branch rfl
      (.cons (.branch rfl .nil) (.cons (.branch rfl (.cons (.branch rfl .nil) .nil)) .nil))
  have hselects : ∀ e, rule.selects e = Selector.selects [.className "a", .combinator .child,
      .className "b", .combinator .descendant, .className "c"] e :=
    fun e => by rw [Rule.selects, hselector]
  have hpath := selects_eq_of_sameClasses hread rule (hsheet ▸ List.mem_singleton_self rule) hflag
    _ _ htrees [1, 0]
  refine ⟨sheet, rule, _, _, _, _, hread, hsheet, hflag, htrees, rfl, rfl, rfl, rfl, rfl, ?_, ?_⟩
  · rw [hselects]
    decide
  · refine (Option.some_inj.mp hpath).symm.trans ?_
    rw [hselects]
    decide

end Stylesheet

end Styling
