import Mathlib
import Styling.Proofs.Selector.Alternation
import Styling.Selector.Matching
import Styling.Syntax.Declaration

/-!
# Where the compounds of a chain are satisfied

Matching goes along a chain from right to left and, before a combinator that allows for it, tries
one ancestor after the other.  What it decides can be said without that search.  The chain is a list
of compounds with combinators between them, the nodes from an element up to the root are a list too,
and the element is selected if the compounds can be placed at nodes that satisfy them: the last one
at the element itself, each of the others further up than the one after it, and at the parent where
the combinator asks for that.

A compound may be empty, in front of a child combinator that starts a chain.  It is satisfied by
every node, so that it only asks for one more ancestor.

* `Selector.compounds` and `Selector.combinators` read a chain, and `Selector.ofCompounds` puts it
  together again.
* `Selector.IsPlacement` says that the compounds are satisfied at some places.
* `Selector.isPlacement_concat_atom` and `Selector.exists_isPlacement_concat_combinator` are about a
  chain with one entry more at its end, and `Selector.fits_iff` is the induction on the chain.
* `Selector.selects_iff_exists_isPlacement` is about the chains of a prelude.
-/

namespace Styling

/-- The nodes from an element up to the root. -/
def Element.nodes (e : Element) : List Node := e.node :: e.ancestors

/-- The combinator, if the entry is one. -/
def SelectorPart.combinator? : SelectorPart → Option Combinator
  | combinator k => some k
  | _ => none

namespace SelectorPart

theorem combinator?_of_atom {a : SelectorPart} (h : a.isCombinator = false) :
    a.combinator? = none := by
  rcases a with _ | _ | _ | k
  case combinator => exact absurd h (by simp [isCombinator])
  all_goals rfl

end SelectorPart

/-- What holds of every entry of a list with its index holds of those in front and of the last. -/
theorem forall_getElem?_concat {α : Type} {P : Nat → α → Prop} {as : List α} {b : α} :
    (∀ i a, (as ++ [b])[i]? = some a → P i a) ↔
      (∀ i a, as[i]? = some a → P i a) ∧ P as.length b := by
  constructor
  · refine fun h => ⟨fun i a ha => h i a ?_, h as.length b (by simp)⟩
    rw [List.getElem?_append_left (List.getElem?_eq_some_iff.mp ha).1, ha]
  · rintro ⟨hfront, hlast⟩ i a ha
    rcases Nat.lt_or_ge i as.length with hlt | hge
    · exact hfront i a (List.getElem?_append_left hlt ▸ ha)
    · obtain ⟨hi, rfl⟩ := List.getElem?_eq_some_iff.mp ha
      obtain rfl : i = as.length := by
        rw [List.length_append, List.length_singleton] at hi
        omega
      simpa using hlast

namespace Selector

/-! ## The parts of a chain -/

/-- The runs of atoms between the combinators of a chain. -/
def compounds (s : Selector) : List (List SelectorPart) :=
  splitBy SelectorPart.isCombinator s

/-- The combinators of a chain. -/
def combinators (s : Selector) : List Combinator :=
  s.filterMap SelectorPart.combinator?

/-- The chain of some compounds with combinators between them. -/
def ofCompounds : List (List SelectorPart) → List Combinator → Selector
  | [], _ => []
  | compound :: _, [] => compound
  | compound :: compounds, k :: ks => compound ++ .combinator k :: ofCompounds compounds ks

variable {s : Selector} {a : SelectorPart} {k : Combinator}

/-- An atom in front belongs to the first compound. -/
theorem compounds_cons_atom (ha : a.isCombinator = false) :
    ∃ first more, compounds s = first :: more ∧ compounds (a :: s) = (a :: first) :: more := by
  obtain ⟨first, more, hs⟩ :=
    List.exists_cons_of_ne_nil (splitBy_ne_nil SelectorPart.isCombinator s)
  refine ⟨first, more, hs, ?_⟩
  rw [compounds, splitBy, ha, if_neg Bool.false_ne_true, hs]

theorem combinators_cons_atom (ha : a.isCombinator = false) :
    combinators (a :: s) = combinators s :=
  List.filterMap_cons_none (SelectorPart.combinator?_of_atom ha)

/-- A chain is made of its compounds with its combinators between them. -/
theorem ofCompounds_compounds (s : Selector) : ofCompounds (compounds s) (combinators s) = s := by
  induction s with
  | nil => rfl
  | cons a s ih =>
    rcases a.eq_combinator_or_atom with ⟨k, rfl⟩ | ha
    · exact congrArg (SelectorPart.combinator k :: ·) ih
    · obtain ⟨first, more, hs, has⟩ := compounds_cons_atom (s := s) ha
      rw [hs] at ih
      rw [has, combinators_cons_atom ha]
      cases hks : combinators s with
      | nil =>
        rw [hks] at ih
        exact congrArg (a :: ·) ih
      | cons k ks =>
        rw [hks] at ih
        exact congrArg (a :: ·) ih

/-- There is one compound more than there are combinators. -/
theorem length_compounds (s : Selector) : (compounds s).length = (combinators s).length + 1 := by
  induction s with
  | nil => rfl
  | cons a s ih =>
    rcases a.eq_combinator_or_atom with ⟨k, rfl⟩ | ha
    · exact congrArg (· + 1) ih
    · obtain ⟨first, more, hs, has⟩ := compounds_cons_atom (s := s) ha
      rw [has, combinators_cons_atom ha, ← ih, hs]
      rfl

/-- A compound has no combinator in it. -/
theorem isCombinator_of_mem_compounds (s : Selector) :
    ∀ compound ∈ compounds s, ∀ a ∈ compound, a.isCombinator = false := by
  induction s with
  | nil => simp [compounds, splitBy]
  | cons a s ih =>
    rcases a.eq_combinator_or_atom with ⟨k, rfl⟩ | ha
    · exact List.forall_mem_cons.mpr ⟨fun b hb => absurd hb List.not_mem_nil, ih⟩
    · obtain ⟨first, more, hs, has⟩ := compounds_cons_atom (s := s) ha
      rw [hs] at ih
      obtain ⟨hfirst, hmore⟩ := List.forall_mem_cons.mp ih
      rw [has]
      exact List.forall_mem_cons.mpr ⟨List.forall_mem_cons.mpr ⟨ha, hfirst⟩, hmore⟩

/-! ## One entry more at the end -/

/-- An atom at the end belongs to the last compound. -/
theorem compounds_concat_atom (s : Selector) (ha : a.isCombinator = false) :
    ∃ front last, compounds s = front ++ [last] ∧ compounds (s ++ [a]) = front ++ [last ++ [a]] ∧
      front.length = (combinators s).length := by
  suffices h : ∃ front last, compounds s = front ++ [last] ∧
      compounds (s ++ [a]) = front ++ [last ++ [a]] by
    obtain ⟨front, last, hs, hsa⟩ := h
    have hlength := length_compounds s
    rw [hs, List.length_append] at hlength
    exact ⟨front, last, hs, hsa, Nat.succ_injective hlength⟩
  induction s with
  | nil =>
    refine ⟨[], [], rfl, ?_⟩
    rw [List.nil_append, compounds, splitBy, ha, if_neg Bool.false_ne_true]
    rfl
  | cons b s ih =>
    obtain ⟨front, last, hs, hsa⟩ := ih
    rcases b.eq_combinator_or_atom with ⟨k, rfl⟩ | hb
    · exact ⟨[] :: front, last, congrArg ([] :: ·) hs, congrArg ([] :: ·) hsa⟩
    · obtain ⟨first, more, hfirst, hbs⟩ := compounds_cons_atom (s := s) hb
      obtain ⟨first', more', hfirst', hbsa⟩ := compounds_cons_atom (s := s ++ [a]) hb
      rw [List.cons_append, hbs, hbsa]
      rw [hs] at hfirst
      rw [hsa] at hfirst'
      cases front with
      | nil =>
        obtain ⟨rfl, rfl⟩ := List.cons.inj hfirst
        obtain ⟨rfl, rfl⟩ := List.cons.inj hfirst'
        exact ⟨[], b :: last, rfl, rfl⟩
      | cons c front =>
        obtain ⟨rfl, rfl⟩ := List.cons.inj hfirst
        obtain ⟨rfl, rfl⟩ := List.cons.inj hfirst'
        exact ⟨(b :: c) :: front, last, rfl, rfl⟩

theorem combinators_concat_atom (s : Selector) (ha : a.isCombinator = false) :
    combinators (s ++ [a]) = combinators s := by
  rw [combinators, List.filterMap_append,
    List.filterMap_cons_none (SelectorPart.combinator?_of_atom ha)]
  exact List.append_nil _

/-- A combinator at the end is followed by a compound that is still empty. -/
theorem compounds_concat_combinator (s : Selector) (k : Combinator) :
    compounds (s ++ [.combinator k]) = compounds s ++ [[]] :=
  splitBy_append_cons rfl s []

theorem combinators_concat_combinator (s : Selector) (k : Combinator) :
    combinators (s ++ [.combinator k]) = combinators s ++ [k] :=
  List.filterMap_append

/-! ## Places -/

/-- Each of some compounds is satisfied by the node at its place. -/
def AreSatisfied (compounds : List (List SelectorPart)) (nodes : List Node) (place : Nat → Nat) :
    Prop :=
  ∀ i compound, compounds[i]? = some compound →
    ∃ n, nodes[place i]? = some n ∧ ∀ atom ∈ compound, atom.isSatisfiedBy n = true

/-- The compounds of a chain are satisfied at some places in a list of nodes, each the parent of the
one in front: the last compound at the first node, each of the others further up than the compound
after it, and right above it if the combinator between them is the child combinator. -/
structure IsPlacement (s : Selector) (nodes : List Node) (place : Nat → Nat) : Prop where
  last : place (combinators s).length = 0
  above : ∀ i < (combinators s).length, place (i + 1) < place i
  satisfied : AreSatisfied (compounds s) nodes place
  child : ∀ i k, (combinators s)[i]? = some k → k = .child → place i = place (i + 1) + 1

variable {place : Nat → Nat} {n : Node} {nodes above : List Node}

theorem areSatisfied_concat {front : List (List SelectorPart)} {last : List SelectorPart} :
    AreSatisfied (front ++ [last]) nodes place ↔ AreSatisfied front nodes place ∧
      ∃ n, nodes[place front.length]? = some n ∧ ∀ atom ∈ last, atom.isSatisfiedBy n = true :=
  forall_getElem?_concat

/-- The last compound is placed lowest. -/
theorem place_le {length : Nat} (h : ∀ i < length, place (i + 1) < place i) {i : Nat}
    (hi : i ≤ length) : place length ≤ place i := by
  induction length with
  | zero => rw [Nat.le_zero.mp hi]
  | succ length ih =>
    rcases Nat.lt_or_eq_of_le hi with hlt | rfl
    · exact (h length (Nat.lt_succ_self length)).le.trans
        (ih (fun j hj => h j (Nat.lt_succ_of_lt hj)) (Nat.le_of_lt_succ hlt))
    · exact le_rfl

/-- An atom at the end of a chain is for the first node, and changes no place. -/
theorem isPlacement_concat_atom (s : Selector) (ha : a.isCombinator = false) :
    IsPlacement (s ++ [a]) (n :: above) place ↔
      a.isSatisfiedBy n = true ∧ IsPlacement s (n :: above) place := by
  obtain ⟨front, last, hs, hsa, hlength⟩ := compounds_concat_atom s ha
  have hcombinators := combinators_concat_atom s ha
  constructor
  · rintro ⟨hlast, habove, hsatisfied, hchild⟩
    rw [hcombinators] at hlast habove hchild
    rw [hsa, areSatisfied_concat, hlength, hlast] at hsatisfied
    obtain ⟨hfront, m, hm, hatoms⟩ := hsatisfied
    obtain rfl : n = m := Option.some_inj.mp hm
    refine ⟨hatoms a (by simp), hlast, habove, ?_, hchild⟩
    rw [hs, areSatisfied_concat, hlength, hlast]
    exact ⟨hfront, n, rfl, fun atom hatom => hatoms atom (List.mem_append_left _ hatom)⟩
  · rintro ⟨hatom, hlast, habove, hsatisfied, hchild⟩
    rw [hs, areSatisfied_concat, hlength, hlast] at hsatisfied
    obtain ⟨hfront, m, hm, hatoms⟩ := hsatisfied
    obtain rfl : n = m := Option.some_inj.mp hm
    constructor
    case last => rwa [hcombinators]
    case above => rwa [hcombinators]
    case child => rwa [hcombinators]
    case satisfied =>
      rw [hsa, areSatisfied_concat, hlength, hlast]
      refine ⟨hfront, n, rfl, fun b hb => ?_⟩
      rcases List.mem_append.mp hb with hb | hb
      · exact hatoms b hb
      · exact List.mem_singleton.mp hb ▸ hatom

/-- Places that are counted from a node further up. -/
theorem isPlacement_sub {s : Selector} {nearer nodes : List Node} {place : Nat → Nat}
    (hlast : place (combinators s).length = nearer.length)
    (habove : ∀ i < (combinators s).length, place (i + 1) < place i)
    (hsatisfied : AreSatisfied (compounds s) (nearer ++ nodes) place)
    (hchild : ∀ i k, (combinators s)[i]? = some k → k = .child → place i = place (i + 1) + 1) :
    IsPlacement s nodes fun i => place i - nearer.length := by
  have hle : ∀ i ≤ (combinators s).length, nearer.length ≤ place i := fun i hi =>
    hlast ▸ place_le habove hi
  constructor
  case last => exact hlast ▸ Nat.sub_self _
  case above =>
    intro i hi
    have hi' := hle (i + 1) hi
    have hlt := habove i hi
    omega
  case satisfied =>
    intro i compound hi
    obtain ⟨n, hn, hatoms⟩ := hsatisfied i compound hi
    have hlength := length_compounds s ▸ (List.getElem?_eq_some_iff.mp hi).1
    rw [List.getElem?_append_right (hle i (Nat.le_of_lt_succ hlength))] at hn
    exact ⟨n, hn, hatoms⟩
  case child =>
    intro i k hi hk
    have hi' := hle (i + 1) (List.getElem?_eq_some_iff.mp hi).1
    have heq := hchild i k hi hk
    omega

/-- Places that are counted from a node further down, with one place more there. -/
theorem IsPlacement.add {s : Selector} {nearer nodes : List Node} {place : Nat → Nat}
    (h : IsPlacement s nodes place) {k : Combinator} (hk : k = .child → nearer = []) (n : Node) :
    IsPlacement (s ++ [.combinator k]) (n :: nearer ++ nodes) fun i =>
      if i ≤ (combinators s).length then place i + (nearer.length + 1) else 0 := by
  obtain ⟨hlast, habove, hsatisfied, hchild⟩ := h
  have hlength := length_compounds s
  constructor
  case last =>
    rw [combinators_concat_combinator, List.length_append]
    exact if_neg (Nat.not_succ_le_self _)
  case above =>
    rw [combinators_concat_combinator, List.length_append, List.length_singleton]
    intro i hi
    rw [if_pos (Nat.le_of_lt_succ hi)]
    split
    next hi' => exact Nat.add_lt_add_right (habove i hi') _
    next => exact Nat.succ_pos _
  case satisfied =>
    rw [compounds_concat_combinator, areSatisfied_concat, hlength]
    refine ⟨fun i compound hi => ?_, n, ?_, fun atom hatom => absurd hatom List.not_mem_nil⟩
    · obtain ⟨m, hm, hatoms⟩ := hsatisfied i compound hi
      refine ⟨m, ?_, hatoms⟩
      have hi' := hlength ▸ (List.getElem?_eq_some_iff.mp hi).1
      have hge : (n :: nearer).length ≤ place i + (nearer.length + 1) := Nat.le_add_left _ _
      dsimp only
      rw [if_pos (Nat.le_of_lt_succ hi'), List.getElem?_append_right hge, List.length_cons,
        Nat.add_sub_cancel]
      exact hm
    · rw [if_neg (Nat.not_succ_le_self _)]
      rfl
  case child =>
    rw [combinators_concat_combinator, forall_getElem?_concat]
    refine ⟨fun i k' hi hk' => ?_, fun hk' => ?_⟩
    · have hi' := (List.getElem?_eq_some_iff.mp hi).1
      rw [if_pos hi'.le, if_pos (show i + 1 ≤ _ from hi'), hchild i k' hi hk', Nat.add_right_comm]
    · rw [if_pos le_rfl, if_neg (Nat.not_succ_le_self _), hlast, hk hk']
      rfl

/-- A combinator at the end of a chain asks for an ancestor of the first node at which the chain in
front of it can be placed, and the child combinator for the nearest one. -/
theorem exists_isPlacement_concat_combinator (s : Selector) (k : Combinator) :
    (∃ place, IsPlacement (s ++ [.combinator k]) (n :: above) place) ↔
      ∃ nearer m further, above = nearer ++ m :: further ∧ (k = .child → nearer = []) ∧
        ∃ place, IsPlacement s (m :: further) place := by
  constructor
  · rintro ⟨place, hlast, habove, hsatisfied, hchild⟩
    rw [combinators_concat_combinator, List.length_append, List.length_singleton] at hlast habove
    rw [combinators_concat_combinator, forall_getElem?_concat] at hchild
    rw [compounds_concat_combinator, areSatisfied_concat] at hsatisfied
    have hpositive : 0 < place (combinators s).length := hlast ▸ habove _ (Nat.lt_succ_self _)
    obtain ⟨p, hp⟩ := Nat.exists_eq_succ_of_ne_zero hpositive.ne'
    -- the node at which the last compound of the chain in front stands
    have hcompound := List.getElem?_eq_getElem (l := compounds s) (i := (combinators s).length)
      (by rw [length_compounds]; exact Nat.lt_succ_self _)
    obtain ⟨m, hm, -⟩ := hsatisfied.1 _ _ hcompound
    rw [hp, List.getElem?_cons_succ] at hm
    obtain ⟨hlt, hm⟩ := List.getElem?_eq_some_iff.mp hm
    have hsplit : above = above.take p ++ m :: above.drop (p + 1) := by
      rw [← hm, ← List.drop_eq_getElem_cons hlt, List.take_append_drop]
    have hlength : (n :: above.take p).length = place (combinators s).length := by
      rw [hp, List.length_cons, List.length_take, Nat.min_eq_left hlt.le]
    refine ⟨above.take p, m, above.drop (p + 1), hsplit, fun hk => ?_, _,
      isPlacement_sub hlength.symm
        (fun i hi => habove i (Nat.lt_succ_of_lt hi)) ?_ hchild.1⟩
    · have hnext := hchild.2 hk
      rw [hlast, hp] at hnext
      rw [Nat.succ_injective hnext, List.take_zero]
    · rw [List.cons_append, ← hsplit]
      exact hsatisfied.1
  · rintro ⟨nearer, m, further, rfl, hk, place, hplace⟩
    exact ⟨_, hplace.add hk n⟩

/-! ## Matching -/

theorem fits_atom (ha : a.isCombinator = false) (rest : List SelectorPart) :
    fits (a :: rest) n above = (a.isSatisfiedBy n && fits rest n above) := by
  rcases a with _ | _ | _ | k
  case combinator => exact absurd ha (by simp [SelectorPart.isCombinator])
  all_goals rfl

/-- A combinator looks for a node above, and the child combinator no further than the parent. -/
theorem fits_combinator (k : Combinator) (rest : List SelectorPart) :
    fits (.combinator k :: rest) n above = true ↔
      ∃ nearer m further, above = nearer ++ m :: further ∧ (k = .child → nearer = []) ∧
        fits rest m further = true := by
  cases k with
  | descendant => simpa [fits] using anyAbove_eq_true_iff
  | child =>
    constructor
    · intro h
      cases above with
      | nil => exact absurd h Bool.false_ne_true
      | cons parent above => exact ⟨[], parent, above, rfl, fun _ => rfl, h⟩
    · rintro ⟨nearer, m, further, rfl, hnearer, h⟩
      rw [hnearer rfl]
      exact h

/-- **A chain fits a node if its compounds can be placed** at the node and its ancestors. -/
theorem fits_iff (parts : List SelectorPart) (n : Node) (above : List Node) :
    fits parts n above = true ↔ ∃ place, IsPlacement parts.reverse (n :: above) place := by
  induction parts generalizing n above with
  | nil =>
    refine iff_of_true rfl ⟨fun _ => 0, rfl, ?_, ?_, ?_⟩
    · exact fun i hi => absurd hi (Nat.not_lt_zero i)
    · intro i compound hi
      cases i with
      | zero =>
        obtain rfl := Option.some_inj.mp hi
        exact ⟨n, rfl, fun atom hatom => absurd hatom List.not_mem_nil⟩
      | succ i => exact absurd hi (by simp [compounds, splitBy])
    · exact fun i k hi => absurd hi (by simp [combinators])
  | cons a rest ih =>
    rw [List.reverse_cons]
    rcases a.eq_combinator_or_atom with ⟨k, rfl⟩ | ha
    · rw [exists_isPlacement_concat_combinator, fits_combinator]
      simp only [ih]
    · rw [fits_atom ha, Bool.and_eq_true, ih, ← exists_and_left]
      exact exists_congr fun place => (isPlacement_concat_atom _ ha).symm

/-- **A chain of a prelude selects an element if and only if its compounds can be placed** at nodes
from the element up to the root: the last one at the element, each of the others further up than the
one after it, and right above it where a child combinator is between them. -/
theorem selects_iff_exists_isPlacement {c : Cursor} {chains : List Selector}
    (h : listOfCursor c = .ok chains) :
    ∀ s ∈ chains,
      (ofCompounds (compounds s) (combinators s) = s ∧
        (compounds s).length = (combinators s).length + 1 ∧
        ∀ compound ∈ compounds s, ∀ a ∈ compound, a.isCombinator = false) ∧
      ∀ e : Element, s.selects e = true ↔ ∃ place, IsPlacement s e.nodes place := by
  intro s hs
  refine ⟨⟨ofCompounds_compounds s, length_compounds s, isCombinator_of_mem_compounds s⟩,
    fun e => ?_⟩
  obtain ⟨led, halternates⟩ := exists_alternates_of_mem h hs
  have hne : s.isEmpty = false := List.isEmpty_eq_false_iff.mpr halternates.ne_nil
  rw [selects, hne, Bool.not_false, Bool.true_and, fits_iff, List.reverse_reverse]
  rfl

/-- The nearest ancestor that a compound fits may be the wrong one: of two nodes of class `b` above
the element it is the further one that is the child of a node of class `a`.  A combinator in front
of a chain asks for a node above the first compound. -/
theorem selects_iff_exists_isPlacement_further :
    ∃ (c : Cursor) (s t : Selector) (e d : Element),
      Cursor.ofText ".a > .b .c:hover, > b *" = .ok c ∧ listOfCursor c = .ok [s, t] ∧
      compounds s = [[.className "a"], [.className "b"], [.className "c", .pseudo .hover]] ∧
      combinators s = [.child, .descendant] ∧
      compounds t = [[], [.className "b"], [.wildcard]] ∧
      e.nodes.map Node.classes = [["c"], ["b"], ["d"], ["b"], ["a"]] ∧
      d.nodes.map Node.classes = [["c"], ["b"], ["d"], ["b"]] ∧
      (∃ place, IsPlacement s e.nodes place) ∧ (∃ place, IsPlacement t e.nodes place) ∧
      ¬ ∃ place, IsPlacement s d.nodes place := by
  have hrun : (Cursor.ofText ".a > .b .c:hover, > b *").toOption.map
      (fun c => (listOfCursor c).toOption) =
      some (some [[.className "a", .combinator .child, .className "b", .combinator .descendant,
          .className "c", .pseudo .hover],
        [.combinator .child, .className "b", .combinator .descendant, .wildcard]]) := by
    decide +kernel
  obtain ⟨c, hc, hchains⟩ := exists_ok_of_observed hrun
  have hread := eq_ok_of_toOption hchains
  let node (name : String) : Node := ⟨[name], true, false, false, true⟩
  let e : Element := ⟨node "c", [node "b", node "d", node "b", node "a"]⟩
  let d : Element := ⟨node "c", [node "b", node "d", node "b"]⟩
  obtain ⟨hs, ht⟩ := List.forall_mem_cons.mp (selects_iff_exists_isPlacement hread)
  refine ⟨c, _, _, e, d, hc, hread, by decide, by decide, by decide, rfl, rfl, ?_, ?_, ?_⟩
  · exact (hs.2 e).mp (by decide)
  · exact ((ht _ (List.mem_singleton_self _)).2 e).mp (by decide)
  · exact fun h => absurd ((hs.2 d).mpr h) (by decide)

end Selector

end Styling
