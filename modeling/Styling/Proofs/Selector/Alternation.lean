import Mathlib
import Styling.Proofs.Value.Accepting
import Styling.Selector.Basic

/-!
# The shape of a chain

Matching cuts a chain at its combinators and takes what stands between them for compounds.  Reading
gives chains of that shape: they end with an atom, and no two combinators stand next to each other,
whatever the order of blanks, marks and atoms in the text.  They begin with an atom as well, except
in one case.  A blank before the first atom is passed over, but a `>` there is kept, so a chain that
is written with one begins with a child combinator.

* `Selector.IsAlternating` is the shape, and `Selector.Alternates` the shape after an optional child
  combinator.
* `Selector.Partial.Alternates` is what the states of the reader have in common;
  `Selector.Partial.Alternates.push` and its like are the steps.
* `Selector.alternates_of_listOfCursor` is about the chains of a prelude.
-/

namespace Styling

namespace Selector

/-- A chain that is not empty, begins and ends with an atom, and never has two combinators next to
each other. -/
structure IsAlternating (s : Selector) : Prop where
  nonempty : s ≠ []
  first : ∀ a ∈ s.head?, a.isCombinator = false
  last : ∀ a ∈ s.getLast?, a.isCombinator = false
  apart : s.IsChain fun a b => ¬ (a.isCombinator = true ∧ b.isCombinator = true)

/-- An alternating chain, after a child combinator if there is to be one. -/
def Alternates (led : Bool) (s : Selector) : Prop :=
  match led with
  | false => s.IsAlternating
  | true => ∃ t, s = .combinator .child :: t ∧ IsAlternating t

namespace IsAlternating

variable {s : Selector} {a : SelectorPart}

theorem singleton (ha : a.isCombinator = false) : IsAlternating [a] where
  nonempty := List.cons_ne_nil a []
  first b hb := by
    obtain rfl : a = b := Option.some_inj.mp hb
    exact ha
  last b hb := by
    obtain rfl : a = b := Option.some_inj.mp hb
    exact ha
  apart := List.isChain_singleton a

/-- An atom at the end, in the last compound. -/
theorem append_atom (hs : s.IsAlternating) (ha : a.isCombinator = false) :
    IsAlternating (s ++ [a]) where
  nonempty := List.append_ne_nil_of_left_ne_nil hs.nonempty [a]
  first b hb := hs.first b (List.head?_append_of_ne_nil s hs.nonempty ▸ hb)
  last b hb := by
    obtain rfl : a = b := Option.some_inj.mp (List.getLast?_concat ▸ hb)
    exact ha
  apart := by
    refine List.isChain_append.mpr ⟨hs.apart, List.isChain_singleton a, fun b _ d hd hboth => ?_⟩
    obtain rfl : a = d := Option.some_inj.mp hd
    exact Bool.false_ne_true (ha.symm.trans hboth.2)

/-- An atom at the end, in a compound of its own. -/
theorem append_related (hs : s.IsAlternating) (k : Combinator) (ha : a.isCombinator = false) :
    IsAlternating (s ++ [.combinator k, a]) where
  nonempty := List.append_ne_nil_of_left_ne_nil hs.nonempty _
  first b hb := hs.first b (List.head?_append_of_ne_nil s hs.nonempty ▸ hb)
  last b hb := by
    rw [List.append_cons, List.getLast?_concat] at hb
    obtain rfl : a = b := Option.some_inj.mp hb
    exact ha
  apart := by
    refine List.isChain_append.mpr ⟨hs.apart, List.isChain_pair.mpr ?_, fun b hb d _ hboth => ?_⟩
    · exact fun hboth => Bool.false_ne_true (ha.symm.trans hboth.2)
    · exact Bool.false_ne_true ((hs.last b hb).symm.trans hboth.1)

/-- Every combinator stands between two atoms. -/
theorem exists_beside (hs : s.IsAlternating) {before after : List SelectorPart} {k : Combinator}
    (h : s = before ++ .combinator k :: after) :
    (∃ front a, before = front ++ [a] ∧ a.isCombinator = false) ∧
      ∃ b rest, after = b :: rest ∧ b.isCombinator = false := by
  subst h
  obtain ⟨-, hafter, hbefore⟩ := List.isChain_append.mp hs.apart
  constructor
  · rcases List.eq_nil_or_concat before with rfl | ⟨front, a, rfl⟩
    · exact absurd (hs.first (.combinator k) rfl) (by simp [SelectorPart.isCombinator])
    · have hnot := hbefore a (by simp) (.combinator k) rfl
      exact ⟨front, a, List.concat_eq_append, by simpa [SelectorPart.isCombinator] using hnot⟩
  · cases after with
    | nil => exact absurd (hs.last (.combinator k) (by simp)) (by simp [SelectorPart.isCombinator])
    | cons b rest =>
      have hnot := (List.isChain_cons_cons.mp hafter).1
      exact ⟨b, rest, rfl, by simpa [SelectorPart.isCombinator] using hnot⟩

end IsAlternating

namespace Alternates

variable {led : Bool} {s : Selector} {a : SelectorPart}

theorem append_atom (hs : s.Alternates led) (ha : a.isCombinator = false) :
    Alternates led (s ++ [a]) := by
  cases led with
  | false => exact IsAlternating.append_atom hs ha
  | true =>
    obtain ⟨t, rfl, ht⟩ := hs
    exact ⟨t ++ [a], rfl, ht.append_atom ha⟩

theorem append_related (hs : s.Alternates led) (k : Combinator) (ha : a.isCombinator = false) :
    Alternates led (s ++ [.combinator k, a]) := by
  cases led with
  | false => exact IsAlternating.append_related hs k ha
  | true =>
    obtain ⟨t, rfl, ht⟩ := hs
    exact ⟨t ++ [.combinator k, a], rfl, ht.append_related k ha⟩

theorem ne_nil (hs : s.Alternates led) : s ≠ [] := by
  cases led with
  | false => exact IsAlternating.nonempty hs
  | true =>
    obtain ⟨t, rfl, -⟩ := hs
    exact List.cons_ne_nil _ t

/-- Every combinator stands between two atoms, except for the one in front. -/
theorem exists_beside (hs : s.Alternates led) {before after : List SelectorPart} {k : Combinator}
    (h : s = before ++ .combinator k :: after) :
    ((led = true ∧ before = [] ∧ k = .child) ∨
        ∃ front a, before = front ++ [a] ∧ a.isCombinator = false) ∧
      ∃ b rest, after = b :: rest ∧ b.isCombinator = false := by
  cases led with
  | false => exact (IsAlternating.exists_beside hs h).imp_left Or.inr
  | true =>
    obtain ⟨t, rfl, ht⟩ := hs
    cases before with
    | nil =>
      obtain ⟨hk, rfl⟩ := List.cons.inj h
      obtain rfl := SelectorPart.combinator.inj hk
      obtain ⟨b, rest, rfl⟩ := List.exists_cons_of_ne_nil ht.nonempty
      exact ⟨Or.inl ⟨rfl, rfl, rfl⟩, b, rest, rfl, ht.first b rfl⟩
    | cons x before =>
      obtain ⟨rfl, htail⟩ := List.cons.inj h
      obtain ⟨⟨front, a, rfl, ha⟩, hafter⟩ := ht.exists_beside htail
      exact ⟨Or.inr ⟨_ :: front, a, rfl, ha⟩, hafter⟩

end Alternates

/-! ## The reader -/

/-- A component that may stand before the first atom of a chain: a blank, a `>` or a point. -/
def standsBeforeAtom (c : Component) : Bool :=
  c.isWhitespace || c.isTokenOf (·.isDelim ">") || c.isTokenOf (·.isDelim ".")

/-- A `>` stands before the first atom. -/
def leadsWithChild (cs : List Component) : Bool :=
  (cs.takeWhile standsBeforeAtom).any (·.isTokenOf (·.isDelim ">"))

namespace Partial

/-- What was read alternates; before the first atom at most a child combinator waits. -/
def Alternates (led : Bool) (p : Partial) : Prop :=
  if p.isEmpty then p.waiting = if led then some .child else none
  else Selector.Alternates led p.reversed.reverse

variable {led : Bool} {p : Partial}

theorem alternates_empty : Alternates false empty := rfl

namespace Alternates

/-- An atom is read. -/
theorem push (hp : p.Alternates led) {a : SelectorPart} (ha : a.isCombinator = false) :
    (p.push a).Alternates led ∧ (p.push a).isEmpty = false := by
  obtain ⟨reversed, waiting⟩ := p
  cases reversed with
  | nil =>
    obtain rfl : waiting = if led then some .child else none := hp
    cases led with
    | false => exact ⟨IsAlternating.singleton ha, rfl⟩
    | true => exact ⟨⟨[a], rfl, .singleton ha⟩, rfl⟩
  | cons b reversed =>
    have hread : Selector.Alternates led (b :: reversed).reverse := hp
    cases waiting with
    | none =>
      refine ⟨?_, rfl⟩
      have hmore := hread.append_atom ha
      rwa [← List.reverse_cons] at hmore
    | some k =>
      refine ⟨?_, rfl⟩
      have hmore := hread.append_related k ha
      rw [List.append_cons, ← List.reverse_cons, ← List.reverse_cons] at hmore
      exact hmore

/-- A blank is read. -/
theorem space (hp : p.Alternates led) :
    p.space.Alternates led ∧ p.space.isEmpty = p.isEmpty := by
  rw [Partial.space]
  split
  next => exact ⟨hp, rfl⟩
  next h =>
    have hread : p.isEmpty = false := (Bool.or_eq_false_iff.mp (Bool.not_eq_true _ ▸ h)).1
    rw [Alternates, hread] at hp
    refine ⟨?_, rfl⟩
    rw [Alternates, show isEmpty { p with waiting := some .descendant } = false from hread]
    exact hp

/-- A `>` is read. -/
theorem child (hp : p.Alternates led) :
    Alternates (led || p.isEmpty) { p with waiting := some .child } := by
  have hsame : isEmpty { p with waiting := some .child } = p.isEmpty := rfl
  rw [Alternates, hsame]
  cases hread : p.isEmpty with
  | true => simp
  | false =>
    rw [Alternates, hread] at hp
    rw [Bool.or_false]
    exact hp

/-- The chain is complete. -/
theorem finish (hp : p.Alternates led) {s : Selector} (h : p.finish? = some s) :
    p.isEmpty = false ∧ Selector.Alternates led s := by
  rw [finish?] at h
  split at h
  next => exact absurd h (by simp)
  next hcomplete =>
    have hread : p.isEmpty = false :=
      (Bool.or_eq_false_iff.mp (Bool.not_eq_true _ ▸ hcomplete)).1
    rw [Alternates, hread] at hp
    exact ⟨hread, Option.some_inj.mp h ▸ hp⟩

end Alternates

end Partial

/-- A mark before the first atom: it is passed over. -/
theorem leadsWithChild_cons {c : Component} (h : standsBeforeAtom c = true) (cs : List Component) :
    leadsWithChild (c :: cs) = (c.isTokenOf (·.isDelim ">") || leadsWithChild cs) := by
  rw [leadsWithChild, List.takeWhile_cons_of_pos h, List.any_cons]
  rfl

/-- An atom: nothing after it is looked at. -/
theorem leadsWithChild_atom {c : Component} (h : standsBeforeAtom c = false) (cs : List Component) :
    leadsWithChild (c :: cs) = false := by
  rw [leadsWithChild, List.takeWhile_cons_of_neg (Bool.not_eq_true _ ▸ h)]
  rfl

theorem standsBeforeAtom_of_wildcard {c : Component} (h : c.isTokenOf (·.isDelim "*") = true) :
    standsBeforeAtom c = false := by
  cases c with
  | group => exact absurd h Bool.false_ne_true
  | token t =>
    obtain ⟨kind, span⟩ := t
    cases kind with
    | delim mark =>
      obtain rfl : mark = "*" := eq_of_beq h
      rfl
    | _ => exact absurd h Bool.false_ne_true

/-- An atom is read: whatever follows, nothing leads the chain that did not wait before it. -/
theorem Partial.Alternates.of_push {p : Partial} {led : Bool} {a : SelectorPart} {c : Component}
    {rest cs : List Component} {s : Selector} (hp : p.Alternates led) (ha : a.isCombinator = false)
    (hc : standsBeforeAtom c = false)
    (hrest : (p.push a).Alternates led →
      Selector.Alternates (led || ((p.push a).isEmpty && leadsWithChild rest)) s) :
    Selector.Alternates (led || (p.isEmpty && leadsWithChild (c :: cs))) s := by
  obtain ⟨hpush, hread⟩ := hp.push ha
  have hs := hrest hpush
  rw [hread, Bool.false_and] at hs
  rwa [leadsWithChild_atom hc, Bool.and_false]

/-- The run: what is read from a state alternates after what was read before.  The chain is led by a
combinator if one waited before the first atom or a `>` is met before it. -/
theorem alternates_of_ofComponents {source : Source} {stop : Nat} {p : Partial} {led : Bool}
    {cs : List Component} {s : Selector} (hp : p.Alternates led)
    (h : ofComponents source stop p cs = .ok s) :
    s.Alternates (led || (p.isEmpty && leadsWithChild cs)) := by
  fun_induction ofComponents source stop p cs generalizing led with
  | case1 p t hfinish =>
    obtain rfl := Except.ok.inj h
    obtain ⟨hread, hs⟩ := hp.finish hfinish
    rwa [hread, Bool.false_and, Bool.or_false]
  | case2 => exact absurd h (by simp)
  | case3 p content span cs ih =>
    obtain ⟨hspace, hread⟩ := hp.space
    have hs := ih hspace h
    rw [hread] at hs
    rwa [leadsWithChild_cons rfl, show Component.isTokenOf _ _ = false from rfl, Bool.false_or]
  | case4 p name span cs ih => exact hp.of_push rfl rfl fun hpush => ih hpush h
  | case5 p colonSpan name span rest pseudo _ ih =>
    exact hp.of_push rfl rfl fun hpush => ih hpush h
  | case6 => exact absurd h (by simp)
  | case7 => exact absurd h (by simp)
  | case8 p c cs _ _ _ hchild ih =>
    have hs := ih hp.child h
    have hc : standsBeforeAtom c = true := by simp [standsBeforeAtom, hchild]
    rw [leadsWithChild_cons hc, hchild, Bool.true_or, Bool.and_true]
    have hread : Partial.isEmpty { p with waiting := some .child } = p.isEmpty := rfl
    rw [hread] at hs
    cases hempty : p.isEmpty with
    | true =>
      rw [hempty, Bool.or_true, Bool.true_or] at hs
      rwa [Bool.or_true]
    | false => rwa [hempty, Bool.false_and, Bool.or_false] at hs
  | case9 p c cs _ _ _ _ hwildcard ih =>
    exact hp.of_push rfl (standsBeforeAtom_of_wildcard hwildcard) fun hpush => ih hpush h
  | case10 p c cs _ _ _ hchild _ hpoint ih =>
    have hc : standsBeforeAtom c = true := by simp [standsBeforeAtom, hpoint]
    rw [leadsWithChild_cons hc, Bool.eq_false_iff.mpr hchild, Bool.false_or]
    exact ih hp h
  | case11 => exact absurd h (by simp)

/-- Each chain of a prelude alternates, whichever part it is read from. -/
theorem exists_alternates_of_mem {c : Cursor} {chains : List Selector}
    (h : listOfCursor c = .ok chains) {s : Selector} (hs : s ∈ chains) :
    ∃ led, s.Alternates led := by
  obtain ⟨part, -, hpart⟩ := exists_mem_of_mapM_eq_ok h s hs
  exact ⟨_, alternates_of_ofComponents Partial.alternates_empty hpart⟩

/-- **Every chain of a prelude that is read alternates**: it ends with an atom, and each of its
combinators stands between two atoms.  It begins with an atom as well, unless a `>` stands before
the first atom of its part of the prelude; then it begins with a child combinator. -/
theorem alternates_of_listOfCursor {c : Cursor} {chains : List Selector}
    (h : listOfCursor c = .ok chains) :
    List.Forall₂ (fun part s =>
      Alternates (leadsWithChild part.components) s ∧
        ∀ before k after, s = before ++ .combinator k :: after →
          ((leadsWithChild part.components = true ∧ before = [] ∧ k = .child) ∨
              ∃ front a, before = front ++ [a] ∧ a.isCombinator = false) ∧
            ∃ b rest, after = b :: rest ∧ b.isCombinator = false) c.commaParts chains := by
  refine (forall₂_of_mapM_eq_ok h).imp fun part s hs => ?_
  have hshape := alternates_of_ofComponents Partial.alternates_empty hs
  exact ⟨hshape, fun _ _ _ => hshape.exists_beside⟩

/-- A `>` with blanks, points and another `>` around it is one combinator; before the first atom it
is kept, and a blank at the end is not. -/
theorem alternates_of_listOfCursor_marks :
    ∃ c chains, Cursor.ofText " .b > . > *:hover , >.a " = .ok c ∧
      listOfCursor c = .ok chains ∧
      chains = [[.className "b", .combinator .child, .wildcard, .pseudo .hover],
        [.combinator .child, .className "a"]] ∧
      List.Forall₂ (fun part s => Alternates (leadsWithChild part.components) s)
        c.commaParts chains := by
  have hrun : (Cursor.ofText " .b > . > *:hover , >.a ").toOption.map
      (fun c => (listOfCursor c).toOption) =
      some (some [[.className "b", .combinator .child, .wildcard, .pseudo .hover],
        [.combinator .child, .className "a"]]) := by
    decide +kernel
  obtain ⟨c, hc, hchains⟩ := exists_ok_of_observed hrun
  have hread := eq_ok_of_toOption hchains
  exact ⟨c, _, hc, hread, rfl, (alternates_of_listOfCursor hread).imp fun _ _ hs => hs.1⟩

/-- A chain that begins with a combinator is read. -/
theorem exists_not_isAlternating :
    ∃ c, Cursor.ofText "> .a" = .ok c ∧
      listOfCursor c = .ok [[.combinator .child, .className "a"]] ∧
      ¬ IsAlternating [.combinator .child, .className "a"] := by
  have hrun : (Cursor.ofText "> .a").toOption.map (fun c => (listOfCursor c).toOption) =
      some (some [[.combinator .child, .className "a"]]) := by
    decide +kernel
  obtain ⟨c, hc, hchains⟩ := exists_ok_of_observed hrun
  refine ⟨c, hc, eq_ok_of_toOption hchains, fun hs => ?_⟩
  exact absurd (hs.first (.combinator .child) rfl) (by simp [SelectorPart.isCombinator])

end Selector

end Styling
