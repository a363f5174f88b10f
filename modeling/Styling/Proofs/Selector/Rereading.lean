import Mathlib
import Styling.Proofs.Selector.Alternation
import Styling.Proofs.Syntax.Names
import Styling.Proofs.Syntax.Phrases
import Styling.Proofs.Value.Running

/-!
# Chains that are read back

A chain is written atom by atom: a class after a point, a pseudo class after a colon, and a
combinator with spaces.  When the text is read again, no two of its neighbours may become one token.
A name ends before everything that an entry can begin with; a point is not the point of a number,
since no name starts with a digit; and two hyphens at the end of a name are not the end mark of a
comment, since a space stands before each `>`.

A name has to be one that can be written as it is.  Names that are read from a text without escapes
are.

* `Selector.written` are the words of a chain, and `Selector.listFits_written` says that they are
  cut off where they end.
* `Selector.Partial.chain` is what a reader has so far, and `Selector.ofComponents_written` the run
  of the reader over the words.
* `Selector.IsSpelled` is about the names, and `Selector.isSpelled_of_listOfCursor` about those that
  are read.
* `Selector.exists_listOfCursor_css` is about the chains of a prelude.
-/

namespace Styling

open Written (IsIdentifier ListFits listChars listComponents ident space)

/-! ## Marks -/

namespace Written

variable {rest : List Char}

/-- A character that stands for itself. -/
def mark (c : Char) : Written :=
  token [c] (.delim (String.singleton c))

/-- A colon. -/
def colon : Written :=
  token [':'] .colon

theorem fits_mark {c : Char} (hc : c = '.' ∨ c = '*' ∨ c = '>')
    (hnumber : startsNumber (c :: rest) = false) : (mark c).Fits scanToken rest := by
  have hident : startsIdent (c :: rest) = false := by
    rw [startsIdent_cons]
    rcases hc with rfl | rfl | rfl <;> rfl
  rw [mark, Fits]
  refine ⟨rfl, c, [], rfl, ?_⟩
  rcases hc with rfl | rfl | rfl <;> simp [scanToken, hnumber, hident, isSpace] <;> rfl

/-- A class: the point before a name is a mark. -/
theorem listFits_class {name : List Char} (h : IsIdentifier name) (hrest : StopsIdent rest) :
    ListFits scanToken rest [mark '.', ident name] := by
  refine ⟨fits_mark (Or.inl rfl) ?_, fits_identifier h hrest, trivial⟩
  obtain ⟨c, cs, rfl⟩ := List.exists_cons_of_ne_nil h.ne_nil
  exact h.isDigit_eq_false

theorem fits_colon (rest : List Char) : colon.Fits scanToken rest := by
  have hnumber : startsNumber (':' :: rest) = false := rfl
  have hident : startsIdent (':' :: rest) = false := by
    rw [startsIdent_cons]
    rfl
  rw [colon, Fits]
  refine ⟨rfl, ':', [], rfl, ?_⟩
  simp [scanToken, hnumber, hident, isSpace]
  rfl

end Written

/-! ## The words of a chain -/

/-- The words of an entry. -/
def SelectorPart.written : SelectorPart → List Written
  | className name => [.mark '.', ident name.toList]
  | wildcard => [.mark '*']
  | pseudo p => [.colon, ident p.name.toList]
  | combinator .child => [space, .mark '>', space]
  | combinator .descendant => [space]

theorem SelectorPart.toList_css (a : SelectorPart) : a.css.toList = listChars a.written := by
  rcases a with name | _ | p | _ | _
  case className => simp [css, written, listChars, Written.chars, Written.mark, ident]
  case pseudo => simp [css, written, listChars, Written.chars, Written.colon, ident]
  all_goals rfl

/-- The name of a pseudo class is an identifier. -/
theorem PseudoClass.isIdentifier_name (p : PseudoClass) : IsIdentifier p.name.toList := by
  have hname : Written.IsName p.name.toList := by cases p <;> decide
  exact hname.isIdentifier

namespace Selector

/-- The words of a chain. -/
def written (s : Selector) : List Written :=
  s.flatMap SelectorPart.written

/-- The names of the classes can be written as they are. -/
def IsSpelled (s : Selector) : Prop :=
  ∀ name, .className name ∈ s → IsIdentifier name.toList

variable {s : Selector} {a : SelectorPart} {led : Bool}

theorem written_cons (a : SelectorPart) (s : Selector) :
    written (a :: s) = a.written ++ written s :=
  List.flatMap_cons

/-- The words make up the text of the chain. -/
theorem toList_css (s : Selector) : s.css.toList = listChars s.written := by
  induction s with
  | nil => rfl
  | cons a s ih =>
    have hone : css [a] = a.css := by simp [css]
    rw [← List.singleton_append, css_append, String.toList_append, ih, hone,
      SelectorPart.toList_css, List.singleton_append, written_cons, Written.listChars_append]

/-- Every entry of a chain stops an identifier in front of it. -/
theorem stopsIdent_written (s : Selector) : StopsIdent (listChars s.written) := by
  cases s with
  | nil => exact .nil
  | cons a s => rcases a with _ | _ | _ | _ | _ <;> exact .cons rfl (by decide) _

/-- An atom begins with no space. -/
theorem head?_written (ha : a.isCombinator = false) (s : Selector) :
    (listChars (written (a :: s))).head?.any isSpace = false := by
  rcases a with _ | _ | _ | _
  case combinator => exact absurd ha (by simp [SelectorPart.isCombinator])
  all_goals rfl

/-- **The words of a chain are cut off where they end**, whatever stands in front of them. -/
theorem listFits_written (before : Selector) (h : Alternates led (before ++ s))
    (hs : s.IsSpelled) : ListFits scanToken [] s.written := by
  induction s generalizing before with
  | nil => trivial
  | cons a s ih =>
    have hrest : ListFits scanToken [] (written s) :=
      ih (before ++ [a]) (List.append_cons before a s ▸ h) fun name hname =>
        hs name (List.mem_cons_of_mem a hname)
    rw [written_cons]
    refine Written.listFits_append.mpr ⟨?_, hrest⟩
    rw [List.append_nil]
    have hstops := stopsIdent_written s
    cases a with
    | className name => exact Written.listFits_class (hs name List.mem_cons_self) hstops
    | wildcard => exact ⟨Written.fits_mark (Or.inr (Or.inl rfl)) rfl, trivial⟩
    | pseudo p =>
      exact ⟨Written.fits_colon _, Written.fits_identifier p.isIdentifier_name hstops, trivial⟩
    | combinator k =>
      obtain ⟨-, b, more, rfl, hb⟩ := h.exists_beside rfl
      have hspace : space.Fits scanToken (listChars (written (b :: more))) :=
        Written.fits_space (head?_written hb more)
      cases k with
      | child =>
        exact ⟨Written.fits_space rfl, Written.fits_mark (Or.inr (Or.inr rfl)) rfl, hspace, trivial⟩
      | descendant => exact ⟨hspace, trivial⟩

/-- A chain is written with characters that normalization leaves alone. -/
theorem isNormalText_written (hs : s.IsSpelled) : IsNormalText (listChars s.written) := by
  have hmark : ∀ c ∈ ['.', '*', ':', '>', ' '], Source.IsNormal c := by
    intro c hc
    simp only [List.mem_cons, List.not_mem_nil, or_false] at hc
    rcases hc with rfl | rfl | rfl | rfl | rfl <;> exact ⟨by decide, by decide, by decide⟩
  have hname : ∀ {mark : Char} {name : List Char}, mark ∈ ['.', '*', ':', '>', ' '] →
      IsIdentifier name → IsNormalText (mark :: (name ++ [])) := by
    intro mark name hmem h c hc
    rw [List.append_nil] at hc
    rcases List.mem_cons.mp hc with rfl | hc
    · exact hmark c hmem
    · exact isNormal_of_isIdentChar (h.chars c hc)
  induction s with
  | nil => exact fun c hc => absurd hc List.not_mem_nil
  | cons a s ih =>
    have hrest := ih fun name hname => hs name (List.mem_cons_of_mem a hname)
    rw [written_cons, Written.listChars_append]
    refine isNormalText_append ?_ hrest
    rcases a with name | _ | p | _ | _
    case className => exact hname (by decide) (hs name List.mem_cons_self)
    case pseudo => exact hname (by decide) p.isIdentifier_name
    case wildcard => exact List.forall_mem_singleton.mpr (hmark '*' (by decide))
    case combinator.child =>
      have hspace := hmark ' ' (by decide)
      exact List.forall_mem_cons.mpr ⟨hspace, List.forall_mem_cons.mpr
        ⟨hmark '>' (by decide), List.forall_mem_singleton.mpr hspace⟩⟩
    case combinator.descendant => exact List.forall_mem_singleton.mpr (hmark ' ' (by decide))

/-! ## The reader -/

namespace Partial

/-- What was read so far, with a combinator that waits at its end. -/
def chain (p : Partial) : Selector :=
  p.reversed.reverse ++ (p.waiting.map SelectorPart.combinator).toList

variable {p : Partial}

theorem chain_push (p : Partial) (a : SelectorPart) : (p.push a).chain = p.chain ++ [a] := by
  obtain ⟨reversed, waiting⟩ := p
  cases waiting <;> simp [push, chain]

/-- A chain that alternates is complete. -/
theorem finish?_of_alternates (h : p.chain.Alternates led) : p.finish? = some p.chain := by
  obtain ⟨reversed, waiting⟩ := p
  cases waiting with
  | some k =>
    have hend : Selector.Alternates led (reversed.reverse ++ .combinator k :: []) := h
    obtain ⟨-, b, more, hnil, -⟩ := hend.exists_beside rfl
    exact absurd hnil (by simp)
  | none =>
    have hne : reversed ≠ [] := fun hnil => h.ne_nil (by rw [hnil]; rfl)
    have hempty : reversed.isEmpty = false := List.isEmpty_eq_false_iff.mpr hne
    simp [finish?, isEmpty, chain, hempty]

/-- Nothing waits where a combinator follows, and something was read unless a `>` follows. -/
theorem eq_of_combinator {k : Combinator} {t : Selector}
    (h : Selector.Alternates led (p.chain ++ .combinator k :: t)) :
    p.waiting = none ∧ (k = .descendant → p.isEmpty = false) := by
  obtain ⟨reversed, waiting⟩ := p
  obtain ⟨hbefore, -⟩ := h.exists_beside rfl
  cases waiting with
  | some k' =>
    rcases hbefore with ⟨-, hnil, -⟩ | ⟨front, a, hchain, ha⟩
    · exact absurd hnil (by simp [chain])
    · obtain ⟨-, hlast⟩ := List.append_inj' hchain rfl
      obtain rfl : .combinator k' = a := (List.cons.inj hlast).1
      exact absurd ha (by simp [SelectorPart.isCombinator])
  | none =>
    refine ⟨rfl, ?_⟩
    rintro rfl
    rcases hbefore with ⟨-, -, hk⟩ | ⟨front, a, hchain, -⟩
    · exact absurd hk (by simp)
    · refine List.isEmpty_eq_false_iff.mpr fun hnil => ?_
      rw [chain, hnil] at hchain
      exact absurd hchain (by simp)

end Partial

section Reader

variable {source : Source} {stop : Nat}

/-- The words of an atom are read as the atom. -/
theorem ofComponents_atom (ha : a.isCombinator = false) (p : Partial) (start : Nat)
    (cs : List Component) :
    ofComponents source stop p (listComponents start a.written ++ cs) =
      ofComponents source stop (p.push a) cs := by
  cases a with
  | className name =>
    exact congrArg (fun n => ofComponents source stop (p.push (.className n)) cs)
      String.ofList_toList
  | wildcard => rfl
  | pseudo c =>
    have hname : PseudoClass.ofName? (Text.lowercase (String.ofList c.name.toList)) = some c := by
      rw [String.ofList_toList]
      cases c <;> cbv
    simp only [SelectorPart.written, listComponents, Written.component, Written.colon, ident,
      List.cons_append, List.nil_append, ofComponents, hname]
  | combinator k => exact absurd ha (by simp [SelectorPart.isCombinator])

/-- After the words of a combinator the combinator waits. -/
theorem ofComponents_combinator {k : Combinator} {p : Partial} (hwaiting : p.waiting = none)
    (hread : k = .descendant → p.isEmpty = false) (start : Nat) (cs : List Component) :
    ofComponents source stop p (listComponents start (SelectorPart.combinator k).written ++ cs) =
      ofComponents source stop { p with waiting := some k } cs := by
  cases k with
  | child =>
    have hstay : Partial.space ⟨p.reversed, some .child⟩ = ⟨p.reversed, some .child⟩ :=
      if_pos (Bool.or_true _)
    calc ofComponents source stop p
          (listComponents start (SelectorPart.combinator .child).written ++ cs)
        = ofComponents source stop (Partial.space ⟨p.space.reversed, some .child⟩) cs := rfl
      _ = ofComponents source stop ⟨p.reversed, some .child⟩ cs := by
        rw [Partial.reversed_space, hstay]
  | descendant =>
    have hspace : p.space = { p with waiting := some .descendant } := by
      rw [Partial.space, hread rfl, hwaiting]
      rfl
    exact congrArg (ofComponents source stop · cs) hspace

/-- **The words of a chain are read as the chain**, behind what was read before them. -/
theorem ofComponents_written (p : Partial) (h : Selector.Alternates led (p.chain ++ s))
    (start : Nat) :
    ofComponents source stop p (listComponents start s.written) = .ok (p.chain ++ s) := by
  induction s generalizing p start with
  | nil =>
    rw [List.append_nil] at h ⊢
    have hfinish := Partial.finish?_of_alternates h
    simp only [written, List.flatMap_nil, listComponents, ofComponents, hfinish]
  | cons a s ih =>
    rw [written_cons, Written.listComponents_append]
    rcases a.eq_combinator_or_atom with ⟨k, rfl⟩ | ha
    · obtain ⟨hwaiting, hread⟩ := Partial.eq_of_combinator h
      have hchain : Partial.chain { p with waiting := some k } = p.chain ++ [.combinator k] := by
        simp [Partial.chain, hwaiting]
      rw [ofComponents_combinator hwaiting hread, ih, hchain, ← List.append_cons]
      rwa [hchain, ← List.append_cons]
    · rw [ofComponents_atom ha, ih, Partial.chain_push, ← List.append_cons]
      rwa [Partial.chain_push, ← List.append_cons]

end Reader

/-! ## Names -/

/-- A class was read before the last atom, or is that atom. -/
theorem Partial.mem_reversed_push {p : Partial} {name : String}
    (h : .className name ∈ (p.push a).reversed) :
    .className name = a ∨ .className name ∈ p.reversed := by
  obtain ⟨reversed, waiting⟩ := p
  cases waiting with
  | none => exact List.mem_cons.mp h
  | some k => exact (List.mem_cons.mp h).imp_right (List.mem_of_ne_of_mem (by simp))

/-- A class of a chain was read before, or is named by one of the components. -/
theorem exists_ident_of_ofComponents {source : Source} {stop : Nat} {p : Partial}
    {cs : List Component} (h : ofComponents source stop p cs = .ok s) :
    ∀ name, .className name ∈ s →
      .className name ∈ p.reversed ∨ ∃ span, .token ⟨.ident name, span⟩ ∈ cs := by
  intro name hname
  fun_induction ofComponents source stop p cs with
  | case1 p t hfinish =>
    obtain rfl := Except.ok.inj h
    refine Or.inl ?_
    rw [Partial.finish?] at hfinish
    split at hfinish
    next => exact absurd hfinish (by simp)
    next => exact List.mem_reverse.mp (Option.some_inj.mp hfinish ▸ hname)
  | case2 => exact absurd h (by simp)
  | case3 p content span cs ih =>
    exact (ih h).imp (p.reversed_space ▸ ·) (Exists.imp fun _ => List.mem_cons_of_mem _)
  | case4 p n span cs ih =>
    rcases ih h with hmem | ⟨span, hmem⟩
    · rcases Partial.mem_reversed_push hmem with hn | hmem
      · obtain rfl := SelectorPart.className.inj hn
        exact Or.inr ⟨_, List.mem_cons_self⟩
      · exact Or.inl hmem
    · exact Or.inr ⟨span, List.mem_cons_of_mem _ hmem⟩
  | case5 p colonSpan n span rest pseudo _ ih =>
    rcases ih h with hmem | ⟨span, hmem⟩
    · exact Or.inl ((Partial.mem_reversed_push hmem).resolve_left (by simp))
    · exact Or.inr ⟨span, List.mem_cons_of_mem _ (List.mem_cons_of_mem _ hmem)⟩
  | case6 => exact absurd h (by simp)
  | case7 => exact absurd h (by simp)
  | case8 p c cs _ _ _ _ ih =>
    exact (ih h).imp_right (Exists.imp fun _ => List.mem_cons_of_mem _)
  | case9 p c cs _ _ _ _ _ ih =>
    rcases ih h with hmem | ⟨span, hmem⟩
    · exact Or.inl ((Partial.mem_reversed_push hmem).resolve_left (by simp))
    · exact Or.inr ⟨span, List.mem_cons_of_mem _ hmem⟩
  | case10 p c cs _ _ _ _ _ _ ih =>
    exact (ih h).imp_right (Exists.imp fun _ => List.mem_cons_of_mem _)
  | case11 => exact absurd h (by simp)

/-- The names in a prelude without escapes can be written as they are. -/
theorem isSpelled_of_listOfCursor {text : String} (htext : '\\' ∉ text.toList) {c : Cursor}
    (hc : Cursor.ofText text = .ok c) {chains : List Selector} (h : listOfCursor c = .ok chains) :
    ∀ s ∈ chains, s.IsSpelled := by
  intro s hs name hname
  obtain ⟨parsed, hparsed, -, rfl⟩ := Cursor.ofText_eq_ok.mp hc
  obtain ⟨part, hpart, hread⟩ := exists_mem_of_mapM_eq_ok h s hs
  obtain ⟨cut, hcut, rfl⟩ := List.mem_map.mp hpart
  have hslash : '\\' ∉ (Source.ofString text).chars := by
    intro hmem
    rcases Source.mem_of_mem_normalize hmem with hmem | hchar | hchar
    · exact htext hmem
    · exact absurd hchar (by decide)
    · exact absurd hchar (by decide)
  rcases exists_ident_of_ofComponents hread name hname with hmem | ⟨span, hmem⟩
  · exact absurd hmem List.not_mem_nil
  · exact Source.isIdentifier_of_components hparsed hslash
      (Cursor.mem_of_mem_splitAtCommas hcut hmem)

/-! ## Preludes -/

/-- No comma is written in a chain. -/
theorem isComma_of_mem_written (start : Nat) :
    ∀ d ∈ listComponents start s.written, d.isComma = false := by
  induction s generalizing start with
  | nil => exact fun d hd => absurd hd List.not_mem_nil
  | cons a s ih =>
    rw [written_cons, Written.listComponents_append]
    refine List.forall_mem_append.mpr ⟨?_, ih _⟩
    rcases a with _ | _ | _ | _ | _ <;>
      simp [SelectorPart.written, listComponents, Written.component, Written.mark, Written.colon,
        ident, space, Component.isComma, Component.isTokenOf, TokenKind.isComma]

/-- A chain whose names can be written as they are is read from its text. -/
theorem exists_listOfCursor_of_isSpelled (halternates : s.Alternates led) (hs : s.IsSpelled) :
    ∃ d, Cursor.ofText s.css = .ok d ∧ listOfCursor d = .ok [s] := by
  have hsource : Source.ofString s.css = ⟨listChars s.written⟩ := by
    rw [Source.ofString, toList_css, Source.normalize_eq_self (isNormalText_written hs)]
  have hcomponents : (Source.ofString s.css).components = .ok ⟨listComponents 0 s.written, []⟩ := by
    rw [hsource]
    exact Written.componentsBy (listFits_written [] halternates hs)
  refine ⟨_, Cursor.ofText_eq_ok.mpr ⟨_, hcomponents, rfl, rfl⟩, ?_⟩
  generalize Source.ofString s.css = source
  have hread : ofComponents source source.length .empty (listComponents 0 s.written) = .ok s :=
    ofComponents_written .empty halternates 0
  have hparts : (Cursor.ofComponents source (listComponents 0 s.written) source.length).commaParts =
      [.ofComponents source (listComponents 0 s.written) source.length] :=
    congrArg (List.map _) (Cursor.splitAtCommas_of_forall (isComma_of_mem_written 0) source.length)
  rw [listOfCursor, hparts, List.mapM_cons]
  exact congrArg (· >>= fun chain => [].mapM _ >>= fun chains => .ok (chain :: chains)) hread

/-- **A chain of a prelude without escapes is read back from its text**, and nothing else is. -/
theorem exists_listOfCursor_css {text : String} (htext : '\\' ∉ text.toList) {c : Cursor}
    (hc : Cursor.ofText text = .ok c) {chains : List Selector} (h : listOfCursor c = .ok chains) :
    ∀ s ∈ chains, ∃ d, Cursor.ofText s.css = .ok d ∧ listOfCursor d = .ok [s] := by
  intro s hs
  obtain ⟨led, halternates⟩ := exists_alternates_of_mem h hs
  exact exists_listOfCursor_of_isSpelled halternates (isSpelled_of_listOfCursor htext hc h s hs)

/-- A name of two hyphens, one that begins with a hyphen and one that is not ASCII, next to other
atoms and behind a combinator without an atom in front of it. -/
theorem exists_listOfCursor_css_hyphens :
    ∃ c s t, Cursor.ofText "--*.ñ:Hover, > -a  > *b.c" = .ok c ∧ listOfCursor c = .ok [s, t] ∧
      s = [.className "--", .wildcard, .className "ñ", .pseudo .hover] ∧
      t = [.combinator .child, .className "-a", .combinator .child, .wildcard, .className "b",
        .className "c"] ∧
      s.css = ".--*.ñ:hover" ∧ t.css = " > .-a > *.b.c" ∧
      (∃ d, Cursor.ofText s.css = .ok d ∧ listOfCursor d = .ok [s]) ∧
      ∃ d, Cursor.ofText t.css = .ok d ∧ listOfCursor d = .ok [t] := by
  have hrun : (Cursor.ofText "--*.ñ:Hover, > -a  > *b.c").toOption.map
      (fun c => (listOfCursor c).toOption) =
      some (some [[.className "--", .wildcard, .className "ñ", .pseudo .hover],
        [.combinator .child, .className "-a", .combinator .child, .wildcard, .className "b",
          .className "c"]]) := by
    decide +kernel
  obtain ⟨c, hc, hchains⟩ := exists_ok_of_observed hrun
  have hread := eq_ok_of_toOption hchains
  have hback := exists_listOfCursor_css (by decide) hc hread
  exact ⟨c, _, _, hc, hread, rfl, rfl, by decide +kernel, by decide +kernel,
    hback _ List.mem_cons_self, hback _ (List.mem_cons_of_mem _ List.mem_cons_self)⟩

end Selector

end Styling
