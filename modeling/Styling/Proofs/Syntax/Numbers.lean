import Styling.Proofs.Number.Comparable
import Styling.Proofs.Syntax.Subtree
import Styling.Syntax.Rule

/-!
# The numbers of a text

A scanner makes numerals from digits, and so each of them is a number.  Trees hold the tokens of
their text and nothing else, and what a declaration is given stands in the block that it is part of,
so the same holds of every value that is written in a style sheet.

* `isNaN_scanToken` is about a token, `Component.IsComparable` about all tokens of a component.
* `Source.isComparable_of_components` is about a text, and `Component.IsComparable.of_mem_children`
  goes into groups.
* `RuleSyntax.isComparable_ofComponents` and `DeclarationSyntax.isComparable_ofComponents` are about
  rules and declarations.
-/

namespace Styling

/-- The token holds a value that is no number. -/
def TokenKind.isNaN : TokenKind → Bool
  | number n | percentage n | dimension n _ => n.quantity.isNaN
  | _ => false

/-! ## Tokens -/

theorem isNaN_scanNumeric (cs : List Char) : (scanNumeric cs).kind.isNaN = false := by
  have hnumeral := Quantity.isNaN_ofParts (NumeralParts.scan cs)
  simp only [scanNumeric]
  split_ifs <;> exact hnumeral

/-- Numerals are numbers. -/
theorem isNaN_scanToken (c : Char) (cs : List Char) : (scanToken c cs).kind.isNaN = false := by
  have hscan := scans_scanToken c cs
  generalize scanToken c cs = s at hscan
  cases hscan with
  | numeric starts => exact isNaN_scanNumeric (c :: cs)
  | quoted quote => exact test_scanQuoted (fun _ => rfl) (fun _ => rfl) c cs
  | hash sign => exact test_scanHash (fun _ _ => rfl) (fun _ => rfl) cs
  | identLike starts unmarked => exact test_scanIdentLike (fun _ => rfl) (fun _ => rfl) (c :: cs)
  | _ => rfl

/-- What a scanner tells of every token holds of the tokens of a text. -/
theorem forall_mem_lexemesFrom {scan : Scanner} {test : TokenKind → Bool}
    (h : ∀ c cs, test (scan c cs).kind = false) {start : Nat} {cs : List Char} :
    ∀ l ∈ lexemesFrom scan start cs, test l.token.kind = false := by
  intro l hl
  obtain ⟨before, c, rest, -, rfl⟩ := exists_scan_of_mem_lexemesFrom hl
  exact h c rest

/-! ## Components -/

/-- All that is written in a component as a number is one. -/
def Component.IsComparable (c : Component) : Prop :=
  ∀ t ∈ c.tokens, t.kind.isNaN = false

namespace Component

theorem IsComparable.of_mem_children {c d : Component} (h : c.IsComparable) (hd : d ∈ c.children) :
    d.IsComparable := by
  have hinside := isInfix_listTokens_children c
  exact fun t ht => h t (hinside.mem ((tokens_infix_listTokens hd).mem ht))

end Component

/-- Whatever is wrong with a text, its numbers are numbers. -/
theorem Source.isComparable_of_components {s : Source} {parsed : Parsed (List Component)}
    (h : s.components = .ok parsed) : ∀ c ∈ parsed.value, c.IsComparable := by
  intro c hc t ht
  have hkept : t ∈ s.keptTokens :=
    listTokens_of_components h ▸ (Component.tokens_infix_listTokens hc).mem ht
  obtain ⟨l, hl, rfl⟩ := List.mem_map.mp (List.mem_filter.mp hkept).1
  exact forall_mem_lexemesFrom isNaN_scanToken l hl

/-! ## Rules and declarations -/

/-- A part stands in the list as it was. -/
theorem infix_of_mem_splitBy {α : Type} {p : α → Bool} {as part : List α}
    (h : part ∈ splitBy p as) : part <:+: as := by
  -- The first part has to be known to stand at the front, or nothing could be put before it.
  suffices hparts : ((splitBy p as).head (splitBy_ne_nil p as) <+: as) ∧
      ∀ part ∈ (splitBy p as).tail, part <:+: as by
    rw [← List.cons_head_tail (splitBy_ne_nil p as)] at h
    rcases List.mem_cons.mp h with rfl | h
    · exact hparts.1.isInfix
    · exact hparts.2 part h
  clear h
  induction as with
  | nil => exact ⟨List.prefix_rfl, fun part h => absurd h List.not_mem_nil⟩
  | cons a as ih =>
    have hmore : ∀ part ∈ (splitBy p as).tail, part <:+: a :: as := fun part h =>
      (ih.2 part h).trans (List.suffix_cons a as).isInfix
    by_cases ha : p a = true
    · have hsplit : splitBy p (a :: as) = [] :: splitBy p as := by rw [splitBy, if_pos ha]
      simp only [hsplit, List.head_cons, List.tail_cons]
      refine ⟨List.nil_prefix, fun part h => ?_⟩
      rw [← List.cons_head_tail (splitBy_ne_nil p as)] at h
      rcases List.mem_cons.mp h with rfl | h
      · exact ih.1.isInfix.trans (List.suffix_cons a as).isInfix
      · exact hmore part h
    · obtain ⟨first, parts, hfirst⟩ := List.exists_cons_of_ne_nil (splitBy_ne_nil p as)
      have hsplit : splitBy p (a :: as) = (a :: first) :: parts := by
        rw [splitBy, if_neg ha, hfirst]
      simp only [hfirst, List.head_cons, List.tail_cons] at ih hmore
      simp only [hsplit, List.head_cons, List.tail_cons]
      exact ⟨List.cons_prefix_cons.mpr ⟨rfl, ih.1⟩, hmore⟩

theorem isPrefix_dropLastWhile {α : Type} (p : α → Bool) (as : List α) :
    dropLastWhile p as <+: as := by
  have hreverse := List.reverse_prefix.mpr (List.dropWhile_suffix p (l := as.reverse))
  rwa [List.reverse_reverse] at hreverse

namespace DeclarationSyntax

theorem isPrefix_splitImportant (value : List Component) : (splitImportant value).2 <+: value := by
  unfold splitImportant
  dsimp only
  split
  · refine (isPrefix_dropLastWhile _ _).trans ?_
    have hreverse := List.reverse_prefix.mpr (List.drop_suffix 2 value.reverse)
    rwa [List.reverse_reverse] at hreverse
  · exact List.prefix_rfl

theorem isInfix_value_of_ofRest {source : Source} {name : String} {start : Nat}
    {rest : List Component} {d : DeclarationSyntax} (h : ofRest source name start rest = .ok d) :
    d.value <:+: rest := by
  unfold ofRest at h
  split at h
  next span afterColon hcolon =>
    obtain rfl := Except.ok.inj h
    have hrest : afterColon <:+ rest :=
      (List.suffix_cons _ _).trans (hcolon ▸ List.dropWhile_suffix _)
    have hkept := (isPrefix_splitImportant _).trans
      (isPrefix_dropLastWhile Component.isWhitespace (afterColon.dropWhile Component.isWhitespace))
    exact hkept.isInfix.trans ((List.dropWhile_suffix _).trans hrest).isInfix
  next => exact absurd h (by simp)

theorem isInfix_value_of_ofPart {source : Source} {part : List Component} {d : DeclarationSyntax}
    (h : ofPart source part = some (.ok d)) : d.value <:+: part := by
  unfold ofPart at h
  split at h
  next => exact absurd h (by simp)
  next name span rest hname =>
    have hrest : rest <:+ part :=
      (List.suffix_cons _ _).trans (hname ▸ List.dropWhile_suffix _)
    exact (isInfix_value_of_ofRest (Option.some_inj.mp h)).trans hrest.isInfix
  next => exact absurd h (by simp)

/-- The value of a declaration stands in its block as it was. -/
theorem isInfix_value {source : Source} {cs : List Component} {d : DeclarationSyntax}
    (h : d ∈ (ofComponents source cs).value) : d.value <:+: cs := by
  obtain ⟨read, hread, hd⟩ := List.mem_filterMap.mp h
  obtain ⟨part, hpart, hofPart⟩ := List.mem_filterMap.mp hread
  cases read with
  | error e => exact absurd hd (by simp)
  | ok d' =>
    obtain rfl := Option.some_inj.mp hd
    exact (isInfix_value_of_ofPart hofPart).trans (infix_of_mem_splitBy hpart)

/-- All that is written in the value as a number is one. -/
def IsComparable (d : DeclarationSyntax) : Prop :=
  ∀ c ∈ d.value, c.IsComparable

/-- The value of a declaration is made of components of its block. -/
theorem isComparable_ofComponents (source : Source) {cs : List Component}
    (hcs : ∀ c ∈ cs, c.IsComparable) : ∀ d ∈ (ofComponents source cs).value, d.IsComparable :=
  fun _ h c hc => hcs c ((isInfix_value h).mem hc)

end DeclarationSyntax

namespace RuleSyntax

/-- A rule that ends with a block ends with the component that was read. -/
theorem ofComponent?_of_stepInside {head : RuleHead} {start : Nat} {prelude : List Component}
    {c : Component} {r : RuleSyntax} (h : (State.stepInside head start prelude c).2 = some r)
    {block : BlockSyntax} (hblock : r.block = some block) :
    BlockSyntax.ofComponent? c = some block := by
  unfold State.stepInside at h
  split at h
  next found hfound =>
    obtain rfl := Option.some_inj.mp h
    exact hfound.trans hblock
  next =>
    split at h
    next =>
      obtain rfl := Option.some_inj.mp h
      exact absurd hblock (by simp [State.emit])
    next => exact absurd h (by simp)

theorem ofComponent?_of_step {state : State} {c : Component} {r : RuleSyntax}
    (h : (state.step c).2 = some r) {block : BlockSyntax} (hblock : r.block = some block) :
    BlockSyntax.ofComponent? c = some block := by
  unfold State.step at h
  split at h
  · exact absurd h (by simp)
  · exact absurd h (by simp)
  · exact absurd h (by simp)
  · exact absurd h (by simp)
  · exact ofComponent?_of_stepInside h hblock
  · exact ofComponent?_of_stepInside h hblock

/-- A block is one of the components. -/
theorem exists_of_block {source : Source} {state : State} {cs : List Component} {r : RuleSyntax}
    (h : r ∈ (ofComponents source state cs).value) {block : BlockSyntax}
    (hblock : r.block = some block) : ∃ c ∈ cs, BlockSyntax.ofComponent? c = some block := by
  induction cs generalizing state with
  | nil =>
    rw [ofComponents] at h
    cases state with
    | between => exact absurd h List.not_mem_nil
    | inside head start prelude =>
      cases head with
      | qualified => exact absurd h List.not_mem_nil
      | atRule name =>
        obtain rfl := List.mem_singleton.mp h
        exact absurd hblock (by simp [State.emit])
  | cons c cs ih =>
    rw [ofComponents] at h
    rcases List.mem_append.mp h with h | h
    · exact ⟨c, List.mem_cons_self, ofComponent?_of_step (Option.mem_toList.mp h) hblock⟩
    · obtain ⟨d, hd, hdblock⟩ := ih h
      exact ⟨d, List.mem_cons_of_mem c hd, hdblock⟩

/-- What is inside the block of a rule is inside one of the components. -/
theorem exists_children_of_block {source : Source} {state : State} {cs : List Component}
    {r : RuleSyntax} (h : r ∈ (ofComponents source state cs).value) {block : BlockSyntax}
    (hblock : r.block = some block) : ∃ c ∈ cs, block.children = c.children := by
  obtain ⟨c, hc, hfound⟩ := exists_of_block h hblock
  refine ⟨c, hc, ?_⟩
  unfold BlockSyntax.ofComponent? at hfound
  split at hfound
  next =>
    obtain rfl := Option.some_inj.mp hfound
    rfl
  next => exact absurd hfound (by simp)

/-- All that is written in the block as a number is one. -/
def IsComparable (r : RuleSyntax) : Prop :=
  ∀ block, r.block = some block → ∀ c ∈ block.children, c.IsComparable

theorem isComparable_ofComponents (source : Source) (state : State) {cs : List Component}
    (hcs : ∀ c ∈ cs, c.IsComparable) :
    ∀ r ∈ (ofComponents source state cs).value, r.IsComparable := by
  intro r h block hblock
  obtain ⟨c, hc, hchildren⟩ := exists_children_of_block h hblock
  exact fun d hd => (hcs c hc).of_mem_children (hchildren ▸ hd)

end RuleSyntax

/-- The rules of a source are those of its components. -/
theorem Source.rules_eq_ok_iff {s : Source} {parsed : Parsed (List RuleSyntax)} :
    s.rules = .ok parsed ↔ ∃ components, s.components = .ok components ∧
      parsed = ⟨(RuleSyntax.ofComponents s .between components.value).value,
        components.errors ++ (RuleSyntax.ofComponents s .between components.value).errors⟩ := by
  rw [rules]
  cases s.components with
  | error f => simp [bind, Except.bind]
  | ok components =>
    simp only [bind, Except.bind, pure, Except.pure, Except.ok.injEq, exists_eq_left']
    exact eq_comm

/-- Whatever is wrong with the rules of a text, their numbers are numbers. -/
theorem Source.isComparable_of_rules {s : Source} {parsed : Parsed (List RuleSyntax)}
    (h : s.rules = .ok parsed) : ∀ r ∈ parsed.value, r.IsComparable := by
  obtain ⟨components, hcomponents, rfl⟩ := rules_eq_ok_iff.mp h
  exact RuleSyntax.isComparable_ofComponents s .between (isComparable_of_components hcomponents)

end Styling
