import Styling.Proofs.Syntax.Tree

/-!
# The tokens of a tree

Grouping loses no token: the components of a text have the tokens of the text, in the same order,
whatever brackets fit.  So what a tree holds can be looked for among the tokens.

* `Builder.tokens` lists the tokens read so far, and every step adds its own.
* `listTokens_ofTokens` is the statement about the tree.
* `Component.exists_opensVar` finds the token of a `var()` call that a component holds.
* `Source.listTokens_of_components` is about any text, `Source.components_eq_ok` about one that is
  read without errors.
-/

namespace Styling

namespace Builder

/-- The tokens of open groups and of the reversed components at the innermost level. -/
def tokens : List Frame → List Component → List Token
  | [], current => Component.listTokens current.reverse
  | f :: fs, current =>
    tokens fs f.before ++ ⟨f.opener.tokenKind, f.opened⟩ :: Component.listTokens current.reverse

/-- A component more at the innermost level comes last. -/
theorem tokens_cons (fs : List Frame) (c : Component) (current : List Component) :
    tokens fs (c :: current) = tokens fs current ++ c.tokens := by
  have hlast : Component.listTokens [c] = c.tokens := by
    rw [Component.listTokens, Component.listTokens, List.append_nil]
  cases fs with
  | nil => rw [tokens, tokens, List.reverse_cons, Component.listTokens_append, hlast]
  | cons f fs =>
    rw [tokens, tokens, List.reverse_cons, Component.listTokens_append, hlast, List.append_assoc,
      List.cons_append]

/-- A step adds the token that was read. -/
theorem tokens_step (b : Builder) (t : Token) :
    tokens (b.step t).frames (b.step t).current = tokens b.frames b.current ++ [t] := by
  have hopen : ∀ opener : Opener, opener.tokenKind = t.kind →
      tokens (b.openGroup opener t.span).frames (b.openGroup opener t.span).current =
        tokens b.frames b.current ++ [t] := by
    intro opener hkind
    rw [openGroup, tokens, hkind]
    rfl
  have hadd : ∀ u : Token, u = t → tokens (b.add (.token u)).frames (b.add (.token u)).current =
      tokens b.frames b.current ++ [t] := by
    rintro u rfl
    rw [add, tokens_cons, Component.tokens]
  unfold step
  split
  next name hkind => exact hopen _ hkind.symm
  next bracket hkind => exact hopen _ hkind.symm
  next bracket hkind =>
    have htoken : (⟨.closing bracket, t.span⟩ : Token) = t := by rw [← hkind]
    unfold close
    split
    next => exact hadd _ htoken
    next f fs hframes =>
      split
      next hbracket =>
        rw [tokens_cons, Component.tokens, hbracket, htoken, hframes, tokens, List.append_assoc,
          List.cons_append]
      next => exact hadd _ htoken
  next => exact hadd t rfl

theorem tokens_foldl (ts : List Token) (b : Builder) :
    tokens (ts.foldl step b).frames (ts.foldl step b).current =
      tokens b.frames b.current ++ ts := by
  induction ts generalizing b with
  | nil => rw [List.foldl_nil, List.append_nil]
  | cons t ts ih => rw [List.foldl_cons, ih, tokens_step, List.append_assoc, List.singleton_append]

/-- Groups that end at the end of the text have no token for it. -/
theorem listTokens_finishFrom (stop : Nat) (fs : List Frame) (current : List Component) :
    Component.listTokens (finishFrom stop current fs) = tokens fs current := by
  induction fs generalizing current with
  | nil => rw [finishFrom, tokens]
  | cons f fs ih =>
    rw [finishFrom, ih, tokens_cons, tokens, Component.tokens, List.append_nil]

end Builder

namespace Component

/-- No token is lost. -/
@[simp] theorem listTokens_ofTokens (stop : Nat) (ts : List Token) :
    listTokens (ofTokens stop ts).1 = ts := by
  rw [ofTokens, Builder.finish, Builder.listTokens_finishFrom, Builder.tokens_foldl]
  rfl

mutual

/-- A `var()` call that a component holds was opened by one of its tokens. -/
theorem exists_opensVar {c : Component} (h : c.containsVar = true) :
    ∃ t ∈ c.tokens, t.kind.opensVar = true := by
  cases c with
  | token t => exact absurd h (by simp)
  | group opener opened cs ending =>
    rw [containsVar] at h
    simp only [tokens]
    rcases Bool.or_eq_true_iff.mp h with h | h
    · refine ⟨_, List.mem_cons_self, ?_⟩
      cases opener with
      | function name => exact h
      | bracket b => exact absurd h Bool.false_ne_true
    · obtain ⟨t, ht, hvar⟩ := exists_opensVar_of_list h
      exact ⟨t, List.mem_cons_of_mem _ (List.mem_append_left _ ht), hvar⟩

theorem exists_opensVar_of_list {cs : List Component} (h : listContainsVar cs = true) :
    ∃ t ∈ listTokens cs, t.kind.opensVar = true := by
  cases cs with
  | nil => exact absurd h (by simp)
  | cons c cs =>
    rw [listContainsVar] at h
    rw [listTokens]
    rcases Bool.or_eq_true_iff.mp h with h | h
    · obtain ⟨t, ht, hvar⟩ := exists_opensVar h
      exact ⟨t, List.mem_append_left _ ht, hvar⟩
    · obtain ⟨t, ht, hvar⟩ := exists_opensVar_of_list h
      exact ⟨t, List.mem_append_right _ ht, hvar⟩

end

end Component

/-! ## Texts -/

/-- The components of a text are those of its tokens without comments. -/
def Source.keptTokens (s : Source) : List Token :=
  (s.lexemes.map (·.token)).filter fun t => !t.kind.isComment

/-- The tokens of a text are put together to its components. -/
theorem Source.components_of_lex {s : Source} {lexed : Lexed} (h : s.lex = .ok lexed) :
    s.components = .ok ⟨(Component.ofTokens s.length lexed.kept).1,
      lexed.errors ++ (Component.ofTokens s.length lexed.kept).2.map s.unclosedError⟩ := by
  rw [lex] at h
  rw [components, componentsBy, h]
  rfl

/-- A text has components unless it has an integer with too many digits. -/
theorem Source.components_eq (s : Source) : s.components =
    if s.lexemes.any fun l => l.token.kind.isOversized then .error .digitLimit
    else .ok ⟨(Component.ofTokens s.length s.keptTokens).1,
      s.lexemes.filterMap (·.error? s) ++
        (Component.ofTokens s.length s.keptTokens).2.map s.unclosedError⟩ := by
  rw [components, componentsBy]
  by_cases h : (s.lexemes.any fun l => l.token.kind.isOversized) = true
  · have hlex : s.lexBy scanToken = .error .digitLimit := if_pos h
    rw [if_pos h, hlex]
    rfl
  · have hlex : s.lexBy scanToken =
        .ok ⟨s.lexemes.map (·.token), s.lexemes.filterMap (·.error? s)⟩ := if_neg h
    rw [if_neg h, hlex]
    rfl

/-- The components of a text, whatever errors it has. -/
theorem Source.components_cases {s : Source} {parsed : Parsed (List Component)}
    (h : s.components = .ok parsed) :
    (∀ l ∈ s.lexemes, l.token.kind.isOversized = false) ∧
      parsed.value = (Component.ofTokens s.length s.keptTokens).1 ∧
      parsed.errors = s.lexemes.filterMap (·.error? s) ++
        (Component.ofTokens s.length s.keptTokens).2.map s.unclosedError := by
  rw [components_eq] at h
  split at h
  next => exact absurd h (by simp)
  next hsmall =>
    obtain rfl := Except.ok.inj h
    exact ⟨fun l hl => by simpa using List.any_eq_false.mp (Bool.eq_false_iff.mpr hsmall) l hl,
      rfl, rfl⟩

/-- No token of a text is lost, whatever errors it has. -/
theorem Source.listTokens_of_components {s : Source} {parsed : Parsed (List Component)}
    (h : s.components = .ok parsed) : Component.listTokens parsed.value = s.keptTokens := by
  rw [(components_cases h).2.1, Component.listTokens_ofTokens]

/-- A text that is read without errors has no lexeme with a problem, and no group is left open. -/
theorem Source.components_eq_ok {s : Source} {parsed : Parsed (List Component)}
    (h : s.components = .ok parsed) (herrors : parsed.errors = []) :
    (∀ l ∈ s.lexemes, l.problem = none) ∧
      parsed.value = (Component.ofTokens s.length s.keptTokens).1 ∧
      (Component.ofTokens s.length s.keptTokens).2 = [] := by
  obtain ⟨-, hvalue, hall⟩ := components_cases h
  rw [hall] at herrors
  obtain ⟨hlex, hopen⟩ := List.append_eq_nil_iff.mp herrors
  refine ⟨fun l hl => ?_, hvalue, List.map_eq_nil_iff.mp hopen⟩
  exact Option.map_eq_none_iff.mp (List.filterMap_eq_nil_iff.mp hlex l hl)

/-- A text without oversized integers, problems and open groups is read without errors. -/
theorem Source.components_of_sound {s : Source}
    (hsmall : ∀ l ∈ s.lexemes, l.token.kind.isOversized = false)
    (hsound : ∀ l ∈ s.lexemes, l.problem = none)
    (hopen : (Component.ofTokens s.length s.keptTokens).2 = []) :
    s.components = .ok ⟨(Component.ofTokens s.length s.keptTokens).1, []⟩ := by
  have hnone : ¬ (s.lexemes.any fun l => l.token.kind.isOversized) = true := by
    rw [Bool.not_eq_true, List.any_eq_false]
    exact fun l hl => by simp [hsmall l hl]
  have hlex : s.lexemes.filterMap (·.error? s) = [] :=
    List.filterMap_eq_nil_iff.mpr fun l hl => by simp [Lexeme.error?, hsound l hl]
  rw [components_eq, if_neg hnone, hlex, hopen, List.map_nil, List.append_nil]

end Styling
