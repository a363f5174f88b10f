import Mathlib.Data.List.Nodup
import Mathlib.Data.List.Pairwise
import Styling.Proofs.Syntax.Cutting
import Styling.Proofs.Syntax.Subtree

/-!
# Two texts that agree up to a token

Two texts are the same up to a place where each of them has a token that is no bracket.  Then the
tokens before that place are the same, and so are the components, except for the groups that are
open there: these are opened alike and agree inside.

* `exists_common_before` is about lexemes.
* `AgreeUpTo` is the relation between the components of the two texts, and `agreeUpTo_ofTokens`
  establishes it from the tokens.
* `AgreeUpTo.here_of_mem` and `AgreeUpTo.inside_of_mem` tell where the token stands, since
  `Component.eq_of_mem_tokens` says that no token is in two components.
* `Component.opensVar_of_ofTokens` is about tokens of a text without `var()` calls, and
  `Source.agreeUpTo_of_components` about the two texts.
-/

namespace Styling

/-! ## Lexemes -/

/-- The token at the start of a text is the first one. -/
theorem exists_lexemesFrom_eq_cons {cs : List Char} {start : Nat} {l : Lexeme}
    (hl : l ∈ lexemesFrom scanToken start cs) (hstart : l.token.start = start) :
    ∃ after, lexemesFrom scanToken start cs = l :: after := by
  cases cs with
  | nil => simp at hl
  | cons c cs =>
    rw [lexemesFrom_cons] at hl ⊢
    rcases List.mem_cons.mp hl with rfl | hl
    · exact ⟨_, rfl⟩
    · have hlater := (le_start_of_mem_lexemesFrom hl).1
      omega

/-- Behind the first part of a text there is a token.  Then the first token of the text lies in that
part, whatever comes behind it. -/
theorem lexemesFrom_eq_of_mem {a : Char} {as xs : List Char} {start : Nat} {l : Lexeme}
    (hl : l ∈ lexemesFrom scanToken start (a :: as ++ xs))
    (hstart : l.token.start = start + (as.length + 1))
    (hsound : ∀ k ∈ lexemesFrom scanToken start (a :: as ++ xs), k.problem = none) :
    (scanToken a as).extra ≤ as.length ∧
      l ∈ lexemesFrom scanToken (start + (scanToken a as).extra + 1)
        (as.drop (scanToken a as).extra ++ xs) ∧
      lexemesFrom scanToken start (a :: as ++ xs) =
        ⟨⟨(scanToken a as).kind, ⟨start, start + (scanToken a as).extra + 1⟩⟩,
            (scanToken a as).problem⟩ ::
          lexemesFrom scanToken (start + (scanToken a as).extra + 1)
            (as.drop (scanToken a as).extra ++ xs) := by
  rw [List.cons_append, lexemesFrom_cons] at hl hsound ⊢
  have hrest : l ∈ lexemesFrom scanToken (start + (scanToken a (as ++ xs)).extra + 1)
      ((as ++ xs).drop (scanToken a (as ++ xs)).extra) := by
    rcases List.mem_cons.mp hl with rfl | hl
    · dsimp only [Token.start] at hstart
      omega
    · exact hl
  have hextra : (scanToken a (as ++ xs)).extra ≤ as.length := by
    have hle := (le_start_of_mem_lexemesFrom hrest).1
    omega
  have hlocal := isLocal_scanToken a as xs hextra (hsound _ List.mem_cons_self)
  rw [hlocal] at hextra hrest ⊢
  rw [List.drop_append_of_le_length hextra] at hrest ⊢
  exact ⟨hextra, hrest, rfl⟩

/-- Two texts have a first part in common, behind which each of them has a token.  Then they have
the same tokens before it. -/
theorem exists_common_before {as xs ys : List Char} {start : Nat} {l l' : Lexeme}
    (hsound : ∀ k ∈ lexemesFrom scanToken start (as ++ xs), k.problem = none)
    (hsound' : ∀ k ∈ lexemesFrom scanToken start (as ++ ys), k.problem = none)
    (hl : l ∈ lexemesFrom scanToken start (as ++ xs)) (hstart : l.token.start = start + as.length)
    (hl' : l' ∈ lexemesFrom scanToken start (as ++ ys))
    (hstart' : l'.token.start = start + as.length) :
    ∃ before after after', lexemesFrom scanToken start (as ++ xs) = before ++ l :: after ∧
      lexemesFrom scanToken start (as ++ ys) = before ++ l' :: after' ∧
      ∀ k ∈ before, k.token.stop ≤ start + as.length := by
  generalize hn : as.length = n at hstart hstart' ⊢
  induction n using Nat.strongRecOn generalizing as start with
  | ind n ih =>
    subst hn
    cases as with
    | nil =>
      obtain ⟨after, hafter⟩ := exists_lexemesFrom_eq_cons hl hstart
      obtain ⟨after', hafter'⟩ := exists_lexemesFrom_eq_cons hl' hstart'
      exact ⟨[], after, after', hafter, hafter', fun k hk => absurd hk List.not_mem_nil⟩
    | cons a as =>
      rw [List.length_cons] at hstart hstart' ih ⊢
      obtain ⟨hextra, hrest, hshape⟩ := lexemesFrom_eq_of_mem hl hstart hsound
      obtain ⟨-, hrest', hshape'⟩ := lexemesFrom_eq_of_mem hl' hstart' hsound'
      rw [hshape] at hsound ⊢
      rw [hshape'] at hsound' ⊢
      have hlength : (as.drop (scanToken a as).extra).length = as.length - (scanToken a as).extra :=
        List.length_drop
      obtain ⟨before, after, after', hbefore, hbefore', hstop⟩ :=
        ih _ (by omega) (List.forall_mem_cons.mp hsound).2 (List.forall_mem_cons.mp hsound').2 hrest
          hrest' rfl (by omega) (by omega)
      refine ⟨_ :: before, after, after', by rw [hbefore]; rfl, by rw [hbefore']; rfl, ?_⟩
      refine List.forall_mem_cons.mpr ⟨?_, fun k hk => (hstop k hk).trans (by omega)⟩
      dsimp only [Token.stop]
      omega

/-- Lexemes start one after the other. -/
theorem pairwise_lexemesFrom (scan : Scanner) (start : Nat) (cs : List Char) :
    (lexemesFrom scan start cs).Pairwise fun k l => k.token.start < l.token.start := by
  generalize hn : cs.length = n
  induction n using Nat.strongRecOn generalizing start cs with
  | ind n ih =>
    cases cs with
    | nil =>
      rw [lexemesFrom_nil]
      exact .nil
    | cons c cs =>
      rw [List.length_cons] at hn
      have hlength : (cs.drop (scan c cs).extra).length = cs.length - (scan c cs).extra :=
        List.length_drop
      rw [lexemesFrom_cons]
      refine List.pairwise_cons.mpr ⟨fun l hl => ?_, ih _ (by omega) _ _ rfl⟩
      have hle := (le_start_of_mem_lexemesFrom hl).1
      dsimp only [Token.start] at hle ⊢
      omega

/-- No token of a text is there twice. -/
theorem Source.nodup_keptTokens (s : Source) : s.keptTokens.Nodup := by
  have htokens : (s.lexemes.map Lexeme.token).Pairwise fun t u => t.start < u.start :=
    List.pairwise_map.mpr (pairwise_lexemesFrom scanToken 0 s.chars)
  refine List.Pairwise.filter _ (htokens.imp fun hlt => ?_)
  rintro rfl
  exact Nat.lt_irrefl _ hlt

/-! ## Components -/

/-- No token is in two components. -/
theorem Component.eq_of_mem_tokens {cs : List Component} (hnodup : (listTokens cs).Nodup)
    {x y : Component} (hx : x ∈ cs) (hy : y ∈ cs) {t : Token} (htx : t ∈ x.tokens)
    (hty : t ∈ y.tokens) : x = y := by
  rw [listTokens_eq_flatMap] at hnodup
  have hdisjoint := (List.nodup_flatMap.mp hnodup).2
  have hsymm : Std.Symm (Function.onFun List.Disjoint tokens) := ⟨fun _ _ h _ hy hx => h hx hy⟩
  by_contra hne
  exact hdisjoint.forall hx hy hne htx hty

/-- Two lists of components agree up to a component `m` of the first, in whose place the second has
`o`: at this level, or inside groups that are opened alike. -/
inductive AgreeUpTo (S T : Source) (m o : Component) : List Component → List Component → Prop
  | here {before after after' : List Component} (shared : ∀ x ∈ before, x.Shared S T) :
    AgreeUpTo S T m o (before ++ m :: after) (before ++ o :: after')
  | inside {opener : Opener} {opened : Span} {before after after' xs ys : List Component}
    {ending ending' : Ending} (shared : ∀ x ∈ before, x.Shared S T)
    (children : AgreeUpTo S T m o xs ys) :
    AgreeUpTo S T m o (before ++ .group opener opened xs ending :: after)
      (before ++ .group opener opened ys ending' :: after')

variable {S T : Source}

namespace AgreeUpTo

variable {o : Component} {t : Token} {cs ds : List Component}

theorem mem_listTokens (h : AgreeUpTo S T (.token t) o cs ds) : t ∈ Component.listTokens cs := by
  induction h with
  | here shared => simp [Component.listTokens_append, Component.listTokens, Component.tokens]
  | inside shared children ih =>
    simp [Component.listTokens_append, Component.listTokens, Component.tokens, ih]

/-- The token stands at this level. -/
theorem here_of_mem (h : AgreeUpTo S T (.token t) o cs ds)
    (hnodup : (Component.listTokens cs).Nodup) (hmem : .token t ∈ cs) :
    ∃ before after after', (∀ x ∈ before, x.Shared S T) ∧ cs = before ++ .token t :: after ∧
      ds = before ++ o :: after' := by
  cases h with
  | here shared => exact ⟨_, _, _, shared, rfl, rfl⟩
  | @inside opener opened before after after' xs ys ending ending' shared children =>
    have hgroup : t ∈ (Component.group opener opened xs ending).tokens :=
      (Component.isInfix_listTokens_children (.group opener opened xs ending)).subset
        children.mem_listTokens
    have heq := Component.eq_of_mem_tokens hnodup hmem
      (List.mem_append_right before List.mem_cons_self) (by simp [Component.tokens]) hgroup
    exact nomatch heq

/-- The token stands inside a group, or at this level as well. -/
theorem inside_of_mem (h : AgreeUpTo S T (.token t) o cs ds)
    (hnodup : (Component.listTokens cs).Nodup) {opener : Opener} {opened : Span}
    {xs : List Component} {ending : Ending} (hg : .group opener opened xs ending ∈ cs)
    (hmem : .token t ∈ xs) :
    ∃ before after after' ys ending', (∀ x ∈ before, x.Shared S T) ∧
      cs = before ++ .group opener opened xs ending :: after ∧
      ds = before ++ .group opener opened ys ending' :: after' ∧
      ∃ inner rest rest', (∀ x ∈ inner, x.Shared S T) ∧ xs = inner ++ .token t :: rest ∧
        ys = inner ++ o :: rest' := by
  have htokens : t ∈ (Component.group opener opened xs ending).tokens := by
    refine (Component.isInfix_listTokens_children (.group opener opened xs ending)).subset ?_
    exact (Component.tokens_infix_listTokens hmem).subset (by simp [Component.tokens])
  cases h with
  | here shared =>
    have heq := Component.eq_of_mem_tokens hnodup hg (List.mem_append_right _ List.mem_cons_self)
      htokens (by simp [Component.tokens])
    exact nomatch heq
  | @inside opener' opened' before after after' xs' ys ending'' ending' shared children =>
    have hinside : t ∈ (Component.group opener' opened' xs' ending'').tokens :=
      (Component.isInfix_listTokens_children (.group opener' opened' xs' ending'')).subset
        children.mem_listTokens
    have hmem' : Component.group opener' opened' xs' ending'' ∈
        before ++ .group opener' opened' xs' ending'' :: after :=
      List.mem_append_right before List.mem_cons_self
    obtain ⟨rfl, rfl, rfl, rfl⟩ := Component.group.inj
      (Component.eq_of_mem_tokens hnodup hg hmem' htokens hinside)
    have hnodup' : (Component.listTokens xs).Nodup := by
      refine hnodup.sublist (List.IsInfix.sublist ?_)
      exact (Component.isInfix_listTokens_children (.group opener opened xs ending)).trans
        (Component.tokens_infix_listTokens hmem')
    exact ⟨before, after, after', ys, ending', shared, rfl, rfl, children.here_of_mem hnodup' hmem⟩

end AgreeUpTo

/-! ## From tokens to components -/

/-- If two innermost levels agree whatever is read there, so do the two texts, which share the open
groups. -/
theorem agreeUpTo_of_extends {m o : Component} {fs : List Frame}
    {current current' cs ds : List Component} (hfs : ∀ f ∈ fs, ∀ c ∈ f.before, c.Shared S T)
    (hcurrent : ∀ more more', AgreeUpTo S T m o (current.reverse ++ more)
      (current'.reverse ++ more'))
    (hcs : Builder.Extends fs current cs) (hds : Builder.Extends fs current' ds) :
    AgreeUpTo S T m o cs ds := by
  induction fs generalizing current current' with
  | nil =>
    obtain ⟨more, rfl⟩ := hcs
    obtain ⟨more', rfl⟩ := hds
    exact hcurrent more more'
  | cons f fs ih =>
    obtain ⟨more, ending, hcs⟩ := hcs
    obtain ⟨more', ending', hds⟩ := hds
    obtain ⟨hbefore, hfs⟩ := List.forall_mem_cons.mp hfs
    refine ih hfs (fun more₁ more₂ => ?_) hcs hds
    rw [List.reverse_cons, List.reverse_cons, List.append_assoc, List.append_assoc]
    exact .inside (fun c hc => hbefore c (List.mem_reverse.mp hc)) (hcurrent more more')

/-- Two texts with the same tokens up to a token each that is no bracket agree up to it. -/
theorem agreeUpTo_ofTokens {n : Nat} {before after after' : List Token} {t u : Token}
    (h : S.chars.take n = T.chars.take n)
    (hbefore : ∀ k ∈ before, k.stop ≤ n ∧ k.kind.opensVar = false)
    (ht : ∀ b : Builder, b.step t = b.add (.token t))
    (hu : ∀ b : Builder, b.step u = b.add (.token u)) (stop stop' : Nat) :
    AgreeUpTo S T (.token t) (.token u) (Component.ofTokens stop (before ++ t :: after)).1
      (Component.ofTokens stop' (before ++ u :: after')).1 := by
  have hshared := (Builder.Shared.empty (S := S) (T := T)).foldl h hbefore
  simp only [Component.ofTokens, List.foldl_append, List.foldl_cons, ht, hu]
  generalize before.foldl Builder.step .empty = b at hshared
  refine agreeUpTo_of_extends (fun f hf => (hshared.frames f hf).2) (fun more more' => ?_)
    (Builder.extends_foldl stop after (b.add (.token t)))
    (Builder.extends_foldl stop' after' (b.add (.token u)))
  simp only [Builder.add, List.reverse_cons, List.append_assoc, List.singleton_append]
  exact .here fun c hc => hshared.current c (List.mem_reverse.mp hc)

/-! ## Calls of variables -/

/-- A `var()` call that was read is held by the whole. -/
theorem Builder.listContainsVar_of_extends {fs : List Frame} {current cs : List Component}
    (h : Extends fs current cs) (hvar : ∃ c ∈ current, c.containsVar = true) :
    Component.listContainsVar cs = true := by
  induction fs generalizing current with
  | nil =>
    obtain ⟨more, rfl⟩ := h
    obtain ⟨c, hc, hvar⟩ := hvar
    rw [Component.listContainsVar_eq_any, List.any_eq_true]
    exact ⟨c, List.mem_append_left _ (List.mem_reverse.mpr hc), hvar⟩
  | cons f fs ih =>
    obtain ⟨more, ending, h⟩ := h
    obtain ⟨c, hc, hvar⟩ := hvar
    refine ih h ⟨_, List.mem_cons_self, ?_⟩
    rw [Component.containsVar, Component.listContainsVar_eq_any, Bool.or_eq_true, List.any_eq_true]
    exact Or.inr ⟨c, List.mem_append_left _ (List.mem_reverse.mpr hc), hvar⟩

/-- Where no `var()` call is held, no token opens one. -/
theorem Component.opensVar_of_ofTokens {stop : Nat} {ts : List Token}
    (h : listContainsVar (ofTokens stop ts).1 = false) : ∀ t ∈ ts, t.kind.opensVar = false := by
  intro t ht
  by_contra hopens
  obtain ⟨before, after, rfl⟩ := List.append_of_mem ht
  obtain ⟨kind, span⟩ := t
  cases kind with
  | function name =>
    have hvar : (Opener.function name).isFunction "var" = true := Bool.not_eq_false _ ▸ hopens
    have hextends := Builder.extends_foldl stop after
      ((before.foldl Builder.step .empty).openGroup (.function name) span)
    obtain ⟨more, ending, hextends⟩ := hextends
    have hholds := Builder.listContainsVar_of_extends hextends
      ⟨_, List.mem_cons_self, by rw [containsVar, hvar, Bool.true_or]⟩
    rw [ofTokens, List.foldl_append, List.foldl_cons] at h
    exact absurd (h.symm.trans hholds) Bool.false_ne_true
  | _ => exact hopens rfl

/-! ## Texts -/

/-- Two texts that are read without errors are the same up to a place where each of them has a token
that is no bracket, and the first has no `var()` call.  Then they agree up to this token. -/
theorem Source.agreeUpTo_of_components {cs ds : List Component} (hS : S.components = .ok ⟨cs, []⟩)
    (hT : T.components = .ok ⟨ds, []⟩) (hvar : Component.listContainsVar cs = false) {t u : Token}
    (ht : t ∈ Component.listTokens cs) (hu : u ∈ Component.listTokens ds)
    (hstart : u.start = t.start) (hsame : S.chars.take t.start = T.chars.take t.start)
    (hstep : ∀ b : Builder, b.step t = b.add (.token t))
    (hstep' : ∀ b : Builder, b.step u = b.add (.token u)) :
    AgreeUpTo S T (.token t) (.token u) cs ds := by
  obtain ⟨hsound, hcs, -⟩ := components_eq_ok hS rfl
  obtain ⟨hsound', hds, -⟩ := components_eq_ok hT rfl
  subst hcs hds
  have hopens := Component.opensVar_of_ofTokens hvar
  rw [Component.listTokens_ofTokens] at ht hu
  obtain ⟨ht, hkept⟩ := List.mem_filter.mp ht
  obtain ⟨hu, hkept'⟩ := List.mem_filter.mp hu
  obtain ⟨l, hl, rfl⟩ := List.mem_map.mp ht
  obtain ⟨l', hl', rfl⟩ := List.mem_map.mp hu
  -- The first part that the texts have in common goes up to the tokens.
  obtain ⟨as, c, rest, hchars, hlexeme⟩ := exists_scan_of_mem_lexemesFrom hl
  have hlength : l.token.start = 0 + as.length := congrArg (·.token.start) hlexeme
  have htake : S.chars.take l.token.start = as := by
    rw [hchars, hlength, Nat.zero_add, List.take_left]
  have hchars' : T.chars = as ++ T.chars.drop l.token.start := by
    rw [← htake, hsame, List.take_append_drop]
  have hlexemes : S.lexemes = lexemesFrom scanToken 0 (as ++ c :: rest) := by
    rw [lexemes, lexemesBy, hchars]
  have hlexemes' : T.lexemes = lexemesFrom scanToken 0 (as ++ T.chars.drop l.token.start) := by
    rw [lexemes, lexemesBy, ← hchars']
  obtain ⟨before, after, after', hbefore, hbefore', hstop⟩ := exists_common_before
    (hlexemes ▸ hsound) (hlexemes' ▸ hsound') (hlexemes ▸ hl) hlength (hlexemes' ▸ hl')
    (hstart.trans hlength)
  have hkeptTokens : S.keptTokens = keptTokensOf before ++ l.token :: keptTokensOf after := by
    rw [keptTokens, hlexemes, hbefore, ← keptTokensOf, keptTokensOf_append]
    exact congrArg _ (List.filter_cons_of_pos hkept)
  have hkeptTokens' : T.keptTokens = keptTokensOf before ++ l'.token :: keptTokensOf after' := by
    rw [keptTokens, hlexemes', hbefore', ← keptTokensOf, keptTokensOf_append]
    exact congrArg _ (List.filter_cons_of_pos hkept')
  rw [hkeptTokens] at hopens ⊢
  rw [hkeptTokens']
  refine agreeUpTo_ofTokens hsame (fun k hk => ⟨?_, hopens k (List.mem_append_left _ hk)⟩) hstep
    hstep' _ _
  obtain ⟨j, hj, rfl⟩ := List.mem_map.mp (List.mem_filter.mp hk).1
  rw [hlength]
  exact hstop j hj

end Styling
