import Mathlib
import Styling.Proofs.Syntax.Shifting

/-!
# The text of a run of components

In a text that is read without errors, components that follow each other at any depth can be cut out
and read on their own: the text from the first of them to the last is read, without errors, as the
same components.

What might go wrong is a closing bracket that stands alone.  Inside a group it closes nothing
because the group around it is of another sort, and cut out of the group it still closes nothing,
since no group is open.

* `Component.Sits` says that a component can be read again inside a group of some sort, and
  `Component.sits_ofTokens` that all components of a text do where they are.
* `Builder.foldl_listTokens` reads components again from their tokens.
* `Source.HoldsRun` says where a run of components comes from.
* `Source.HoldsRun.components_slice` is about the text of a run.
* `Component.Siblings` are the lists of components at one level, and
  `Source.components_slice_of_siblings` is about the text of a stretch of such a list.
-/

namespace Styling

/-! ## Components that can be read again -/

namespace Component

/-- The component is read again from its tokens where the group around it, if there is one, is
closed by the bracket `around`: groups are closed, and a closing bracket that stands alone closes
neither the group around it nor anything else. -/
inductive Sits : Option Bracket → Component → Prop
  | token {around : Option Bracket} {t : Token} (opens : Opener.ofTokenKind? t.kind = none)
    (closes : ∀ b, t.kind = .closing b → around ≠ some b) : Sits around (.token t)
  | group {around : Option Bracket} {opener : Opener} {opened span : Span} {cs : List Component}
    (inside : ∀ c ∈ cs, Sits (some opener.bracketKind) c) :
    Sits around (.group opener opened cs (.closed span))

namespace Sits

variable {around : Option Bracket} {c d : Component}

/-- Where no group is around, a closing bracket closes nothing. -/
theorem unwrap (h : c.Sits around) : c.Sits none := by
  cases h with
  | token opens closes => exact .token opens fun _ _ => by simp
  | group inside => exact .group inside

theorem of_mem_children (h : c.Sits around) (hd : d ∈ c.children) : d.Sits none := by
  cases h with
  | token opens closes => exact absurd hd List.not_mem_nil
  | group inside => exact (inside d hd).unwrap

/-- The tokens of the component go from its start to its end. -/
theorem exists_ends (h : c.Sits around) : (∃ f, c.tokens.head? = some f ∧ f.start = c.start) ∧
    ∃ l, c.tokens.getLast? = some l ∧ l.stop = c.stop := by
  cases h with
  | @token _ t opens closes =>
    rw [tokens]
    exact ⟨⟨t, rfl, rfl⟩, ⟨t, rfl, rfl⟩⟩
  | @group _ opener opened span cs inside =>
    have htokens : (Component.group opener opened cs (.closed span)).tokens =
        (⟨opener.tokenKind, opened⟩ :: listTokens cs) ++
          [⟨.closing opener.bracketKind, span⟩] := by
      rw [tokens]
      rfl
    rw [htokens]
    exact ⟨⟨_, rfl, rfl⟩, ⟨_, List.getLast?_concat, rfl⟩⟩

end Sits

end Component

namespace Builder

/-- Everything that was read sits where it is. -/
def SitsIn : List Frame → List Component → Prop
  | [], current => ∀ c ∈ current, c.Sits none
  | f :: fs, current => (∀ c ∈ current, c.Sits (some f.opener.bracketKind)) ∧ SitsIn fs f.before

/-- The bracket that closes the innermost open group. -/
def around (b : Builder) : Option Bracket :=
  b.frames.head?.map (·.opener.bracketKind)

namespace SitsIn

variable {b : Builder}

/-- A component more at the innermost level. -/
theorem add {c : Component} (h : SitsIn b.frames b.current) (hc : c.Sits b.around) :
    SitsIn (b.add c).frames (b.add c).current := by
  obtain ⟨frames, current⟩ := b
  cases frames with
  | nil => exact List.forall_mem_cons.mpr ⟨hc, h⟩
  | cons f fs => exact ⟨List.forall_mem_cons.mpr ⟨hc, h.1⟩, h.2⟩

/-- One token more. -/
theorem step (h : SitsIn b.frames b.current) (t : Token) :
    SitsIn (b.step t).frames (b.step t).current := by
  have hopen : ∀ opener : Opener, SitsIn (b.openGroup opener t.span).frames
      (b.openGroup opener t.span).current := fun _ => ⟨fun _ hc => absurd hc List.not_mem_nil, h⟩
  unfold Builder.step
  split
  next => exact hopen _
  next => exact hopen _
  next bracket _ =>
    unfold Builder.close
    split
    next hframes =>
      refine h.add (.token rfl fun b' _ => ?_)
      rw [around, hframes]
      simp
    next f fs hframes =>
      split
      next =>
        rw [hframes] at h
        have hgroup : (Component.group f.opener f.opened b.current.reverse (.closed t.span)).Sits
            (around ⟨fs, f.before⟩) := .group fun c hc => h.1 c (List.mem_reverse.mp hc)
        exact add (b := ⟨fs, f.before⟩) h.2 hgroup
      next hother =>
        refine h.add (.token rfl fun b' hb' => ?_)
        rw [around, hframes]
        obtain rfl := TokenKind.closing.inj hb'
        exact fun heq => hother (Option.some_inj.mp heq)
  next hfunction hopening hclosing =>
    refine h.add (.token ?_ fun b' hb' => absurd hb' (hclosing b'))
    unfold Opener.ofTokenKind?
    split
    next name hkind => exact absurd hkind (hfunction name)
    next bracket hkind => exact absurd hkind (hopening bracket)
    next => rfl

theorem foldl (h : SitsIn b.frames b.current) (ts : List Token) :
    SitsIn (ts.foldl Builder.step b).frames (ts.foldl Builder.step b).current := by
  induction ts generalizing b with
  | nil => exact h
  | cons t ts ih => exact ih (h.step t)

end SitsIn

/-- A token that neither opens nor closes a group is added. -/
theorem step_of_sits {b : Builder} {t : Token} (h : (Component.token t).Sits b.around) :
    b.step t = b.add (.token t) := by
  obtain ⟨kind, span⟩ := t
  cases h with
  | token opens closes =>
    cases kind with
    | function name => exact absurd opens (by simp [Opener.ofTokenKind?])
    | opening bracket => exact absurd opens (by simp [Opener.ofTokenKind?])
    | closing bracket =>
      obtain ⟨frames, current⟩ := b
      cases frames with
      | nil => rfl
      | cons f fs => exact if_neg fun heq => closes bracket rfl (congrArg some heq)
    | _ => rfl

/-- The tokens of components that are read again one after the other. -/
theorem foldl_listTokens_of_forall {around : Option Bracket} {cs : List Component}
    (h : ∀ c ∈ cs, ∀ b : Builder, b.around = around → c.tokens.foldl step b = b.add c)
    {b : Builder} (hb : b.around = around) :
    (Component.listTokens cs).foldl step b = ⟨b.frames, cs.reverse ++ b.current⟩ := by
  induction cs generalizing b with
  | nil => rfl
  | cons c cs ih =>
    have hrest := ih (fun d hd => h d (List.mem_cons_of_mem c hd)) (b := b.add c) hb
    rw [Component.listTokens, List.foldl_append, h c List.mem_cons_self b hb, hrest,
      List.reverse_cons, List.append_assoc]
    rfl

/-- The tokens of a component are read as the component. -/
theorem foldl_tokens_of_sits {around : Option Bracket} {c : Component} (h : c.Sits around)
    {b : Builder} (hb : b.around = around) : c.tokens.foldl step b = b.add c := by
  induction h generalizing b with
  | @token _ t opens closes =>
    rw [Component.tokens]
    exact step_of_sits (.token opens fun b' hb' => hb ▸ closes b' hb')
  | @group _ opener opened span cs inside ih =>
    have hopen : b.step ⟨opener.tokenKind, opened⟩ = b.openGroup opener opened := by
      cases opener <;> rfl
    have hinside := foldl_listTokens_of_forall (b := b.openGroup opener opened)
      (fun c hc b' hb' => ih c hc hb') rfl
    rw [Component.tokens, List.foldl_cons, hopen, List.foldl_append, hinside]
    simp [step, close, openGroup, add]

/-- Components that are read again one after the other. -/
theorem foldl_listTokens_of_sits {cs : List Component} {b : Builder}
    (h : ∀ c ∈ cs, c.Sits b.around) :
    (Component.listTokens cs).foldl step b = ⟨b.frames, cs.reverse ++ b.current⟩ :=
  foldl_listTokens_of_forall (fun c hc _ hb' => foldl_tokens_of_sits (h c hc) hb') rfl

end Builder

namespace Component

/-- If no group is left open, the components of a text can be read again where they are. -/
theorem sits_ofTokens {stop : Nat} {ts : List Token} (h : (ofTokens stop ts).2 = []) :
    ∀ c ∈ (ofTokens stop ts).1, c.Sits none := by
  have hempty : Builder.SitsIn Builder.empty.frames Builder.empty.current :=
    fun _ hc => absurd hc List.not_mem_nil
  have hsits := hempty.foldl ts
  simp only [ofTokens, Builder.finish] at h ⊢
  rw [h] at hsits ⊢
  exact fun c hc => hsits c (List.mem_reverse.mp hc)

/-- Components are read again from their tokens, and nothing else is. -/
theorem ofTokens_listTokens {cs : List Component} (h : ∀ c ∈ cs, c.Sits none) (stop : Nat) :
    ofTokens stop (listTokens cs) = (cs, []) := by
  have hrun := Builder.foldl_listTokens_of_sits (b := .empty) h
  simp only [ofTokens, hrun, Builder.finish]
  rw [Builder.empty, Builder.finishFrom, List.append_nil, List.reverse_reverse]

/-- The tokens of components go from the start of the first to the end of the last. -/
theorem exists_ends_listTokens {cs : List Component} {first last : Component}
    (h : ∀ c ∈ cs, c.Sits none) (hfirst : cs.head? = some first) (hlast : cs.getLast? = some last) :
    (∃ f, (listTokens cs).head? = some f ∧ f.start = first.start) ∧
      ∃ l, (listTokens cs).getLast? = some l ∧ l.stop = last.stop := by
  constructor
  · obtain ⟨more, rfl⟩ := List.head?_eq_some_iff.mp hfirst
    obtain ⟨f, hf, hstart⟩ := (h first List.mem_cons_self).exists_ends.1
    exact ⟨f, by rw [listTokens, List.head?_append, hf, Option.some_or], hstart⟩
  · obtain ⟨init, rfl⟩ := List.getLast?_eq_some_iff.mp hlast
    have hsits := h last (List.mem_append_right _ (List.mem_singleton_self last))
    obtain ⟨l, hl, hstop⟩ := hsits.exists_ends.2
    refine ⟨l, ?_, hstop⟩
    rw [listTokens_append, listTokens, listTokens, List.append_nil, List.getLast?_append, hl,
      Option.some_or]

end Component

/-! ## Runs of components in a source -/

/-- The components follow each other in what a source is read as, and can be read again. -/
structure Source.HoldsRun (s : Source) (cs : List Component) : Prop where
  tokens : Component.listTokens cs <:+: s.keptTokens
  sits : ∀ c ∈ cs, c.Sits none

namespace Source

variable {s : Source}

/-- The components of a text without errors are a run. -/
theorem holdsRun_of_components {parsed : Parsed (List Component)} (h : s.components = .ok parsed)
    (herrors : parsed.errors = []) : s.HoldsRun parsed.value := by
  obtain ⟨-, hvalue, hopen⟩ := components_eq_ok h herrors
  exact ⟨listTokens_of_components h ▸ List.infix_rfl, hvalue ▸ Component.sits_ofTokens hopen⟩

namespace HoldsRun

variable {cs ds : List Component}

/-- A part of a run is a run. -/
theorem of_infix (h : s.HoldsRun cs) (hds : ds <:+: cs) : s.HoldsRun ds := by
  obtain ⟨before, after, rfl⟩ := hds
  refine ⟨List.IsInfix.trans ?_ h.tokens, fun c hc => h.sits c ?_⟩
  · rw [Component.listTokens_append, Component.listTokens_append]
    exact ⟨_, _, rfl⟩
  · exact List.mem_append_left _ (List.mem_append_right _ hc)

/-- What is inside a component of a run is a run. -/
theorem children {c : Component} (h : s.HoldsRun cs) (hc : c ∈ cs) : s.HoldsRun c.children :=
  ⟨(Component.isInfix_listTokens_children c).trans
    ((Component.tokens_infix_listTokens hc).trans h.tokens),
    fun _ hd => (h.sits c hc).of_mem_children hd⟩

end HoldsRun

/-- Tokens that follow each other, comments left out, come from lexemes that follow each other. -/
theorem exists_run_of_infix {ts : List Token} {first last : Token} (h : ts <:+: s.keptTokens)
    (hfirst : ts.head? = some first) (hlast : ts.getLast? = some last) :
    ∃ before run after, ∃ f l : Lexeme, s.lexemes = before ++ (run ++ after) ∧
      run.head? = some f ∧ run.getLast? = some l ∧ f.token = first ∧ l.token = last ∧
      keptTokensOf run = ts := by
  obtain ⟨more, rfl⟩ := List.head?_eq_some_iff.mp hfirst
  rcases List.eq_nil_or_concat more with rfl | ⟨inner, last', rfl⟩
  · obtain rfl : first = last := Option.some_inj.mp hlast
    have hmem : first ∈ s.keptTokens := h.subset (List.mem_singleton_self first)
    obtain ⟨hmem, hkind⟩ := List.mem_filter.mp hmem
    obtain ⟨f, hf, rfl⟩ := List.mem_map.mp hmem
    obtain ⟨before, after, hlexemes⟩ := List.append_of_mem hf
    refine ⟨before, [f], after, f, f, hlexemes, rfl, rfl, rfl, rfl, ?_⟩
    simp [keptTokensOf, hkind]
  · rw [List.concat_eq_append] at h hlast ⊢
    obtain rfl : last' = last := by
      have hconcat : ((first :: inner) ++ [last']).getLast? = some last' := List.getLast?_concat
      exact Option.some_inj.mp (hconcat.symm.trans hlast)
    obtain ⟨before, middle, after, f, l, hlexemes, rfl, rfl, hmiddle⟩ := exists_lexemes_of_infix h
    have hsub : ∀ t ∈ [f.token, l.token], (!t.kind.isComment) = true := by
      intro t ht
      have hkept : t ∈ s.keptTokens := by
        refine h.subset ?_
        rcases List.mem_cons.mp ht with rfl | ht
        · exact List.mem_cons_self
        · rw [List.mem_singleton.mp ht]
          simp
      exact (List.mem_filter.mp hkept).2
    refine ⟨before, f :: (middle ++ [l]), after, f, l, by rw [hlexemes]; simp, rfl,
      (List.getLast?_concat : ((f :: middle) ++ [l]).getLast? = some l), rfl, rfl, ?_⟩
    have hf := hsub f.token List.mem_cons_self
    have hl := hsub l.token (List.mem_cons_of_mem _ (List.mem_singleton_self _))
    rw [← List.singleton_append, keptTokensOf_append, keptTokensOf_append, hmiddle]
    simp [keptTokensOf, hf, hl]

/-- The lexemes of a stretch of a text that is read without problems, moved to where the stretch
stands, are lexemes of the text. -/
theorem map_shift_lexemes_slice (hsound : ∀ l ∈ s.lexemes, l.problem = none)
    {before run after : List Lexeme} {f l : Lexeme} (h : s.lexemes = before ++ (run ++ after))
    (hf : run.head? = some f) (hl : run.getLast? = some l) :
    (Source.mk (s.sliceChars f.token.start l.token.stop)).lexemes.map
      (Lexeme.shift f.token.start) = run := by
  rw [lexemes, lexemesBy, ← lexemesFrom_shift, Nat.zero_add]
  exact lexemesFrom_sliceChars hsound h hf hl

/-- **The text of components that follow each other is read without errors as these components.** -/
theorem HoldsRun.components_slice {parsed : Parsed (List Component)} {cs : List Component}
    {first last : Component} (h : s.components = .ok parsed) (herrors : parsed.errors = [])
    (hrun : s.HoldsRun cs) (hfirst : cs.head? = some first) (hlast : cs.getLast? = some last) :
    ∃ ds, (Source.mk (s.sliceChars first.start last.stop)).components = .ok ⟨ds, []⟩ ∧
      ds.map (Component.shift first.start) = cs := by
  obtain ⟨hsound, -, -⟩ := components_eq_ok h herrors
  have hsmall := (components_cases h).1
  obtain ⟨⟨t, ht, hstart⟩, u, hu, hstop⟩ :=
    Component.exists_ends_listTokens hrun.sits hfirst hlast
  obtain ⟨before, run, after, f, l, hlexemes, hf, hl, rfl, rfl, hkept⟩ :=
    exists_run_of_infix hrun.tokens ht hu
  have hslice := map_shift_lexemes_slice hsound hlexemes hf hl
  have hstart' : f.token.start = first.start := hstart
  have hstop' : l.token.stop = last.stop := hstop
  rw [hstart', hstop'] at hslice
  generalize hT : Source.mk (s.sliceChars first.start last.stop) = T at hslice ⊢
  -- The tokens of the stretch, moved to where it stands, are those of the components.
  have htokens : T.keptTokens.map (Token.shift first.start) = Component.listTokens cs := by
    rw [← hkept, ← hslice, keptTokensOf, keptTokens, Lexeme.filter_isComment_shift]
  have htree := Component.ofTokens_shift first.start T.length T.keptTokens
  rw [htokens, Component.ofTokens_listTokens hrun.sits, Prod.mk.injEq] at htree
  have hmem : ∀ k ∈ T.lexemes, k.shift first.start ∈ s.lexemes := by
    intro k hk
    rw [hlexemes, ← hslice]
    exact List.mem_append_right _ (List.mem_append_left _ (List.mem_map_of_mem hk))
  exact ⟨_, components_of_sound (fun k hk => hsmall (k.shift _) (hmem k hk))
    (fun k hk => hsound (k.shift _) (hmem k hk)) (List.map_eq_nil_iff.mp htree.2.symm),
    htree.1.symm⟩

/-- A stretch of a text is normalized as the text is. -/
theorem ofString_slice (text : String) (start stop : Nat) :
    ofString ((ofString text).slice start stop) =
      ⟨(ofString text).sliceChars start stop⟩ := by
  rw [ofString, slice, String.toList_ofList]
  refine congrArg Source.mk (normalize_eq_self fun c hc => ?_)
  exact isNormal_of_mem_normalize (List.mem_of_mem_drop (List.mem_of_mem_take hc))

end Source

/-! ## Components at one level -/

/-- The components at one level of a tree: those at the top, or those directly inside a group. -/
inductive Component.Siblings (top : List Component) : List Component → Prop
  | top : Siblings top top
  | inside {level : List Component} {c : Component} (above : Siblings top level) (mem : c ∈ level) :
    Siblings top c.children

namespace Source

variable {s : Source}

/-- The components at each level of a run are a run. -/
theorem HoldsRun.of_siblings {top level : List Component} (h : s.HoldsRun top)
    (hlevel : Component.Siblings top level) : s.HoldsRun level := by
  induction hlevel with
  | top => exact h
  | inside above mem ih => exact ih.children mem

/-- **A stretch of siblings is read again from its own text.**  In a text that is read without
errors, take components that follow each other at some level of the tree.  The text from the start
of the first of them to the end of the last, read on its own, has no errors, and gives the same
components at all depths, each of whose spans starts and ends earlier by the start of the first. -/
theorem components_slice_of_siblings {text : String} {parsed : Parsed (List Component)}
    (h : (ofString text).components = .ok parsed) (herrors : parsed.errors = [])
    {level run : List Component} (hlevel : Component.Siblings parsed.value level)
    (hrun : run <:+: level) {first last : Component} (hfirst : run.head? = some first)
    (hlast : run.getLast? = some last) :
    ∃ again, (ofString ((ofString text).slice first.start last.stop)).components =
        .ok ⟨again, []⟩ ∧ again.map (Component.shift first.start) = run := by
  have hsiblings := (holdsRun_of_components h herrors).of_siblings hlevel
  have hholds := hsiblings.of_infix hrun
  rw [ofString_slice]
  exact hholds.components_slice h herrors hfirst hlast

/-- Inside a function, an identifier with an escape and a block with a stray bracket are cut out
from between a comment and another stray bracket. -/
theorem components_slice_of_siblings_inside :
    ∃ parsed level run first last, (ofString "a f(x/**/\\62 [c)] ])").components = .ok parsed ∧
      parsed.errors = [] ∧ Component.Siblings parsed.value level ∧ run <:+: level ∧
      run.head? = some first ∧ run.getLast? = some last ∧
      (ofString "a f(x/**/\\62 [c)] ])").slice first.start last.stop = "\\62 [c)]" ∧
      ∃ again, (ofString "\\62 [c)]").components = .ok ⟨again, []⟩ ∧
        again.map (Component.shift first.start) = run := by
  let run : List Component := [.token ⟨.ident "b", ⟨9, 13⟩⟩,
    .group (.bracket .square) ⟨13, 14⟩
      [.token ⟨.ident "c", ⟨14, 15⟩⟩, .token ⟨.closing .round, ⟨15, 16⟩⟩] (.closed ⟨16, 17⟩)]
  let level : List Component := .token ⟨.ident "x", ⟨4, 5⟩⟩ ::
    (run ++ [.token ⟨.whitespace " ", ⟨17, 18⟩⟩, .token ⟨.closing .square, ⟨18, 19⟩⟩])
  let call : Component := .group (.function "f") ⟨2, 4⟩ level (.closed ⟨19, 20⟩)
  let top : List Component := [.token ⟨.ident "a", ⟨0, 1⟩⟩, .token ⟨.whitespace " ", ⟨1, 2⟩⟩, call]
  have htext : (ofString "a f(x/**/\\62 [c)] ])").components = .ok ⟨top, []⟩ := by cbv
  have hlevel : Component.Siblings top level :=
    .inside (c := call) .top (List.mem_of_getLast? rfl)
  have hrun : run <:+: level := ⟨[_], _, rfl⟩
  have hslice : (ofString "a f(x/**/\\62 [c)] ])").slice 9 17 = "\\62 [c)]" := by cbv
  have hagain := components_slice_of_siblings htext rfl hlevel hrun rfl rfl
  exact ⟨⟨top, []⟩, level, run, _, _, htext, rfl, hlevel, hrun, rfl, rfl, hslice, hslice ▸ hagain⟩

end Source

end Styling
