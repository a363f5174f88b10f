import Mathlib.Data.List.TakeWhile
import Styling.Proofs.Value.Clearing

/-!
# Two texts that agree up to a `var()` call

Two texts are compared component by component.  Up to the first `var()` call of the first text they
have the same components, which read the same in both.  If the call stands inside open groups, the
second text has groups that are opened alike.  Nothing is said about what comes after.

* `Builder.Extends` says what becomes of the open groups when more is read.
* `Component.Shared` is a component that reads the same in two sources, at every depth.
* `AgreeToVar` is the relation between the components of the two texts.
* `agreeToVar_ofTokens` establishes it from the tokens.
-/

namespace Styling

/-! ## What becomes of open groups -/

namespace Builder

/-- The components `cs` start with what stands in the open groups and, at the innermost level, with
the reversed components `current`. -/
def Extends : List Frame → List Component → List Component → Prop
  | [], current, cs => ∃ more, cs = current.reverse ++ more
  | f :: fs, current, cs =>
    ∃ more ending, Extends fs
      (.group f.opener f.opened (current.reverse ++ more) ending :: f.before) cs

/-- A component more at the innermost level is part of what is read. -/
theorem Extends.of_cons {fs : List Frame} {c : Component} {current cs : List Component}
    (h : Extends fs (c :: current) cs) : Extends fs current cs := by
  cases fs with
  | nil =>
    obtain ⟨more, rfl⟩ := h
    exact ⟨c :: more, by rw [List.reverse_cons, List.append_assoc, List.singleton_append]⟩
  | cons f fs =>
    obtain ⟨more, ending, h⟩ := h
    refine ⟨c :: more, ending, ?_⟩
    rwa [List.reverse_cons, List.append_assoc, List.singleton_append] at h

/-- One token more extends what is read. -/
theorem Extends.of_step {b : Builder} {t : Token} {cs : List Component}
    (h : Extends (b.step t).frames (b.step t).current cs) : Extends b.frames b.current cs := by
  have hopen : ∀ opener : Opener, Extends (b.openGroup opener t.span).frames
      (b.openGroup opener t.span).current cs → Extends b.frames b.current cs := by
    rintro opener ⟨more, ending, h⟩
    exact h.of_cons
  have hadd : ∀ c : Component, Extends (b.add c).frames (b.add c).current cs →
      Extends b.frames b.current cs := fun c h => h.of_cons
  unfold step at h
  split at h
  next => exact hopen _ h
  next => exact hopen _ h
  next =>
    unfold close at h
    split at h
    next => exact hadd _ h
    next f fs hframes =>
      split at h
      next =>
        rw [hframes]
        exact ⟨[], .closed t.span, by rwa [List.append_nil]⟩
      next => exact hadd _ h
  next => exact hadd _ h

/-- At the end of the text nothing is lost. -/
theorem extends_finishFrom (stop : Nat) (fs : List Frame) (current : List Component) :
    Extends fs current (finishFrom stop current fs) := by
  induction fs generalizing current with
  | nil => exact ⟨[], by rw [List.append_nil, finishFrom]⟩
  | cons f fs ih =>
    refine ⟨[], .unclosed stop, ?_⟩
    rw [List.append_nil, finishFrom]
    exact ih _

/-- Reading on extends what was read. -/
theorem extends_foldl (stop : Nat) (ts : List Token) (b : Builder) :
    Extends b.frames b.current ((ts.foldl step b).finish stop) := by
  induction ts generalizing b with
  | nil => exact extends_finishFrom stop b.frames b.current
  | cons t ts ih => exact (ih (b.step t)).of_step

end Builder

/-! ## Components that read the same -/

/-- The component has the same text in both sources, at every depth, and is or holds no `var()`
call. -/
inductive Component.Shared (S T : Source) : Component → Prop
  | token {t : Token} (text : S.textOf (.token t) = T.textOf (.token t)) :
    Shared S T (.token t)
  | group {opener : Opener} {opened : Span} {cs : List Component} {ending : Ending}
    (text : S.textOf (.group opener opened cs ending) = T.textOf (.group opener opened cs ending))
    (name : opener.isFunction "var" = false) (inside : ∀ c ∈ cs, Shared S T c) :
    Shared S T (.group opener opened cs ending)

namespace Component.Shared

variable {S T : Source} {c : Component}

theorem textOf_eq (h : c.Shared S T) : S.textOf c = T.textOf c := by
  cases h with
  | token text => exact text
  | group text name inside => exact text

theorem containsVar_eq_false (h : c.Shared S T) : c.containsVar = false := by
  induction h with
  | token text => exact containsVar_token _
  | group text name inside ih =>
    rw [containsVar, name, Bool.false_or, listContainsVar_eq_any, List.any_eq_false]
    exact fun d hd => by rw [ih d hd]; exact Bool.false_ne_true

theorem of_mem_children {d : Component} (h : c.Shared S T) (hd : d ∈ c.children) :
    d.Shared S T := by
  cases h with
  | token text => exact absurd hd (List.not_mem_nil)
  | group text name inside => exact inside d hd

end Component.Shared

/-- Two lists of components in two sources agree up to the first `var()` call of the first list:
they have the same components, or groups that are opened alike and agree inside, until such a call
comes next. -/
inductive AgreeToVar (S T : Source) : List Component → List Component → Prop
  | nil : AgreeToVar S T [] []
  | shared {x : Component} {cs ds : List Component} (head : x.Shared S T)
    (tail : AgreeToVar S T cs ds) : AgreeToVar S T (x :: cs) (x :: ds)
  | inside {opener : Opener} {opened opened' : Span} {xs ys cs ds : List Component}
    {ending ending' : Ending} (name : opener.isFunction "var" = false)
    (holds : Component.listContainsVar xs = true) (children : AgreeToVar S T xs ys) :
    AgreeToVar S T (.group opener opened xs ending :: cs) (.group opener opened' ys ending' :: ds)
  | call {cs ds : List Component}
    (next : (cs.dropWhile Component.isWhitespace).head?.any Component.isVar = true) :
    AgreeToVar S T cs ds

namespace AgreeToVar

variable {S T : Source} {cs ds : List Component}

/-- Shared components in front of what agrees. -/
theorem append_left {xs : List Component} (hxs : ∀ x ∈ xs, x.Shared S T)
    (h : AgreeToVar S T cs ds) : AgreeToVar S T (xs ++ cs) (xs ++ ds) := by
  induction xs with
  | nil => exact h
  | cons x xs ih =>
    exact .shared (hxs x (List.mem_cons_self ..)) (ih fun y hy => hxs y (List.mem_cons_of_mem x hy))

/-- Shared components agree with themselves. -/
theorem of_shared {xs : List Component} (hxs : ∀ x ∈ xs, x.Shared S T) : AgreeToVar S T xs xs := by
  have h := append_left hxs (AgreeToVar.nil (S := S) (T := T))
  rwa [List.append_nil] at h

end AgreeToVar

/-! ## From tokens to components -/

/-- Everything that was read is shared, and no open group is a `var()` call. -/
structure Builder.Shared (S T : Source) (b : Builder) : Prop where
  current : ∀ c ∈ b.current, c.Shared S T
  frames : ∀ f ∈ b.frames, f.opener.isFunction "var" = false ∧ ∀ c ∈ f.before, c.Shared S T

/-- Two sources with the same first characters have the same text there. -/
theorem Source.slice_eq {S T : Source} {n start stop : Nat}
    (h : S.chars.take n = T.chars.take n) (hstop : stop ≤ n) :
    S.slice start stop = T.slice start stop := by
  have htake : S.chars.take stop = T.chars.take stop := by
    have hmin : min stop n = stop := Nat.min_eq_left hstop
    rw [← hmin, ← List.take_take, h, List.take_take]
  simp only [slice, sliceChars, ← List.drop_take, htake]

/-- The token opens a `var()` call. -/
def TokenKind.opensVar : TokenKind → Bool
  | function name => Text.lowercase name == "var"
  | _ => false

namespace Builder.Shared

variable {S T : Source} {b : Builder} {n : Nat}

theorem empty : Builder.empty.Shared S T :=
  ⟨fun _ h => absurd h List.not_mem_nil, fun _ h => absurd h List.not_mem_nil⟩

theorem add {c : Component} (hb : b.Shared S T) (hc : c.Shared S T) : (b.add c).Shared S T := by
  refine ⟨fun d hd => ?_, hb.frames⟩
  rcases List.mem_cons.mp hd with rfl | hd
  · exact hc
  · exact hb.current d hd

theorem openGroup {opener : Opener} (hb : b.Shared S T)
    (hopener : opener.isFunction "var" = false) (opened : Span) :
    (b.openGroup opener opened).Shared S T := by
  refine ⟨fun d hd => absurd hd List.not_mem_nil, fun f hf => ?_⟩
  rcases List.mem_cons.mp hf with rfl | hf
  · exact ⟨hopener, hb.current⟩
  · exact hb.frames f hf

/-- A token that lies where the sources are the same, and opens no `var()` call, is shared. -/
theorem step {t : Token} (h : S.chars.take n = T.chars.take n) (hb : b.Shared S T)
    (hstop : t.stop ≤ n) (hvar : t.kind.opensVar = false) : (b.step t).Shared S T := by
  have htoken : (Component.token t).Shared S T := .token (Source.slice_eq h hstop)
  unfold Builder.step
  split
  next name hkind =>
    rw [hkind] at hvar
    exact hb.openGroup (show (Opener.function name).isFunction "var" = false from hvar) t.span
  next => exact hb.openGroup rfl t.span
  next bracket hkind =>
    have hclosing : (Component.token ⟨.closing bracket, t.span⟩).Shared S T :=
      .token (Source.slice_eq h hstop)
    unfold Builder.close
    split
    next => exact hb.add hclosing
    next f fs hframes =>
      split
      next =>
        have hf := hb.frames f (hframes ▸ List.mem_cons_self ..)
        have hgroup : (Component.group f.opener f.opened b.current.reverse (.closed t.span)).Shared
            S T :=
          .group (Source.slice_eq h hstop) hf.1 fun c hc => hb.current c (List.mem_reverse.mp hc)
        refine ⟨fun c hc => ?_, fun g hg => hb.frames g (hframes ▸ List.mem_cons_of_mem f hg)⟩
        rcases List.mem_cons.mp hc with rfl | hc
        · exact hgroup
        · exact hf.2 c hc
      next => exact hb.add hclosing
  next => exact hb.add htoken

theorem foldl {ts : List Token} (h : S.chars.take n = T.chars.take n) (hb : b.Shared S T)
    (hts : ∀ t ∈ ts, t.stop ≤ n ∧ t.kind.opensVar = false) :
    (ts.foldl Builder.step b).Shared S T := by
  induction ts generalizing b with
  | nil => exact hb
  | cons t ts ih =>
    obtain ⟨hstop, hvar⟩ := hts t (List.mem_cons_self ..)
    exact ih (hb.step h hstop hvar) fun u hu => hts u (List.mem_cons_of_mem t hu)

end Builder.Shared

/-- If two innermost levels agree up to a `var()` call whatever is read there, so do the two texts,
which share the open groups. -/
theorem agreeToVar_of_extends {S T : Source} {fs : List Frame}
    {current current' cs ds : List Component}
    (hfs : ∀ f ∈ fs, f.opener.isFunction "var" = false ∧ ∀ c ∈ f.before, c.Shared S T)
    (hholds : Component.listContainsVar current.reverse = true)
    (hcurrent : ∀ more more', AgreeToVar S T (current.reverse ++ more) (current'.reverse ++ more'))
    (hcs : Builder.Extends fs current cs) (hds : Builder.Extends fs current' ds) :
    AgreeToVar S T cs ds := by
  induction fs generalizing current current' with
  | nil =>
    obtain ⟨more, rfl⟩ := hcs
    obtain ⟨more', rfl⟩ := hds
    exact hcurrent more more'
  | cons f fs ih =>
    obtain ⟨more, ending, hcs⟩ := hcs
    obtain ⟨more', ending', hds⟩ := hds
    obtain ⟨hname, hbefore⟩ := hfs f (List.mem_cons_self ..)
    have hinside : Component.listContainsVar (current.reverse ++ more) = true := by
      rw [Component.listContainsVar_append, hholds, Bool.true_or]
    refine ih (fun g hg => hfs g (List.mem_cons_of_mem f hg)) ?_ ?_ hcs hds
    · rw [List.reverse_cons, Component.listContainsVar_append, Component.listContainsVar_cons,
        Component.containsVar, hinside, Bool.or_true, Bool.true_or, Bool.or_true]
    · intro more₁ more₂
      rw [List.reverse_cons, List.reverse_cons, List.append_assoc, List.append_assoc]
      exact .append_left (fun c hc => hbefore c (List.mem_reverse.mp hc))
        (.inside hname hinside (hcurrent more more'))

/-- Whitespace is added to the innermost level. -/
theorem Builder.foldl_step_whitespace {blanks : List Token}
    (h : ∀ t ∈ blanks, t.kind.isWhitespace = true) (b : Builder) :
    blanks.foldl Builder.step b =
      ⟨b.frames, (blanks.map Component.token).reverse ++ b.current⟩ := by
  induction blanks generalizing b with
  | nil => rfl
  | cons t blanks ih =>
    have hstep : b.step t = b.add (.token t) := by
      have ht := h t (List.mem_cons_self ..)
      unfold Builder.step
      split <;> simp_all [TokenKind.isWhitespace]
    rw [List.foldl_cons, hstep, ih fun u hu => h u (List.mem_cons_of_mem t hu)]
    simp [Builder.add]

/-- A token that opens a `var()` call opens a group with this function. -/
theorem Builder.exists_step_of_opensVar {call : Token} (h : call.kind.opensVar = true) :
    ∃ name, (Opener.function name).isFunction "var" = true ∧
      ∀ b : Builder, b.step call = b.openGroup (.function name) call.span := by
  unfold TokenKind.opensVar at h
  split at h
  next name hkind => exact ⟨name, h, fun b => by rw [Builder.step, hkind]⟩
  next => exact absurd h Bool.false_ne_true

/-- Two texts with the same tokens up to a `var()` call of the first text, where whitespace may
stand before the call, agree up to the call. -/
theorem agreeToVar_ofTokens {S T : Source} {n : Nat} {before blanks after after' : List Token}
    {call : Token} (h : S.chars.take n = T.chars.take n)
    (hbefore : ∀ t ∈ before, t.stop ≤ n ∧ t.kind.opensVar = false)
    (hblanks : ∀ t ∈ blanks, t.kind.isWhitespace = true) (hcall : call.kind.opensVar = true)
    (stop stop' : Nat) :
    AgreeToVar S T (Component.ofTokens stop (before ++ (blanks ++ call :: after))).1
      (Component.ofTokens stop' (before ++ after')).1 := by
  have hshared := (Builder.Shared.empty (S := S) (T := T)).foldl h hbefore
  generalize hb : before.foldl Builder.step .empty = b at hshared
  obtain ⟨name, hvar, hopen⟩ := Builder.exists_step_of_opensVar hcall
  simp only [Component.ofTokens, List.foldl_append, hb, List.foldl_cons,
    Builder.foldl_step_whitespace hblanks, hopen]
  obtain ⟨x, hx, hcs⟩ : ∃ x : Component, x.isVar = true ∧
      Builder.Extends b.frames (x :: ((blanks.map Component.token).reverse ++ b.current))
        ((after.foldl Builder.step (Builder.openGroup
          ⟨b.frames, (blanks.map Component.token).reverse ++ b.current⟩ (.function name)
            call.span)).finish stop) := by
    obtain ⟨more, ending, h⟩ := Builder.extends_foldl stop after (Builder.openGroup
      ⟨b.frames, (blanks.map Component.token).reverse ++ b.current⟩ (.function name) call.span)
    exact ⟨.group (.function name) call.span ([].reverse ++ more) ending, hvar, h⟩
  have hds := Builder.extends_foldl stop' after' b
  refine agreeToVar_of_extends hshared.frames ?_ (fun more more' => ?_) hcs hds
  · rw [List.reverse_cons, Component.listContainsVar_append, Component.listContainsVar_cons,
      Component.containsVar_of_isVar hx, Bool.true_or, Bool.or_true]
  · have hwhite : ∀ c ∈ blanks.map Component.token, c.isWhitespace = true := by
      intro c hc
      obtain ⟨t, ht, rfl⟩ := List.mem_map.mp hc
      exact hblanks t ht
    have hnone : x.isWhitespace = false := by
      cases x with
      | token t => exact absurd hx Bool.false_ne_true
      | group opener opened xs ending => rfl
    rw [List.reverse_cons, List.reverse_append, List.reverse_reverse, List.append_assoc,
      List.append_assoc]
    refine .append_left (fun c hc => hshared.current c (List.mem_reverse.mp hc)) (.call ?_)
    rw [List.dropWhile_append_of_pos hwhite, List.singleton_append,
      List.dropWhile_cons_of_neg (by rw [hnone]; exact Bool.false_ne_true)]
    exact hx

end Styling
