import Styling.Proofs.Property.Longhands
import Styling.Proofs.Value.Agreement

/-!
# Reading two values that agree up to one component

Two values have the same components up to one, in whose place the second value has another.  A
reader that stops before it gives the same for both values.  A reader that takes the component of
the first value breaks at the other one: it is refused there.

* `Breaks` compares the results of readers of one component.
* `Cursor.AgreeUpTo` says where two cursors stand, and `Cursor.AgreeUpTo.next` what comes next.
* `Reader.Meets` compares the results of readers, and `Reader.Exchanges` is the property of readers.
* `Reader.Exchanges.bind`, `Reader.Exchanges.leaf`, `Reader.Exchanges.attempt`,
  `Reader.Exchanges.foldAll_bind` and `Reader.Exchanges.inside` are the ways of putting readers
  together.
-/

namespace Styling

/-- If the first result is a value, the second is the error `stop?`, which is then a verdict on the
value.  If the first result is an ordinary refusal, so is the second. -/
def Breaks {ε α : Type} (isOrdinary : ε → Bool) (stop? : Option ε) (x y : Except ε α) : Prop :=
  match x with
  | .ok _ => ∃ e, stop? = some e ∧ y = .error e ∧ isOrdinary e = true
  | .error e => isOrdinary e = true → ∃ e', y = .error e' ∧ isOrdinary e' = true

namespace Breaks

variable {ε α β : Type} {isOrdinary : ε → Bool} {stop? : Option ε} {x y : Except ε α}

/-- Whatever the first result is. -/
theorem of_error {e : ε} (he : isOrdinary e = true) (x : Except ε α) :
    Breaks isOrdinary (some e) x (.error e) := by
  cases x with
  | ok a => exact ⟨e, rfl, rfl, he⟩
  | error e' => exact fun _ => ⟨e, rfl, he⟩

theorem errors {e e' : ε} (he' : isOrdinary e' = true) :
    Breaks isOrdinary stop? (.error e : Except ε α) (.error e') :=
  fun _ => ⟨e', rfl, he'⟩

/-- The same error twice. -/
theorem same (e : ε) : Breaks isOrdinary stop? (.error e : Except ε α) (.error e) :=
  fun he => ⟨e, rfl, he⟩

/-- A reader that never gives a value does not need the error. -/
theorem weaken (h : Breaks isOrdinary none x y) : Breaks isOrdinary stop? x y := by
  cases x with
  | ok a =>
    obtain ⟨e, he, -⟩ := h
    exact absurd he (by simp)
  | error e => exact h

/-- What is made of the first result does not matter. -/
theorem bind (h : Breaks isOrdinary stop? x y) (f g : α → Except ε β) :
    Breaks isOrdinary stop? (x >>= f) (y >>= g) := by
  cases x with
  | ok a =>
    obtain ⟨e, rfl, rfl, he⟩ := h
    exact of_error he _
  | error e =>
    intro he
    obtain ⟨e', rfl, he'⟩ := h he
    exact ⟨e', rfl, he'⟩

theorem ofLeaf {stop? : Option ReadError} {x y : Except ReadError α}
    (h : Breaks ReadError.isOrdinary stop? x y) :
    Breaks StepError.isOrdinary (stop?.map .here) (StepError.ofLeaf x) (StepError.ofLeaf y) := by
  cases x with
  | ok a =>
    obtain ⟨e, rfl, rfl, he⟩ := h
    exact ⟨.here e, rfl, rfl, he⟩
  | error e =>
    intro he
    obtain ⟨e', rfl, he'⟩ := h he
    exact ⟨.here e', rfl, he'⟩

end Breaks

/-! ## Where two cursors stand -/

/-- The component is a dimension, or a group without `var()` calls. -/
def Component.isAmount : Component → Bool
  | .token ⟨.dimension _ _, _⟩ => true
  | .token _ => false
  | .group opener opened cs ending => !(group opener opened cs ending).containsVar

namespace Component

variable {c : Component}

theorem containsVar_of_isAmount (h : c.isAmount = true) : c.containsVar = false := by
  cases c with
  | token t => exact containsVar_token t
  | group opener opened cs ending => simpa [isAmount] using h

theorem isVar_of_isAmount (h : c.isAmount = true) : c.isVar = false :=
  Bool.eq_false_iff.mpr fun hvar =>
    absurd (containsVar_of_isAmount h) (by simp [containsVar_of_isVar hvar])

/-- No amount is a token of another kind. -/
theorem isTokenOf_of_isAmount (h : c.isAmount = true) {p : TokenKind → Bool}
    (hp : ∀ n unit, p (.dimension n unit) = false) : c.isTokenOf p = false := by
  cases c with
  | group opener opened cs ending => rfl
  | token t =>
    obtain ⟨kind, span⟩ := t
    cases kind with
    | dimension n unit => exact hp n unit
    | _ => exact absurd h Bool.false_ne_true

/-- A group of a value without `var()` calls is an amount. -/
theorem isAmount_of_mem {cs : List Component} (hvar : listContainsVar cs = false) {opener : Opener}
    {opened : Span} {xs : List Component} {ending : Ending}
    (h : .group opener opened xs ending ∈ cs) :
    (group opener opened xs ending).isAmount = true := by
  rw [listContainsVar_eq_any, List.any_eq_false] at hvar
  rw [isAmount, Bool.eq_false_iff.mpr (hvar _ h)]
  rfl

/-- Blanks are left out on both sides of an amount. -/
theorem withoutBlanks_append_cons (hc : c.isAmount = true) (before after : List Component) :
    withoutBlanks (before ++ c :: after) = withoutBlanks before ++ c :: withoutBlanks after := by
  have hblank : c.isWhitespace = false := isTokenOf_of_isAmount hc fun _ _ => rfl
  rw [withoutBlanks, List.filter_append, List.filter_cons_of_pos (by simp [hblank])]
  rfl

/-- What is shared in front of two amounts is shared without its blanks. -/
theorem exists_withoutBlanks {S T : Source} {before : List Component} {m o : Component}
    (h : ∀ x ∈ before, x.Shared S T) (hm : m.isAmount = true) (ho : o.isAmount = true)
    (after after' : List Component) :
    ∃ shared rest rest', (∀ x ∈ shared, x.Shared S T) ∧
      withoutBlanks (before ++ m :: after) = shared ++ m :: rest ∧
      withoutBlanks (before ++ o :: after') = shared ++ o :: rest' :=
  ⟨_, _, _, fun x hx => h x (List.mem_filter.mp hx).1, withoutBlanks_append_cons hm before after,
    withoutBlanks_append_cons ho before after'⟩

end Component

/-- A token that is an amount is no bracket. -/
theorem Builder.step_of_isAmount (b : Builder) {t : Token}
    (h : (Component.token t).isAmount = true) : b.step t = b.add (.token t) := by
  obtain ⟨kind, span⟩ := t
  cases kind with
  | dimension n unit => rfl
  | _ => exact absurd h Bool.false_ne_true

namespace Cursor

/-- What follows two cursors agrees up to a component that is `m` for the first and `o` for the
second. -/
structure AgreeUpTo (S T : Source) (m o : Component) (c d : Cursor) : Prop where
  source : c.source = S
  source' : d.source = T
  pending : ∃ shared after after', (∀ x ∈ shared, x.Shared S T) ∧
    c.pending = shared ++ m :: after ∧ d.pending = shared ++ o :: after'

/-- What comes next at two cursors: the components that differ, or one that is shared. -/
inductive Meeting (S T : Source) (m o : Component) (c d : Cursor) : Prop
  | here (hc : c.peek = some m) (hd : d.peek = some o)
  | shared {x : Component} (hc : c.peek = some x) (hd : d.peek = some x) (h : x.Shared S T)
    (rest : AgreeUpTo S T m o c.advance d.advance)

namespace AgreeUpTo

variable {S T : Source} {m o : Component} {c d : Cursor}

theorem next (h : AgreeUpTo S T m o c d) : Meeting S T m o c d := by
  obtain ⟨shared, after, after', hshared, hc, hd⟩ := h.pending
  cases shared with
  | nil => exact .here (peek_of_pending hc).1 (peek_of_pending hd).1
  | cons x shared =>
    obtain ⟨hx, hshared⟩ := List.forall_mem_cons.mp hshared
    obtain ⟨hpeek, hrest⟩ := peek_of_pending hc
    obtain ⟨hpeek', hrest'⟩ := peek_of_pending hd
    exact .shared hpeek hpeek' hx
      ⟨h.source, h.source', shared, after, after', hshared, hrest, hrest'⟩

theorem mem_left (h : AgreeUpTo S T m o c d) : m ∈ c.pending := by
  obtain ⟨shared, after, after', -, hc, -⟩ := h.pending
  exact hc ▸ List.mem_append_right shared List.mem_cons_self

theorem mem_right (h : AgreeUpTo S T m o c d) : o ∈ d.pending := by
  obtain ⟨shared, after, after', -, -, hd⟩ := h.pending
  exact hd ▸ List.mem_append_right shared List.mem_cons_self

/-- Neither value is at its end. -/
theorem exists_peek (h : AgreeUpTo S T m o c d) (hm : m.isAmount = true) (ho : o.isAmount = true) :
    ∃ x y, c.peek = some x ∧ d.peek = some y ∧ x.containsVar = false ∧ y.containsVar = false := by
  cases h.next with
  | here hc hd =>
    exact ⟨m, o, hc, hd, Component.containsVar_of_isAmount hm, Component.containsVar_of_isAmount ho⟩
  | shared hc hd hx rest => exact ⟨_, _, hc, hd, hx.containsVar_eq_false, hx.containsVar_eq_false⟩

/-- At the start of two values that are shared up to an amount. -/
theorem ofComponents {before after after' : List Component} (h : ∀ x ∈ before, x.Shared S T)
    (hm : m.isAmount = true) (ho : o.isAmount = true) (stop stop' : Nat) :
    (Cursor.ofComponents S (before ++ m :: after) stop).AgreeUpTo S T m o
      (.ofComponents T (before ++ o :: after') stop') :=
  ⟨rfl, rfl, Component.exists_withoutBlanks h hm ho after after'⟩

end AgreeUpTo

/-- Where an amount follows, no keyword stands alone. -/
theorem isKeywordExhausted_of_isAmount {c : Cursor} {m : Component} (hm : m.isAmount = true)
    (hmem : m ∈ c.pending) (word : String) : Reader.isKeywordExhausted word c = .ok false c := by
  refine Reader.isKeywordExhausted_of_pending fun x hx => ?_
  rw [hx] at hmem
  rw [← List.mem_singleton.mp hmem]
  exact Component.isTokenOf_of_isAmount hm fun _ _ => rfl

end Cursor

/-! ## Readers -/

namespace Reader

/-- What came out, without the cursor. -/
def verdict {α : Type} : EStateM.Result ReadError Cursor α → Except ReadError α
  | .ok a _ => .ok a
  | .error e _ => .error e

variable {S T : Source} {m o : Component} {stop? : Option ReadError} {α β : Type}

/-- Two readers have the same result, with cursors that still agree, or the second breaks. -/
inductive Meets (S T : Source) (m o : Component) (stop? : Option ReadError) :
    EStateM.Result ReadError Cursor α → EStateM.Result ReadError Cursor α → Prop
  | ok (a : α) {c d : Cursor} (h : c.AgreeUpTo S T m o d) : Meets S T m o stop? (.ok a c) (.ok a d)
  | breaks {x y : EStateM.Result ReadError Cursor α}
    (h : Breaks ReadError.isOrdinary stop? (verdict x) (verdict y)) : Meets S T m o stop? x y

/-- The readers meet wherever two cursors agree. -/
def Exchanges (S T : Source) (m o : Component) (stop? : Option ReadError) (r s : Reader α) : Prop :=
  ∀ c d, c.AgreeUpTo S T m o d → Meets S T m o stop? (r c) (s d)

/-- What breaks cannot be mended. -/
theorem breaks_bind {r s : Reader α} {c d : Cursor}
    (h : Breaks ReadError.isOrdinary stop? (verdict (r c)) (verdict (s d))) (f g : α → Reader β) :
    Breaks ReadError.isOrdinary stop? (verdict ((r >>= f) c)) (verdict ((s >>= g) d)) := by
  rw [bind_apply, bind_apply]
  generalize r c = x at h
  generalize s d = y at h
  cases x with
  | ok a c' =>
    obtain ⟨e, rfl, hy, he⟩ := h
    cases y with
    | ok b d' => exact absurd hy (by simp [verdict])
    | error e' d' =>
      obtain rfl := Except.error.inj hy
      exact .of_error he _
  | error e c' =>
    cases y with
    | ok b d' =>
      intro he
      obtain ⟨e', hy, -⟩ := h he
      exact absurd hy (by simp [verdict])
    | error e' d' =>
      intro he
      obtain ⟨e'', hy, he''⟩ := h he
      obtain rfl := Except.error.inj hy
      exact ⟨_, rfl, he''⟩

/-- One reader after the other, at two cursors. -/
theorem Meets.bind {r s : Reader α} {f g : α → Reader β} {c d : Cursor}
    (h : Meets S T m o stop? (r c) (s d))
    (hfg : ∀ a c' d', c'.AgreeUpTo S T m o d' → Meets S T m o stop? (f a c') (g a d')) :
    Meets S T m o stop? ((r >>= f) c) ((s >>= g) d) := by
  generalize hr : r c = x at h
  generalize hs : s d = y at h
  cases h with
  | ok a h =>
    rw [bind_apply, bind_apply, hr, hs]
    exact hfg a _ _ h
  | breaks h =>
    rw [← hr, ← hs] at h
    exact .breaks (breaks_bind h f g)

/-- Both readers take a component that is shared. -/
theorem meets_next {c d : Cursor} {x : Component} (hc : c.peek = some x) (hd : d.peek = some x)
    (hx : x.Shared S T) (rest : c.advance.AgreeUpTo S T m o d.advance) :
    Meets S T m o stop? (next c) (next d) := by
  have hvar := (Component.Paired.shared hx).isVar_eq_false.1
  rw [next_of_peek hc hvar, next_of_peek hd hvar]
  exact .ok x rest

/-- A value that is left is refused. -/
theorem exists_inside_of_peek {r : Reader α} {c c' : Cursor} {a : α} {x : Component}
    (hr : r c = .ok a c') (hpeek : c'.peek = some x) (hx : x.containsVar = false) :
    ∃ e, r.inside c = .error e ∧ e.isOrdinary = true := by
  rw [inside, EStateM.run, bind_apply, hr]
  dsimp only
  rw [bind_apply, expectExhausted_of_peek hpeek, if_neg (Bool.eq_false_iff.mp hx)]
  exact ⟨_, rfl, rfl⟩

theorem inside_of_error {r : Reader α} {c c' : Cursor} {e : ReadError} (hr : r c = .error e c') :
    r.inside c = .error e := by
  rw [inside, EStateM.run, bind_apply, hr]

namespace Exchanges

theorem pure (a : α) : Exchanges S T m o stop? (Pure.pure a) (Pure.pure a) :=
  fun _ _ h => .ok a h

theorem bind {r s : Reader α} {f g : α → Reader β} (h : Exchanges S T m o stop? r s)
    (hfg : ∀ a, Exchanges S T m o stop? (f a) (g a)) :
    Exchanges S T m o stop? (r >>= f) (s >>= g) :=
  fun c d hcd => (h c d hcd).bind fun a => hfg a

theorem weaken {r s : Reader α} (h : Exchanges S T m o none r s) :
    Exchanges S T m o stop? r s := by
  intro c d hcd
  have hmeets := h c d hcd
  generalize r c = x at hmeets ⊢
  generalize s d = y at hmeets ⊢
  cases hmeets with
  | ok a h => exact .ok a h
  | breaks h => exact .breaks h.weaken

/-- Each reader knows its source. -/
theorem source {f g : Source → Reader α} (h : Exchanges S T m o stop? (f S) (g T)) :
    Exchanges S T m o stop? (Reader.source >>= f) (Reader.source >>= g) := by
  intro c d hcd
  rw [bind_apply, bind_apply, source_apply, source_apply, hcd.source, hcd.source']
  exact h c d hcd

theorem refuse (reason : Reason) :
    Exchanges S T m o stop? (Reader.refuse reason : Reader α) (Reader.refuse reason) :=
  fun _ _ _ => .breaks (.errors rfl)

/-- A computation that moves no cursor. -/
theorem ofExcept (x : Except ReadError α) :
    Exchanges S T m o stop? (Reader.ofExcept x) (Reader.ofExcept x) := by
  intro c d hcd
  cases x with
  | ok a => exact .ok a hcd
  | error e => exact .breaks (.same e)

/-- Taking the next component: the leaf decides at the components that differ. -/
theorem leaf {f : Leaf α} (hf : f.Follows) (hm : m.isVar = false) (ho : o.isVar = false)
    (h : Breaks ReadError.isOrdinary stop? (f S m) (f T o)) :
    Exchanges S T m o stop? (Reader.leaf f) (Reader.leaf f) := by
  have hverdict : ∀ (x : Except ReadError α) (c : Cursor), verdict (Reader.ofExcept x c) = x := by
    rintro (e | a) c <;> rfl
  intro c d hcd
  cases hcd.next with
  | here hc hd =>
    refine .breaks ?_
    rw [leaf_of_peek hc hm, leaf_of_peek hd ho, hcd.source, hcd.source', hverdict, hverdict]
    exact h
  | @shared x hc hd hx rest =>
    obtain ⟨hvar, -⟩ := (Component.Paired.shared hx).isVar_eq_false
    have hfollows := hf S T x x (.shared hx)
    rw [leaf_of_peek hc hvar, leaf_of_peek hd hvar, hcd.source, hcd.source']
    cases hrun : f S x with
    | ok a =>
      rw [hrun] at hfollows
      rw [show f T x = .ok a from hfollows]
      exact .ok a rest
    | error e =>
      rw [hrun] at hfollows
      refine .breaks ?_
      rw [hverdict, hverdict]
      exact hfollows

/-- No keyword stands alone. -/
theorem isKeywordExhausted {word : String} {f g : Bool → Reader α} (hm : m.isAmount = true)
    (ho : o.isAmount = true) (h : Exchanges S T m o stop? (f false) (g false)) :
    Exchanges S T m o stop? (Reader.isKeywordExhausted word >>= f)
      (Reader.isKeywordExhausted word >>= g) := by
  intro c d hcd
  rw [bind_apply, bind_apply, Cursor.isKeywordExhausted_of_isAmount hm hcd.mem_left,
    Cursor.isKeywordExhausted_of_isAmount ho hcd.mem_right]
  exact h c d hcd

/-- Something follows both cursors. -/
theorem isExhausted {r r' s s' : Reader α} (hm : m.isAmount = true) (ho : o.isAmount = true)
    (h : Exchanges S T m o stop? s s') :
    Exchanges S T m o stop? (do if ← Reader.ask Cursor.isExhausted then r else s)
      (do if ← Reader.ask Cursor.isExhausted then r' else s') := by
  intro c d hcd
  obtain ⟨x, y, hc, hd, -⟩ := hcd.exists_peek hm ho
  rw [bind_apply, bind_apply, ask_apply, ask_apply, Cursor.isExhausted, Cursor.isExhausted, hc, hd]
  exact h c d hcd

theorem expectExhausted (hm : m.isAmount = true) (ho : o.isAmount = true) :
    Exchanges S T m o stop? Reader.expectExhausted Reader.expectExhausted := by
  intro c d hcd
  obtain ⟨x, y, hc, hd, hx, hy⟩ := hcd.exists_peek hm ho
  rw [expectExhausted_of_peek hc, expectExhausted_of_peek hd, if_neg (Bool.eq_false_iff.mp hx),
    if_neg (Bool.eq_false_iff.mp hy)]
  exact .breaks (.errors rfl)

theorem tryComma (hm : m.isAmount = true) (ho : o.isAmount = true) :
    Exchanges S T m o stop? Reader.tryComma Reader.tryComma := by
  intro c d hcd
  cases hcd.next with
  | here hc hd =>
    have hcomma : ∀ {x : Component}, x.isAmount = true → ¬ x.isComma = true := fun hx =>
      Bool.eq_false_iff.mp (Component.isTokenOf_of_isAmount hx fun _ _ => rfl)
    rw [tryComma_of_peek hc, tryComma_of_peek hd, if_neg (hcomma hm), if_neg (hcomma ho)]
    exact .ok false hcd
  | @shared x hc hd hx rest =>
    rw [tryComma_of_peek hc, tryComma_of_peek hd]
    split
    · exact .ok true rest
    · exact .ok false hcd

/-- Stepping back from a refusal, if the component that differs is never taken. -/
theorem attempt {r s : Reader α} (h : Exchanges S T m o none r s) :
    Exchanges S T m o stop? (Reader.attempt r) (Reader.attempt s) := by
  intro c d hcd
  have hmeets := h c d hcd
  generalize hr : r c = x at hmeets
  generalize hs : s d = y at hmeets
  cases hmeets with
  | ok a h =>
    rw [attempt_of_ok hr, attempt_of_ok hs]
    exact .ok (some a) h
  | breaks h =>
    cases x with
    | ok a c' =>
      obtain ⟨e, he, -⟩ := h
      exact absurd he (by simp)
    | error e c' =>
      rw [attempt_of_error hr]
      cases he : e.isOrdinary with
      | false => exact .breaks fun he' => absurd (he.symm.trans he') Bool.false_ne_true
      | true =>
        obtain ⟨e', hy, he'⟩ := h he
        cases y with
        | ok b d' => exact absurd hy (by simp [verdict])
        | error e'' d' =>
          obtain rfl := Except.error.inj hy
          rw [attempt_of_error hs, if_pos he', if_pos rfl]
          exact .ok none hcd

/-- A look at the next component. -/
theorem peek {f g : Option Component → Reader α}
    (hhere : Exchanges S T m o stop? (f (some m)) (g (some o)))
    (hshared : ∀ c d x, c.AgreeUpTo S T m o d → c.peek = some x → d.peek = some x →
      x.Shared S T → c.advance.AgreeUpTo S T m o d.advance →
      Meets S T m o stop? (f (some x) c) (g (some x) d)) :
    Exchanges S T m o stop? (Reader.ask Cursor.peek >>= f) (Reader.ask Cursor.peek >>= g) := by
  intro c d hcd
  rw [bind_apply, bind_apply, ask_apply, ask_apply]
  cases hcd.next with
  | here hc hd =>
    rw [hc, hd]
    exact hhere c d hcd
  | shared hc hd hx rest =>
    rw [hc, hd]
    exact hshared c d _ hcd hc hd hx rest

/-- A loop over all components takes the one that differs, or is refused before. -/
theorem foldAll_bind {σ : Type} {step step' : σ → Component → Except StepError σ}
    (hshared : ∀ s x, x.Shared S T → Styling.Follows StepError.isOrdinary (step s x) (step' s x))
    (hhere : ∀ s, Breaks StepError.isOrdinary (stop?.map .here) (step s m) (step' s o)) (s : σ)
    (f g : σ → Reader α) :
    Exchanges S T m o stop? (Reader.foldAll step s >>= f) (Reader.foldAll step' s >>= g) := by
  intro c d hcd
  refine .breaks (breaks_bind ?_ f g)
  induction c using Cursor.advance_induction generalizing d s with
  | exhausted c hpeek =>
    cases hcd.next with
    | here hc hd => exact absurd (hpeek.symm.trans hc) (by simp)
    | shared hc hd hx rest => exact absurd (hpeek.symm.trans hc) (by simp)
  | next c x hpeek ih =>
    cases hcd.next with
    | here hc hd =>
      have hbreaks := hhere s
      rw [Reader.foldAll, Reader.foldAll, foldWhile_of_peek hc, foldWhile_of_peek hd]
      cases hrun : step s m with
      | ok next =>
        rw [hrun] at hbreaks
        obtain ⟨e, hstop, hrun', he⟩ := hbreaks
        obtain ⟨e, rfl, rfl⟩ := Option.map_eq_some_iff.mp hstop
        rw [hrun']
        exact .of_error (show e.isOrdinary = true from he) _
      | error e =>
        rw [hrun] at hbreaks
        intro he
        obtain ⟨e', hrun', he'⟩ := hbreaks ((StepError.isOrdinary_resolve _ e).symm.trans he)
        rw [hrun']
        exact ⟨_, rfl, (StepError.isOrdinary_resolve _ e').trans he'⟩
    | @shared x hc hd hx rest =>
      have hfollows := hshared s x hx
      rw [Reader.foldAll, Reader.foldAll, foldWhile_of_peek hc, foldWhile_of_peek hd]
      cases hrun : step s x with
      | ok next =>
        rw [hrun] at hfollows
        rw [show step' s x = .ok next from hfollows]
        exact ih next _ rest
      | error e =>
        rw [hrun] at hfollows
        intro he
        obtain ⟨e', hrun', he'⟩ := hfollows ((StepError.isOrdinary_resolve _ e).symm.trans he)
        rw [hrun']
        exact ⟨_, rfl, (StepError.isOrdinary_resolve _ e').trans he'⟩

/-- A reader that must use up the value does not stop before the component that differs. -/
theorem inside {r s : Reader α} (h : Exchanges S T m o stop? r s) (hm : m.isAmount = true)
    (ho : o.isAmount = true) {c d : Cursor} (hcd : c.AgreeUpTo S T m o d) :
    Breaks ReadError.isOrdinary stop? (r.inside c) (s.inside d) := by
  have hmeets := h c d hcd
  generalize hr : r c = x at hmeets
  generalize hs : s d = y at hmeets
  cases hmeets with
  | ok a hcd' =>
    obtain ⟨x, y, hc, hd, hx, hy⟩ := hcd'.exists_peek hm ho
    obtain ⟨e, hinside, -⟩ := exists_inside_of_peek hr hc hx
    obtain ⟨e', hinside', he'⟩ := exists_inside_of_peek hs hd hy
    rw [hinside, hinside']
    exact .errors he'
  | breaks h =>
    cases y with
    | ok b d' =>
      cases x with
      | ok a c' =>
        obtain ⟨e, -, hy, -⟩ := h
        exact absurd hy (by simp [verdict])
      | error e c' =>
        rw [inside_of_error hr]
        intro he
        obtain ⟨e', hy, -⟩ := h he
        exact absurd hy (by simp [verdict])
    | error e' d' =>
      rw [inside_of_error hs]
      cases x with
      | ok a c' =>
        obtain ⟨e, rfl, hy, he⟩ := h
        obtain rfl := Except.error.inj hy
        exact .of_error he _
      | error e c' =>
        rw [inside_of_error hr]
        exact h

end Exchanges

end Reader

end Styling
