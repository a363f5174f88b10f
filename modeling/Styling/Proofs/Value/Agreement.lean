import Styling.Proofs.Syntax.Tree

/-!
# Reading two values that agree up to a `var()` call

Two values that agree up to a `var()` call are read alike up to the call.  A reader that is refused
in an ordinary way on the first value has not met the call, so it is refused on the second as well.
A reader that comes to the call is refused because of it, or stops before it.

* `Follows` compares the results of readers of one component, and `Leaf.Follows` is the property of
  such a reader.
* `Cursor.AgreeToVar` and `Cursor.AtVar` say where two cursors stand, and `Cursor.Next` what can
  come next.
* `Reader.Agrees` compares the results of readers, and `Reader.Follows` is the property of a reader.
* `Reader.Follows.bind`, `Reader.Follows.leaf`, `Reader.Follows.attempt`, `Reader.Follows.foldWhile`
  and `Reader.follows_inside` are the ways of putting readers together.
-/

namespace Styling

/-- The error is a verdict on the value: neither the refusal of a `var()` call nor a fault. -/
def ReadError.isOrdinary : ReadError → Bool
  | .refused r => !r.isVarCall
  | .fault _ => false

/-- The error is a verdict on the value. -/
def StepError.isOrdinary : StepError → Bool
  | .here e => e.isOrdinary
  | .following _ => true

@[simp] theorem StepError.isOrdinary_resolve (l : Location) (e : StepError) :
    (e.resolve l).isOrdinary = e.isOrdinary := by
  cases e <;> rfl

/-- If the first result is a value, the second is the same value, and if it is an ordinary refusal,
so is the second. -/
def Follows {ε α : Type} (isOrdinary : ε → Bool) (x y : Except ε α) : Prop :=
  match x with
  | .ok a => y = .ok a
  | .error e => isOrdinary e = true → ∃ e', y = .error e' ∧ isOrdinary e' = true

namespace Follows

variable {ε α β : Type} {isOrdinary : ε → Bool}

theorem refl (x : Except ε α) : Follows isOrdinary x x := by
  cases x with
  | ok a => rfl
  | error e => exact fun h => ⟨e, rfl, h⟩

theorem errors {e e' : ε} (h : isOrdinary e' = true) :
    Follows isOrdinary (.error e : Except ε α) (.error e') :=
  fun _ => ⟨e', rfl, h⟩

/-- A refusal that is no verdict says nothing about the second result. -/
theorem of_not_isOrdinary {e : ε} (h : isOrdinary e = false) (y : Except ε α) :
    Follows isOrdinary (.error e) y :=
  fun he => absurd (h.symm.trans he) Bool.false_ne_true

theorem bind {x y : Except ε α} {f g : α → Except ε β} (hxy : Follows isOrdinary x y)
    (hfg : ∀ a, x = .ok a → Follows isOrdinary (f a) (g a)) :
    Follows isOrdinary (x >>= f) (y >>= g) := by
  cases x with
  | ok a =>
    rw [show y = .ok a from hxy]
    exact hfg a rfl
  | error e =>
    intro he
    obtain ⟨e', rfl, he'⟩ := hxy he
    exact ⟨e', rfl, he'⟩

/-- Both results step back from their refusals. -/
theorem attempted {x y : Except ReadError α} (h : Follows ReadError.isOrdinary x y) :
    Follows ReadError.isOrdinary (Reader.attempted x) (Reader.attempted y) := by
  have hback : ∀ {e : ReadError}, e.isOrdinary = true →
      Reader.attempted (.error e : Except ReadError α) = .ok none := by
    rintro ((⟨reason, l⟩ | ⟨reason, l⟩ | l) | f) he
    · rfl
    · rfl
    · exact absurd he (by simp [ReadError.isOrdinary, Refusal.isVarCall])
    · exact absurd he (by simp [ReadError.isOrdinary])
  cases x with
  | ok a =>
    rw [show y = .ok a from h]
    exact refl _
  | error e =>
    cases he : e.isOrdinary with
    | true =>
      obtain ⟨e', rfl, he'⟩ := h he
      rw [hback he, hback he']
      exact refl _
    | false =>
      rcases e with (⟨reason, l⟩ | ⟨reason, l⟩ | l) | f
      · exact absurd he (by simp [ReadError.isOrdinary, Refusal.isVarCall])
      · exact absurd he (by simp [ReadError.isOrdinary, Refusal.isVarCall])
      · exact of_not_isOrdinary rfl _
      · exact of_not_isOrdinary rfl _

theorem ofLeaf {x y : Except ReadError α} (h : Follows ReadError.isOrdinary x y) :
    Follows StepError.isOrdinary (StepError.ofLeaf x) (StepError.ofLeaf y) := by
  cases x with
  | ok a =>
    rw [show y = .ok a from h]
    exact refl _
  | error e =>
    intro he
    obtain ⟨e', rfl, he'⟩ := h he
    exact ⟨.here e', rfl, he'⟩

end Follows

/-! ## Readers of one component -/

/-- Two components that come next in values that agree up to a `var()` call which is not one of
them. -/
inductive Component.Paired (S T : Source) : Component → Component → Prop
  | shared {c : Component} (h : c.Shared S T) : Paired S T c c
  | inside {opener : Opener} {opened opened' : Span} {xs ys : List Component}
    {ending ending' : Ending} (name : opener.isFunction "var" = false)
    (holds : listContainsVar xs = true) (children : AgreeToVar S T xs ys) :
    Paired S T (.group opener opened xs ending) (.group opener opened' ys ending')

namespace Component.Paired

variable {S T : Source} {c d : Component}

theorem isVar_eq_false (h : c.Paired S T d) : c.isVar = false ∧ d.isVar = false := by
  cases h with
  | shared h =>
    have hvar : ¬ c.isVar = true := by
      intro hvar
      have hnone := h.containsVar_eq_false
      rw [containsVar_of_isVar hvar] at hnone
      exact Bool.false_ne_true hnone.symm
    exact ⟨Bool.eq_false_iff.mpr hvar, Bool.eq_false_iff.mpr hvar⟩
  | inside name holds children => exact ⟨name, name⟩

theorem isTokenOf_eq (h : c.Paired S T d) (p : TokenKind → Bool) :
    c.isTokenOf p = d.isTokenOf p := by
  cases h <;> rfl

theorem isCall_eq (h : c.Paired S T d) (name : String) : c.isCall name = d.isCall name := by
  cases h <;> rfl

/-- Two components that hold no `var()` call are the same. -/
theorem containsVar (h : c.Paired S T d) :
    (c.containsVar = true ∧ c.isVar = false) ∨ (c = d ∧ c.Shared S T) := by
  cases h with
  | shared h => exact Or.inr ⟨rfl, h⟩
  | inside name holds children =>
    refine Or.inl ⟨?_, name⟩
    rw [Component.containsVar, holds, Bool.or_true]

/-- Paired components are the same token, or groups that are opened alike. -/
theorem token_or_groups (h : c.Paired S T d) :
    (∃ t, c = .token t ∧ d = .token t) ∨ ∃ opener opened opened' xs ys ending ending',
      c = .group opener opened xs ending ∧ d = .group opener opened' ys ending' := by
  cases h with
  | inside name holds children => exact Or.inr ⟨_, _, _, _, _, _, _, rfl, rfl⟩
  | shared h =>
    cases c with
    | token t => exact Or.inl ⟨t, rfl, rfl⟩
    | group opener opened xs ending => exact Or.inr ⟨_, _, _, _, _, _, _, rfl, rfl⟩

theorem children_agree (h : c.Paired S T d) : AgreeToVar S T c.children d.children := by
  cases h with
  | shared h => exact .of_shared fun x hx => h.of_mem_children hx
  | inside name holds children => exact children

end Component.Paired

namespace Leaf

variable {α : Type}

/-- The leaf reads paired components alike. -/
protected def Follows (f : Leaf α) : Prop :=
  ∀ S T c d, Component.Paired S T c d → Styling.Follows ReadError.isOrdinary (f S c) (f T d)

/-- A leaf that refuses every group only has to read tokens alike. -/
theorem Follows.of_tokens {f : Leaf α}
    (htoken : ∀ S T kind span, Styling.Follows ReadError.isOrdinary (f S (.token ⟨kind, span⟩))
      (f T (.token ⟨kind, span⟩)))
    (hgroup : ∀ S opener opened cs ending, ∃ e,
      f S (.group opener opened cs ending) = .error e ∧ e.isOrdinary = true) : f.Follows := by
  intro S T c d h
  rcases h.token_or_groups with ⟨t, rfl, rfl⟩ | ⟨opener, opened, opened', xs, ys, ending, ending',
    rfl, rfl⟩
  · exact htoken S T t.kind t.span
  · obtain ⟨e, he, -⟩ := hgroup S opener opened xs ending
    obtain ⟨e', he', hordinary⟩ := hgroup T opener opened' ys ending'
    rw [he, he']
    exact .errors hordinary

theorem follows_unexpected : (unexpected (α := α)).Follows :=
  fun _ _ _ _ _ => .errors rfl

/-- A look at what a component holds. -/
theorem follows_noNestedVar : Leaf.Follows noNestedVar := by
  intro S T c d h
  rcases h.containsVar with ⟨hc, -⟩ | ⟨rfl, hshared⟩
  · rw [noNestedVar, if_pos hc, varCall]
    exact .of_not_isOrdinary rfl _
  · have hnone := Bool.eq_false_iff.mp hshared.containsVar_eq_false
    rw [noNestedVar, noNestedVar, if_neg hnone, if_neg hnone]
    exact .refl _

theorem follows_identLeaf : Leaf.Follows Reader.identLeaf := by
  refine .of_tokens (fun S T kind span => ?_) fun _ _ _ _ _ => ⟨_, rfl, rfl⟩
  cases kind with
  | ident name => exact .refl _
  | _ => exact .errors rfl

theorem follows_keywordLeaf (words : List String) : Leaf.Follows (Reader.keywordLeaf words) := by
  intro S T c d h
  refine (follows_identLeaf S T c d h).bind fun name _ => ?_
  dsimp only
  split
  · exact .refl _
  · exact .errors rfl

theorem follows_percentageLeaf : Leaf.Follows Reader.percentageLeaf := by
  refine .of_tokens (fun S T kind span => ?_) fun _ _ _ _ _ => ⟨_, rfl, rfl⟩
  cases kind with
  | percentage n => exact .refl _
  | _ => exact .errors rfl

theorem follows_numberLeaf : Leaf.Follows Reader.numberLeaf := by
  refine .of_tokens (fun S T kind span => ?_) fun _ _ _ _ _ => ⟨_, rfl, rfl⟩
  cases kind with
  | number n => exact .refl _
  | _ => exact .errors rfl

end Leaf

/-! ## Where two cursors stand -/

namespace Cursor

/-- The cursor stands before a `var()` call. -/
structure AtVar (S : Source) (c : Cursor) : Prop where
  source : c.source = S
  next : ∃ x, c.peek = some x ∧ x.isVar = true

/-- What follows two cursors agrees up to a `var()` call. -/
structure AgreeToVar (S T : Source) (c d : Cursor) : Prop where
  source : c.source = S
  source' : d.source = T
  rest : Styling.AgreeToVar S T c.rest d.rest

/-- What comes next at two cursors: nothing, a `var()` call at the first of them, or paired
components. -/
inductive Next (S T : Source) (c d : Cursor) : Prop
  | exhausted (hc : c.peek = none) (hd : d.peek = none)
  | call (h : c.AtVar S)
  | paired {x y : Component} (hc : c.peek = some x) (hd : d.peek = some y)
    (h : x.Paired S T y)
    (rest : x.containsVar = false → AgreeToVar S T c.advance d.advance)

end Cursor

/-- What comes next in two lists that agree up to a `var()` call. -/
theorem AgreeToVar.dropWhile {S T : Source} {cs ds : List Component} (h : AgreeToVar S T cs ds) :
    (cs.dropWhile Component.isWhitespace = [] ∧ ds.dropWhile Component.isWhitespace = []) ∨
      (cs.dropWhile Component.isWhitespace).head?.any Component.isVar = true ∨
      ∃ x y cs' ds', cs.dropWhile Component.isWhitespace = x :: cs' ∧
        ds.dropWhile Component.isWhitespace = y :: ds' ∧ x.Paired S T y ∧
        (x.containsVar = false → AgreeToVar S T cs' ds') := by
  induction h with
  | nil => exact Or.inl ⟨rfl, rfl⟩
  | call next => exact Or.inr (Or.inl next)
  | @shared x cs ds head tail ih =>
    cases hx : x.isWhitespace with
    | true => rwa [List.dropWhile_cons_of_pos hx, List.dropWhile_cons_of_pos hx]
    | false =>
      have hneg : ¬ x.isWhitespace = true := Bool.eq_false_iff.mp hx
      rw [List.dropWhile_cons_of_neg hneg, List.dropWhile_cons_of_neg hneg]
      exact Or.inr (Or.inr ⟨x, x, cs, ds, rfl, rfl, .shared head, fun _ => tail⟩)
  | inside name holds children ih =>
    refine Or.inr (Or.inr ⟨_, _, _, _, rfl, rfl, .inside name holds children, fun hnone => ?_⟩)
    rw [Component.containsVar, holds, Bool.or_true] at hnone
    exact absurd hnone.symm Bool.false_ne_true

namespace Cursor

variable {S T : Source} {c d : Cursor}

theorem AgreeToVar.next (h : AgreeToVar S T c d) : Next S T c d := by
  rcases h.rest.dropWhile with ⟨hc, hd⟩ | hcall | ⟨x, y, cs, ds, hc, hd, hpair, hrest⟩
  · exact .exhausted (by rw [peek, hc]; rfl) (by rw [peek, hd]; rfl)
  · exact .call ⟨h.source, (Option.any_eq_true _ _).mp hcall⟩
  · have hpeek : c.peek = some x := by rw [peek, hc]; rfl
    have hpeek' : d.peek = some y := by rw [peek, hd]; rfl
    refine .paired hpeek hpeek' hpair fun hnone => ⟨h.source, h.source', ?_⟩
    rw [rest_of_peek hpeek] at hc
    rw [rest_of_peek hpeek'] at hd
    rw [(List.cons.inj hc).2, (List.cons.inj hd).2]
    exact hrest hnone

end Cursor

/-! ## Readers -/

namespace Reader

variable {S T : Source} {α β : Type} {may may' : Prop}

/-- What a reader does before a `var()` call: it stays there, if it may, or is refused, but not in
an ordinary way. -/
def Waits (S : Source) (may : Prop) : EStateM.Result ReadError Cursor α → Prop
  | .ok _ c => may ∧ c.AtVar S
  | .error e _ => e.isOrdinary = false

theorem Waits.weaken {x : EStateM.Result ReadError Cursor α} (h : Waits S False x) :
    Waits S may x := by
  cases x with
  | ok a c => exact h.1.elim
  | error e c => exact h

/-- After a reader that does not stay before the call, nothing is read. -/
theorem Waits.bind {r : Reader α} {c : Cursor} (h : Waits S False (r c)) (f : α → Reader β) :
    Waits S may ((r >>= f) c) := by
  rw [bind_apply]
  cases hr : r c with
  | ok a c' =>
    rw [hr] at h
    exact h.1.elim
  | error e c' =>
    rw [hr] at h
    exact h

/-- A component that is or holds a `var()` call is waited for by those that look into it. -/
theorem waits_noNestedVar {source : Source} {x : Component} (hx : x.containsVar = true)
    (f : Unit → Reader α) (c : Cursor) :
    Waits S may ((ofExcept (Leaf.noNestedVar source x) >>= f) c) := by
  rw [bind_apply, Leaf.noNestedVar, if_pos hx, Leaf.varCall]
  exact (rfl : (ReadError.varCall _).isOrdinary = false)

/-- Two readers have the same result, with cursors that still agree, or are both refused in an
ordinary way, or the first of them waits for a `var()` call. -/
inductive Agrees (S T : Source) (may : Prop) :
    EStateM.Result ReadError Cursor α → EStateM.Result ReadError Cursor α → Prop
  | waits {x y : EStateM.Result ReadError Cursor α} (h : Waits S may x) : Agrees S T may x y
  | ok (a : α) {c d : Cursor} (h : c.AgreeToVar S T d) : Agrees S T may (.ok a c) (.ok a d)
  | refused {e e' : ReadError} (c d : Cursor) (he : e.isOrdinary = true)
    (he' : e'.isOrdinary = true) : Agrees S T may (.error e c) (.error e' d)

/-- The readers agree wherever two cursors agree. -/
def Tracks (S T : Source) (may : Prop) (r s : Reader α) : Prop :=
  ∀ c d, c.AgreeToVar S T d → Agrees S T may (r c) (s d)

/-- The first reader waits before a `var()` call, where it may stay or not, and the readers agree
wherever two cursors agree. -/
structure Follows (S T : Source) (may : Prop) (r s : Reader α) : Prop where
  waits : ∀ c, c.AtVar S → Waits S may (r c)
  tracks : Tracks S T may r s

namespace Tracks

theorem pure (a : α) : Tracks S T may (Pure.pure a) (Pure.pure a) :=
  fun _ _ h => .ok a h

theorem refuse (reason : Reason) :
    Tracks S T may (Reader.refuse reason : Reader α) (Reader.refuse reason) :=
  fun c d _ => .refused c d rfl rfl

/-- Each reader knows its source. -/
theorem source {f g : Source → Reader α} (h : Tracks S T may (f S) (g T)) :
    Tracks S T may (Reader.source >>= f) (Reader.source >>= g) := by
  intro c d hcd
  rw [bind_apply, bind_apply, source_apply, source_apply, hcd.source, hcd.source']
  exact h c d hcd

/-- Computations that move no cursor. -/
theorem ofExcept {x y : Except ReadError α} (h : Styling.Follows ReadError.isOrdinary x y) :
    Tracks S T may (Reader.ofExcept x) (Reader.ofExcept y) := by
  intro c d hcd
  cases x with
  | ok a =>
    rw [show y = .ok a from h]
    exact .ok a hcd
  | error e =>
    cases he : e.isOrdinary with
    | false => exact .waits he
    | true =>
      obtain ⟨e', rfl, he'⟩ := h he
      exact .refused c d he he'

end Tracks

/-- One reader after the other, at two cursors. -/
theorem Agrees.bind {r s : Reader α} {f g : α → Reader β} {c d : Cursor}
    (hrs : Agrees S T may (r c) (s d))
    (hwaits : may → ∀ a c', c'.AtVar S → Waits S may' (f a c'))
    (htracks : ∀ a c' d', r c = .ok a c' → c'.AgreeToVar S T d' →
      Agrees S T may' (f a c') (g a d')) :
    Agrees S T may' ((r >>= f) c) ((s >>= g) d) := by
  rw [bind_apply, bind_apply]
  generalize hr : r c = x at hrs
  generalize s d = y at hrs
  cases hrs with
  | ok a h => exact htracks a _ _ hr h
  | refused c' d' he he' => exact .refused c' d' he he'
  | waits h =>
    cases x with
    | ok a c' => exact .waits (hwaits h.1 a c' h.2)
    | error e c' => exact .waits h

/-- After readers that do not stay before a `var()` call. -/
theorem Agrees.andThen {r s : Reader α} {f g : α → Reader β} {c d : Cursor}
    (hrs : Agrees S T False (r c) (s d))
    (htracks : ∀ a c' d', r c = .ok a c' → c'.AgreeToVar S T d' →
      Agrees S T may (f a c') (g a d')) :
    Agrees S T may ((r >>= f) c) ((s >>= g) d) :=
  hrs.bind (fun h => h.elim) htracks

theorem attempt_of_error {r : Reader α} {c c' : Cursor} {e : ReadError} (h : r c = .error e c') :
    attempt r c = if e.isOrdinary = true then .ok none c else .error e c' := by
  rw [attempt, EStateM.run, h]
  rcases e with (⟨reason, l⟩ | ⟨reason, l⟩ | l) | f <;> rfl

theorem eq_of_attempt_none {r : Reader α} {c c' : Cursor} (h : attempt r c = .ok none c') :
    c' = c := by
  cases hr : r c with
  | ok a c'' =>
    rw [attempt_of_ok hr] at h
    exact absurd h (by simp)
  | error e c'' =>
    rw [attempt_of_error hr] at h
    split at h
    · exact (EStateM.Result.ok.inj h).2.symm
    · exact absurd h (by simp)

/-- Both readers step back from their refusals. -/
theorem Agrees.attempt {r s : Reader α} {c d : Cursor} (h : Agrees S T may (r c) (s d))
    (hcd : c.AgreeToVar S T d) :
    Agrees S T may (Reader.attempt r c) (Reader.attempt s d) := by
  generalize hr : r c = x at h
  generalize hs : s d = y at h
  cases h with
  | ok a h =>
    rw [attempt_of_ok hr, attempt_of_ok hs]
    exact .ok (some a) h
  | refused c' d' he he' =>
    rw [attempt_of_error hr, attempt_of_error hs, if_pos he, if_pos he']
    exact .ok none hcd
  | waits h =>
    cases x with
    | ok a c' =>
      rw [attempt_of_ok hr]
      exact .waits h
    | error e c' =>
      rw [attempt_of_error hr, if_neg (Bool.eq_false_iff.mp h)]
      exact .waits h

theorem waits_leaf {f : Leaf α} {c : Cursor} (hc : c.AtVar S) : Waits S may (Reader.leaf f c) := by
  obtain ⟨x, hpeek, hx⟩ := hc.next
  rw [leaf_of_peek_isVar hpeek hx]
  exact (rfl : (ReadError.varCall _).isOrdinary = false)

/-- Both readers give the next component to a leaf. -/
theorem agrees_leaf {f : Leaf α} {c d : Cursor} (hcd : c.AgreeToVar S T d)
    (hf : ∀ x y, c.peek = some x → x.Paired S T y →
      Styling.Follows ReadError.isOrdinary (f S x) (f T y)) (hclears : f.Clears) :
    Agrees S T may (Reader.leaf f c) (Reader.leaf f d) := by
  cases hcd.next with
  | call h => exact .waits (waits_leaf h)
  | exhausted hc hd =>
    rw [leaf_of_peek_none hc, leaf_of_peek_none hd]
    exact .refused _ _ rfl rfl
  | @paired x y hc hd h rest =>
    obtain ⟨hx, hy⟩ := h.isVar_eq_false
    rw [leaf_of_peek hc hx, leaf_of_peek hd hy, hcd.source, hcd.source']
    have hfollows := hf x y hc h
    have hnone := hclears S x
    cases hrun : f S x with
    | ok a =>
      rw [hrun] at hfollows hnone
      rw [show f T y = .ok a from hfollows]
      exact .ok a (rest hnone)
    | error e =>
      rw [hrun] at hfollows
      cases he : e.isOrdinary with
      | false => exact .waits he
      | true =>
        obtain ⟨e', hy', he'⟩ := hfollows he
        rw [hy']
        exact .refused _ _ he he'

/-- Both readers take a component that is shared. -/
theorem agrees_next {c d : Cursor} {x : Component} (hc : c.peek = some x) (hd : d.peek = some x)
    (hx : x.Shared S T) (rest : c.advance.AgreeToVar S T d.advance) :
    Agrees S T may (next c) (next d) := by
  have hvar := (Component.Paired.shared hx).isVar_eq_false.1
  rw [next_of_peek hc hvar, next_of_peek hd hvar]
  exact .ok x rest

/-- Where no lone keyword stands, what is read instead decides. -/
theorem agrees_unlessLone {word : String} {f g : Bool → Reader α} {c d : Cursor}
    (hvar : c.holdsVar = true) (hd : isKeywordExhausted word d = .ok false d)
    (h : Agrees S T may (f false c) (g false d)) :
    Agrees S T may ((isKeywordExhausted word >>= f) c) ((isKeywordExhausted word >>= g) d) := by
  rw [bind_apply, bind_apply, isKeywordExhausted_of_holdsVar hvar, hd]
  exact h

/-- The loop that takes every component ends where nothing follows. -/
theorem peek_of_foldAll {σ : Type} {step : σ → Component → Except StepError σ} {s s' : σ}
    {c c' : Cursor} (h : foldAll step s c = .ok s' c') : c'.peek = none := by
  induction c using Cursor.advance_induction generalizing s with
  | exhausted c hpeek =>
    rw [foldAll, foldWhile_of_peek_none hpeek] at h
    rw [← (EStateM.Result.ok.inj h).2, hpeek]
  | next c d hpeek ih =>
    rw [foldAll, foldWhile_of_peek hpeek] at h
    cases hstep : step s d with
    | error e =>
      rw [hstep] at h
      exact absurd h (by simp [Except.map])
    | ok next =>
      rw [hstep] at h
      exact ih h

namespace Follows

theorem pure (a : α) : Follows S T True (Pure.pure a) (Pure.pure a) :=
  ⟨fun _ h => ⟨trivial, h⟩, fun _ _ h => .ok a h⟩

/-- One reader after the other. -/
theorem bind {r s : Reader α} {f g : α → Reader β} (hrs : Follows S T may r s)
    (hfg : ∀ a, Follows S T may' (f a) (g a)) : Follows S T may' (r >>= f) (s >>= g) := by
  refine ⟨fun c hc => ?_, fun c d h =>
    (hrs.tracks c d h).bind (fun _ a => (hfg a).waits) fun a c' d' _ => (hfg a).tracks c' d'⟩
  have hwaits := hrs.waits c hc
  rw [bind_apply]
  cases hr : r c with
  | ok a c' =>
    rw [hr] at hwaits
    exact (hfg a).waits c' hwaits.2
  | error e c' =>
    rw [hr] at hwaits
    exact hwaits

/-- After a reader that does not stay before a `var()` call, anything may be refused. -/
theorem bindTracks {r s : Reader α} {f g : α → Reader β} (hrs : Follows S T False r s)
    (hfg : ∀ a, Tracks S T may (f a) (g a)) : Follows S T may (r >>= f) (s >>= g) := by
  refine ⟨fun c hc => (hrs.waits c hc).bind f, fun c d h => ?_⟩
  exact (hrs.tracks c d h).andThen fun a c' d' _ => hfg a c' d'

/-- Each reader knows its source. -/
theorem source {f g : Source → Reader α} (h : Follows S T may (f S) (g T)) :
    Follows S T may (Reader.source >>= f) (Reader.source >>= g) := by
  refine ⟨fun c hc => ?_, .source h.tracks⟩
  rw [bind_apply, source_apply, hc.source]
  exact h.waits c hc

/-- Stepping back from a refusal. -/
theorem attempt {r s : Reader α} (h : Follows S T may r s) :
    Follows S T may (Reader.attempt r) (Reader.attempt s) := by
  refine ⟨fun c hc => ?_, fun c d hcd => (h.tracks c d hcd).attempt hcd⟩
  have hwaits := h.waits c hc
  cases hr : r c with
  | ok a c' =>
    rw [hr] at hwaits
    rw [attempt_of_ok hr]
    exact hwaits
  | error e c' =>
    rw [hr] at hwaits
    rw [attempt_of_error hr, if_neg (Bool.eq_false_iff.mp hwaits)]
    exact hwaits

/-- A reader that does not stay before a `var()` call. -/
theorem weaken {r s : Reader α} (h : Follows S T False r s) : Follows S T may r s := by
  refine ⟨fun c hc => (h.waits c hc).weaken, fun c d hcd => ?_⟩
  have hagrees := h.tracks c d hcd
  generalize r c = x at hagrees ⊢
  generalize s d = y at hagrees ⊢
  cases hagrees with
  | waits h => exact .waits h.weaken
  | ok a h => exact .ok a h
  | refused c' d' he he' => exact .refused c' d' he he'

/-- Taking the next component, which is no `var()` call. -/
theorem leaf {f : Leaf α} (hf : f.Follows) (hclears : f.Clears) :
    Follows S T False (Reader.leaf f) (Reader.leaf f) :=
  ⟨fun _ hc => waits_leaf hc, fun _ _ hcd =>
    agrees_leaf hcd (fun x y _ h => hf S T x y h) hclears⟩

theorem keyword (words : List String) :
    Follows S T False (Reader.keyword words) (Reader.keyword words) :=
  leaf (Leaf.follows_keywordLeaf words) (Leaf.clears_keywordLeaf words)

theorem tryKeyword (words : List String) :
    Follows S T False (Reader.tryKeyword words) (Reader.tryKeyword words) :=
  attempt (keyword words)

theorem expectComma : Follows S T False Reader.expectComma Reader.expectComma := by
  refine leaf (fun S T c d h => ?_) fun source d => ?_
  · rw [Component.isComma, Component.isComma, ← h.isTokenOf_eq]
    split
    · exact .refl _
    · exact .errors rfl
  · split
    next h => exact Component.containsVar_of_isTokenOf h
    next => exact .unexpected source d

/-- The end of the value is not before a `var()` call. -/
theorem expectExhausted : Follows S T False Reader.expectExhausted Reader.expectExhausted := by
  have hwaits : ∀ {c : Cursor} {x : Component}, c.peek = some x → x.containsVar = true →
      Waits S False (Reader.expectExhausted c) := by
    intro c x hpeek hx
    rw [expectExhausted_of_peek hpeek, if_pos hx]
    exact (rfl : (ReadError.varCall _).isOrdinary = false)
  have hcall : ∀ c, c.AtVar S → Waits S False (Reader.expectExhausted c) := by
    intro c hc
    obtain ⟨x, hpeek, hx⟩ := hc.next
    exact hwaits hpeek (Component.containsVar_of_isVar hx)
  refine ⟨hcall, fun c d hcd => ?_⟩
  cases hcd.next with
  | call h => exact .waits (hcall c h)
  | exhausted hc hd =>
    rw [expectExhausted_of_peek_none hc, expectExhausted_of_peek_none hd]
    exact .ok () hcd
  | @paired x y hc hd h rest =>
    rcases h.containsVar with ⟨hx, -⟩ | ⟨rfl, hshared⟩
    · exact .waits (hwaits hc hx)
    · have hnone := Bool.eq_false_iff.mp hshared.containsVar_eq_false
      rw [expectExhausted_of_peek hc, expectExhausted_of_peek hd, if_neg hnone, if_neg hnone]
      exact .refused _ _ rfl rfl

theorem tryComma : Follows S T True Reader.tryComma Reader.tryComma := by
  have hcall : ∀ c, c.AtVar S → Waits S True (Reader.tryComma c) := by
    intro c hc
    obtain ⟨x, hpeek, hx⟩ := hc.next
    have hcomma : x.isComma = false := by
      cases x with
      | token t => exact absurd hx Bool.false_ne_true
      | group opener opened xs ending => rfl
    rw [tryComma_of_peek hpeek, if_neg (Bool.eq_false_iff.mp hcomma)]
    exact ⟨trivial, hc⟩
  refine ⟨hcall, fun c d hcd => ?_⟩
  cases hcd.next with
  | call h => exact .waits (hcall c h)
  | exhausted hc hd =>
    rw [tryComma_of_peek_none hc, tryComma_of_peek_none hd]
    exact .ok false hcd
  | @paired x y hc hd h rest =>
    rw [tryComma_of_peek hc, tryComma_of_peek hd, Component.isComma, Component.isComma,
      ← h.isTokenOf_eq]
    cases hcomma : x.isTokenOf TokenKind.isComma with
    | true => exact .ok true (rest (Component.containsVar_of_isTokenOf hcomma))
    | false => exact .ok false hcd

/-- Whether anything follows: a `var()` call does. -/
theorem isExhausted {r r' s s' : Reader α} (hdone : Tracks S T may r r')
    (hmore : Follows S T may s s') :
    Follows S T may (do if ← Reader.ask Cursor.isExhausted then r else s)
      (do if ← Reader.ask Cursor.isExhausted then r' else s') := by
  have happly : ∀ (r s : Reader α) (c : Cursor),
      (do if ← Reader.ask Cursor.isExhausted then r else s : Reader α) c =
        if c.isExhausted then r c else s c := by
    intro r s c
    rw [bind_apply, ask_apply]
    cases c.isExhausted <;> rfl
  have hpeek : ∀ {c : Cursor} {x : Component}, c.peek = some x → ¬ c.isExhausted = true := by
    intro c x h
    rw [Cursor.isExhausted, h]
    exact Bool.false_ne_true
  refine ⟨fun c hc => ?_, fun c d hcd => ?_⟩
  · obtain ⟨x, hx, -⟩ := hc.next
    rw [happly, if_neg (hpeek hx)]
    exact hmore.waits c hc
  · rw [happly, happly]
    cases hcd.next with
    | exhausted hc hd =>
      have hend : ∀ {c : Cursor}, c.peek = none → c.isExhausted = true := fun h => by
        rw [Cursor.isExhausted, h]
        rfl
      rw [if_pos (hend hc), if_pos (hend hd)]
      exact hdone c d hcd
    | call h =>
      obtain ⟨x, hx, -⟩ := h.next
      rw [if_neg (hpeek hx)]
      exact .waits (hmore.waits c h)
    | paired hc hd h rest =>
      rw [if_neg (hpeek hc), if_neg (hpeek hd)]
      exact hmore.tracks c d hcd

/-- A computation with numbers is no verdict. -/
theorem ofFault (x : Except Fault α) :
    Follows S T True (Reader.ofExcept (ReadError.ofFault x))
      (Reader.ofExcept (ReadError.ofFault x)) := by
  refine ⟨fun c hc => ?_, .ofExcept (.refl _)⟩
  cases x with
  | ok a => exact ⟨trivial, hc⟩
  | error f => exact (rfl : (ReadError.fault f).isOrdinary = false)

/-- A look at the next component. -/
theorem peek {f g : Option Component → Reader α}
    (hcall : ∀ c x, c.AtVar S → c.peek = some x → x.isVar = true → Waits S may (f (some x) c))
    (hnone : Tracks S T may (f none) (g none))
    (hpaired : ∀ c d x y, c.AgreeToVar S T d → c.peek = some x → d.peek = some y →
      x.Paired S T y → (x.containsVar = false → c.advance.AgreeToVar S T d.advance) →
      Agrees S T may (f (some x) c) (g (some y) d)) :
    Follows S T may (Reader.ask Cursor.peek >>= f) (Reader.ask Cursor.peek >>= g) := by
  have hwaits : ∀ c, c.AtVar S → Waits S may ((Reader.ask Cursor.peek >>= f) c) := by
    intro c hc
    obtain ⟨x, hpeek, hx⟩ := hc.next
    rw [bind_apply, ask_apply, hpeek]
    exact hcall c x hc hpeek hx
  refine ⟨hwaits, fun c d hcd => ?_⟩
  cases hcd.next with
  | call h => exact .waits (hwaits c h)
  | exhausted hc hd =>
    rw [bind_apply, bind_apply, ask_apply, ask_apply, hc, hd]
    exact hnone c d hcd
  | @paired x y hc hd h rest =>
    rw [bind_apply, bind_apply, ask_apply, ask_apply, hc, hd]
    exact hpaired c d x y hcd hc hd h rest

/-- The loop, if its step takes no component with a `var()` call. -/
theorem foldWhile {σ : Type} {step step' : σ → Component → Except StepError (Option σ)}
    (hcall : ∀ s x, x.isVar = true → (may ∧ step s x = .ok none) ∨
      ∃ e, step s x = .error e ∧ e.isOrdinary = false)
    (hstep : ∀ s x y, x.Paired S T y →
      Styling.Follows StepError.isOrdinary (step s x) (step' s y))
    (hclears : ∀ s x s', step s x = .ok (some s') → x.containsVar = false) (s : σ) :
    Follows S T may (Reader.foldWhile step s) (Reader.foldWhile step' s) := by
  have hwaits : ∀ s c, c.AtVar S → Waits S may (Reader.foldWhile step s c) := by
    intro s c hc
    obtain ⟨x, hpeek, hx⟩ := hc.next
    rw [foldWhile_of_peek hpeek]
    rcases hcall s x hx with ⟨hmay, hrun⟩ | ⟨e, hrun, he⟩
    · rw [hrun]
      exact ⟨hmay, hc⟩
    · rw [hrun]
      exact (StepError.isOrdinary_resolve _ e).trans he
  refine ⟨hwaits s, fun c => ?_⟩
  induction c using Cursor.advance_induction generalizing s with
  | exhausted c hpeek =>
    intro d hcd
    cases hcd.next with
    | call h => exact .waits (hwaits s c h)
    | exhausted hc hd =>
      rw [foldWhile_of_peek_none hc, foldWhile_of_peek_none hd]
      exact .ok s hcd
    | paired hc hd h rest => exact absurd (hpeek.symm.trans hc) (by simp)
  | next c x hpeek ih =>
    intro d hcd
    cases hcd.next with
    | call h => exact .waits (hwaits s c h)
    | exhausted hc hd => exact absurd (hpeek.symm.trans hc) (by simp)
    | @paired x y hc hd h rest =>
      have hfollows := hstep s x y h
      rw [foldWhile_of_peek hc, foldWhile_of_peek hd]
      cases hrun : step s x with
      | error e =>
        rw [hrun] at hfollows
        cases he : e.isOrdinary with
        | false => exact .waits ((StepError.isOrdinary_resolve _ e).trans he)
        | true =>
          obtain ⟨e', hrun', he'⟩ := hfollows he
          rw [hrun']
          exact .refused _ _ ((StepError.isOrdinary_resolve _ e).trans he)
            ((StepError.isOrdinary_resolve _ e').trans he')
      | ok o =>
        rw [hrun] at hfollows
        rw [show step' s y = .ok o from hfollows]
        cases o with
        | none => exact .ok s hcd
        | some next => exact ih next d.advance (rest (hclears s x next hrun))

/-- The loop that takes every component does not stay before a `var()` call. -/
theorem foldAll {σ : Type} {step step' : σ → Component → Except StepError σ}
    (hcall : ∀ s x, x.isVar = true → ∃ e, step s x = .error e ∧ e.isOrdinary = false)
    (hstep : ∀ s x y, x.Paired S T y →
      Styling.Follows StepError.isOrdinary (step s x) (step' s y))
    (hclears : ∀ s x s', step s x = .ok s' → x.containsVar = false) (s : σ) :
    Follows S T False (Reader.foldAll step s) (Reader.foldAll step' s) := by
  refine foldWhile (fun s x hx => ?_) (fun s x y h => ?_) (fun s x s' hrun => ?_) s
  · obtain ⟨e, hrun, he⟩ := hcall s x hx
    exact Or.inr ⟨e, by rw [hrun]; rfl, he⟩
  · exact (hstep s x y h).bind fun s' _ => .refl _
  · cases hx : step s x with
    | ok s'' => exact hclears s x s'' hx
    | error e =>
      rw [hx] at hrun
      exact absurd hrun (by simp [Except.map])

end Follows

/-- A reader that must use up the value does not stay before a `var()` call. -/
theorem Agrees.whole {r s : Reader α} {c d : Cursor} (h : Agrees S T may (r c) (s d)) :
    Agrees S T False ((do let a ← r; Reader.expectExhausted; return a : Reader α) c)
      ((do let a ← s; Reader.expectExhausted; return a : Reader α) d) := by
  have hend : ∀ a : α, Follows S T False (do Reader.expectExhausted; return a : Reader α)
      (do Reader.expectExhausted; return a) :=
    fun a => Follows.expectExhausted.bindTracks fun _ => .pure a
  exact h.bind (fun _ a => (hend a).waits) fun a c' d' _ => (hend a).tracks c' d'

/-- Reading the insides of two groups. -/
theorem follows_inside {r s : Reader α} {c d : Cursor} (h : Agrees S T may (r c) (s d)) :
    Styling.Follows ReadError.isOrdinary (r.inside c) (s.inside d) := by
  have hwhole := h.whole
  rw [inside, inside, EStateM.run, EStateM.run]
  generalize (do let a ← r; Reader.expectExhausted; return a : Reader α) c = x at hwhole
  generalize (do let a ← s; Reader.expectExhausted; return a : Reader α) d = y at hwhole
  cases hwhole with
  | ok a h => exact rfl
  | refused c' d' he he' => exact .errors he'
  | waits h =>
    cases x with
    | ok a c' => exact h.1.elim
    | error e c' => exact .of_not_isOrdinary h _

end Reader

end Styling
