import Styling.Proofs.Value.Running

/-!
# What reading tells about `var()` calls

A reader that gives a value has seen every component it took, inside and out: none of them is or
holds a `var()` call.  A reader that is refused for a `var()` call has met one.  Both facts hold for
the readers of single components, and they pass through every way of putting readers together, so a
grammar has them as soon as its parts do.

* `Grounded` is the property of a result: its value has a property, and it is the refusal of a
  `var()` call only if there is one.
* `Leaf.Clears` is the property for a reader of one component.
* `Reader.Clears` is the property for a reader at a cursor: `Cursor.holdsVar` stays as it is.
* `Reader.Clears.bind`, `Reader.Clears.attempt`, `Reader.Clears.leaf`, `Reader.Clears.foldWhile` and
  `Reader.grounded_inside` are the ways of putting readers together.
-/

namespace Styling

/-- The error is the refusal of a `var()` call. -/
def ReadError.isVarCall : ReadError → Bool
  | .refused r => r.isVarCall
  | .fault _ => false

/-- The error is the refusal of a `var()` call. -/
def StepError.isVarCall : StepError → Bool
  | .here e => e.isVarCall
  | .following _ => false

namespace ReadError

@[simp] theorem isVarCall_invalid (reason : Reason) (l : Location) :
    (invalid reason l).isVarCall = false := rfl

@[simp] theorem isVarCall_unsupported (reason : Reason) (l : Location) :
    (unsupported reason l).isVarCall = false := rfl

@[simp] theorem isVarCall_varCall (l : Location) : (varCall l).isVarCall = true := rfl

@[simp] theorem isVarCall_fault (f : Fault) : (fault f).isVarCall = false := rfl

end ReadError

@[simp] theorem StepError.isVarCall_resolve (l : Location) (e : StepError) :
    (e.resolve l).isVarCall = e.isVarCall := by
  cases e <;> rfl

namespace Component

/-! ## Components -/

@[simp] theorem containsVar_token (t : Token) : (token t).containsVar = false := by
  rw [containsVar]

theorem containsVar_of_isVar {c : Component} (h : c.isVar = true) : c.containsVar = true := by
  cases c with
  | token t => exact absurd h (by simp [isVar, isCall])
  | group opener opened cs ending =>
    rw [containsVar]
    exact Bool.or_eq_true_iff.mpr (Or.inl h)

/-- Only a token satisfies a test of tokens, and a token holds nothing. -/
theorem containsVar_of_isTokenOf {p : TokenKind → Bool} {c : Component}
    (h : c.isTokenOf p = true) : c.containsVar = false := by
  cases c with
  | token t => exact containsVar_token t
  | group opener opened cs ending => exact absurd h (by simp [isTokenOf])

/-- A group that is no `var()` call holds one if its inside does. -/
theorem containsVar_eq_children {c : Component} (h : c.isVar = false) :
    c.containsVar = listContainsVar c.children := by
  cases c with
  | token t => rw [containsVar_token, children, listContainsVar]
  | group opener opened cs ending =>
    rw [containsVar, children, show opener.isFunction "var" = false from h, Bool.false_or]

@[simp] theorem listContainsVar_nil : listContainsVar [] = false := by
  rw [listContainsVar]

@[simp] theorem listContainsVar_cons (c : Component) (cs : List Component) :
    listContainsVar (c :: cs) = (c.containsVar || listContainsVar cs) := by
  rw [listContainsVar]

/-- Whitespace holds nothing. -/
theorem listContainsVar_dropWhile_isWhitespace (cs : List Component) :
    listContainsVar (cs.dropWhile isWhitespace) = listContainsVar cs := by
  induction cs with
  | nil => rfl
  | cons c cs ih =>
    rw [List.dropWhile_cons]
    split
    · rw [ih, listContainsVar_cons, containsVar_of_isTokenOf ‹_›, Bool.false_or]
    · rfl

theorem listContainsVar_takeWhile_isWhitespace (cs : List Component) :
    listContainsVar (cs.takeWhile isWhitespace) = false := by
  rw [listContainsVar_eq_any, List.any_eq_false]
  intro c hc
  rw [containsVar_of_isTokenOf (List.mem_takeWhile_imp hc)]
  exact Bool.false_ne_true

end Component

/-! ## Results -/

/-- The value of a result has the property `P`, and the result is the refusal of a `var()` call only
if there is one. -/
def Grounded {ε α : Type} (isVarCall : ε → Bool) (hasVar : Bool) (P : α → Prop) :
    Except ε α → Prop
  | .ok a => P a
  | .error e => isVarCall e = true → hasVar = true

namespace Grounded

variable {ε α β : Type} {isVarCall : ε → Bool} {hasVar : Bool} {P P' : α → Prop} {Q : β → Prop}

theorem error {e : ε} (h : isVarCall e = false) :
    Grounded isVarCall hasVar P (.error e : Except ε α) :=
  fun he => absurd (h.symm.trans he) Bool.false_ne_true

theorem imp {x : Except ε α} (hx : Grounded isVarCall hasVar P x) (h : ∀ a, P a → P' a) :
    Grounded isVarCall hasVar P' x := by
  cases x with
  | ok a => exact h a hx
  | error e => exact hx

/-- A `var()` call in a part is one in the whole. -/
theorem within {whole : Bool} {x : Except ε α} (hx : Grounded isVarCall hasVar P x)
    (h : hasVar = true → whole = true) : Grounded isVarCall whole P x := by
  cases x with
  | ok a => exact hx
  | error e => exact fun he => h (hx he)

theorem bind {x : Except ε α} {f : α → Except ε β} (hx : Grounded isVarCall hasVar P x)
    (hf : ∀ a, P a → Grounded isVarCall hasVar Q (f a)) :
    Grounded isVarCall hasVar Q (x >>= f) := by
  cases x with
  | ok a => exact hf a hx
  | error e => exact hx

/-- A fault of arithmetic is no reason to wait for custom properties. -/
theorem ofFault (x : Except Fault α) :
    Grounded ReadError.isVarCall hasVar (fun _ => True) (ReadError.ofFault x) := by
  cases x with
  | ok a => trivial
  | error f => exact error rfl

theorem unexpected (source : Source) (c : Component) :
    Grounded ReadError.isVarCall hasVar P (Leaf.unexpected source c) :=
  error rfl

theorem unsupported (source : Source) (c : Component) :
    Grounded ReadError.isVarCall hasVar P (Leaf.unsupported source c) :=
  error rfl

theorem refuse (reason : Reason) (source : Source) (c : Component) :
    Grounded ReadError.isVarCall hasVar P (Leaf.refuse reason source c) :=
  error rfl

/-- Reading each entry of a list: together they give values only if no entry has a `var()` call. -/
theorem mapM {γ : Type} {hasVar : γ → Bool} {f : γ → Except ε α}
    (hf : ∀ x, Grounded isVarCall (hasVar x) (fun _ => hasVar x = false) (f x)) (xs : List γ) :
    Grounded isVarCall (xs.any hasVar) (fun _ => xs.any hasVar = false) (xs.mapM f) := by
  induction xs with
  | nil => exact rfl
  | cons x xs ih =>
    rw [List.mapM_cons, List.any_cons]
    refine ((hf x).within fun h => by rw [h, Bool.true_or]).bind fun a hx => ?_
    rw [hx, Bool.false_or]
    exact ih.bind fun as hxs => hxs

/-- Stepping back from a refusal forgets the component. -/
theorem attempted {x : Except ReadError α} (hx : Grounded ReadError.isVarCall hasVar P x) :
    Grounded ReadError.isVarCall hasVar (fun o => ∀ a, o = some a → P a)
      (Reader.attempted x) := by
  rcases x with ((⟨reason, l⟩ | ⟨reason, l⟩ | l) | f) | a
  · exact fun b hb => absurd hb (by simp)
  · exact fun b hb => absurd hb (by simp)
  · exact hx
  · exact error rfl
  · exact fun b hb => Option.some_inj.mp hb ▸ hx

theorem ofLeaf {x : Except ReadError α} (hx : Grounded ReadError.isVarCall hasVar P x) :
    Grounded StepError.isVarCall hasVar P (StepError.ofLeaf x) := by
  cases x with
  | ok a => exact hx
  | error e => exact hx

theorem following (reason : Reason) :
    Grounded StepError.isVarCall hasVar P (.error (.following reason) : Except StepError α) :=
  error rfl

end Grounded

/-! ## Readers of one component -/

/-- The leaf gives a value only for a component without a `var()` call, and is refused for a `var()`
call only by a component with one. -/
def Leaf.Clears {α : Type} (f : Leaf α) : Prop :=
  ∀ source c, Grounded ReadError.isVarCall c.containsVar (fun _ => c.containsVar = false)
    (f source c)

namespace Leaf

/-- A component that passes is no `var()` call, but may hold one. -/
theorem grounded_noVar (source : Source) (c : Component) :
    Grounded ReadError.isVarCall c.containsVar (fun _ => c.isVar = false) (noVar source c) := by
  unfold noVar
  split
  next h => exact fun _ => Component.containsVar_of_isVar h
  next h => exact Bool.eq_false_iff.mpr h

theorem clears_noNestedVar : Clears noNestedVar := by
  intro source c
  unfold noNestedVar
  split
  next h => exact fun _ => h
  next h => exact Bool.eq_false_iff.mpr h

theorem clears_unexpected {α : Type} : Clears (unexpected (α := α)) :=
  fun source c => .unexpected source c

theorem clears_identLeaf : Clears Reader.identLeaf := by
  intro source c
  unfold Reader.identLeaf
  split
  next => exact Component.containsVar_token _
  next => exact .unexpected source c

theorem clears_keywordLeaf (words : List String) : Clears (Reader.keywordLeaf words) := by
  intro source c
  refine (clears_identLeaf source c).bind fun name hc => ?_
  dsimp only
  split
  next => exact hc
  next => exact .unexpected source c

theorem clears_percentageLeaf : Clears Reader.percentageLeaf := by
  intro source c
  unfold Reader.percentageLeaf
  split
  next => exact (Grounded.ofFault _).imp fun _ _ => Component.containsVar_token _
  next => exact .unexpected source c

theorem clears_numberLeaf : Clears Reader.numberLeaf := by
  intro source c
  unfold Reader.numberLeaf
  split
  next => exact (Grounded.ofFault _).imp fun _ _ => Component.containsVar_token _
  next => exact .unexpected source c

end Leaf

/-! ## Readers -/

/-- A `var()` call follows the cursor at some depth. -/
def Cursor.holdsVar (c : Cursor) : Bool :=
  Component.listContainsVar c.rest

namespace Cursor

theorem holdsVar_of_peek_none {c : Cursor} (h : c.peek = none) : c.holdsVar = false := by
  rw [holdsVar, ← Component.listContainsVar_dropWhile_isWhitespace, rest_of_peek_none h,
    Component.listContainsVar_nil]

/-- A `var()` call follows if it is in the next component or in what comes after it. -/
theorem holdsVar_of_peek {c : Cursor} {d : Component} (h : c.peek = some d) :
    c.holdsVar = (d.containsVar || c.advance.holdsVar) := by
  rw [holdsVar, ← Component.listContainsVar_dropWhile_isWhitespace, rest_of_peek h,
    Component.listContainsVar_cons, holdsVar]

theorem holdsVar_advance {c : Cursor} {d : Component} (h : c.peek = some d)
    (hd : d.containsVar = false) : c.advance.holdsVar = c.holdsVar := by
  rw [holdsVar_of_peek h, hd, Bool.false_or]

theorem holdsVar_of_containsVar {c : Cursor} {d : Component} (h : c.peek = some d)
    (hd : d.containsVar = true) : c.holdsVar = true := by
  rw [holdsVar_of_peek h, hd, Bool.true_or]

end Cursor

namespace Reader

/-- A lone keyword is the whole value, and no other value is touched. -/
theorem isKeywordExhausted_cases (word : String) (c : Cursor) :
    (isKeywordExhausted word c = .ok true c.advance ∧ c.holdsVar = false) ∨
      isKeywordExhausted word c = .ok false c := by
  cases hpeek : c.peek with
  | none => exact Or.inr (isKeywordExhausted_of_peek_none hpeek)
  | some d =>
    rw [isKeywordExhausted_of_peek hpeek]
    cases hlone : d.isKeyword word && c.advance.isExhausted with
    | false => exact Or.inr rfl
    | true =>
      obtain ⟨hd, hend⟩ := Bool.and_eq_true_iff.mp hlone
      refine Or.inl ⟨rfl, ?_⟩
      rw [← Cursor.holdsVar_advance hpeek (Component.containsVar_of_isTokenOf hd)]
      exact Cursor.holdsVar_of_peek_none (Option.isNone_iff_eq_none.mp hend)

/-- A value that holds a `var()` call is no lone keyword. -/
theorem isKeywordExhausted_of_holdsVar {c : Cursor} (h : c.holdsVar = true) (word : String) :
    isKeywordExhausted word c = .ok false c := by
  rcases isKeywordExhausted_cases word c with ⟨-, hnone⟩ | hrun
  · exact absurd (h.symm.trans hnone) (by decide)
  · exact hrun

end Reader

/-- A reader gives a value with the property `P`, having taken no `var()` call, and is refused for a
`var()` call only if one follows the cursor. -/
def Reader.Clears {α : Type} (r : Reader α) (c : Cursor) (P : α → Prop) : Prop :=
  match r c with
  | .ok a c' => P a ∧ c'.holdsVar = c.holdsVar
  | .error e _ => e.isVarCall = true → c.holdsVar = true

namespace Reader.Clears

variable {α β : Type} {c : Cursor} {P P' : α → Prop} {Q : β → Prop}

theorem imp {r : Reader α} (h : r.Clears c P) (hP : ∀ a, P a → P' a) : r.Clears c P' := by
  unfold Clears at *
  cases hr : r c with
  | ok a c' =>
    rw [hr] at h
    exact ⟨hP a h.1, h.2⟩
  | error e c' =>
    rw [hr] at h
    exact h

/-- What was read held no `var()` call. -/
theorem holdsVar_eq {r : Reader α} (h : r.Clears c P) {a : α} {c' : Cursor}
    (hrun : r c = .ok a c') : c'.holdsVar = c.holdsVar := by
  rw [Clears, hrun] at h
  exact h.2

theorem pure {a : α} (h : P a) : (Pure.pure a : Reader α).Clears c P :=
  ⟨h, rfl⟩

theorem throw {e : ReadError} (h : e.isVarCall = true → c.holdsVar = true) :
    (MonadExcept.throw e : Reader α).Clears c P :=
  h

/-- One reader after the other: the second starts where as many `var()` calls follow. -/
theorem bind {r : Reader α} {f : α → Reader β} (hr : r.Clears c P)
    (hf : ∀ a c', P a → c'.holdsVar = c.holdsVar → (f a).Clears c' Q) :
    (r >>= f).Clears c Q := by
  unfold Clears at *
  rw [show (r >>= f) c = EStateM.bind r f c from rfl, EStateM.bind]
  cases hrun : r c with
  | error e c' =>
    rw [hrun] at hr
    exact hr
  | ok a c' =>
    rw [hrun] at hr
    have hnext := hf a c' hr.1 hr.2
    rw [hr.2] at hnext
    exact hnext

/-- A question about the cursor; the answer is known afterwards. -/
theorem ask {γ : Type} {f : Cursor → γ} {k : γ → Reader α} (h : (k (f c)).Clears c P) :
    (Reader.ask f >>= k).Clears c P :=
  h

theorem source {k : Source → Reader α} (h : (k c.source).Clears c P) :
    (Reader.source >>= k).Clears c P :=
  h

theorem get {k : Cursor → Reader α} (h : (k c).Clears c P) :
    ((MonadState.get : Reader Cursor) >>= k).Clears c P :=
  h

/-- The result of a computation that moves no cursor. -/
theorem ofExcept {x : Except ReadError α} (h : Grounded ReadError.isVarCall c.holdsVar P x) :
    (Reader.ofExcept x).Clears c P := by
  cases x with
  | ok a => exact ⟨h, rfl⟩
  | error e => exact h

theorem refuse (reason : Reason) : (Reader.refuse reason : Reader α).Clears c P :=
  fun h => absurd h Bool.false_ne_true

/-- Stepping back from a refusal leaves the cursor where it was. -/
theorem attempt {r : Reader α} (h : r.Clears c P) :
    (Reader.attempt r).Clears c (fun o => ∀ a, o = some a → P a) := by
  unfold Clears at *
  rw [Reader.attempt, EStateM.run]
  cases hr : r c with
  | ok a c' =>
    rw [hr] at h
    exact ⟨fun b hb => Option.some_inj.mp hb ▸ h.1, h.2⟩
  | error e c' =>
    rw [hr] at h
    rcases e with (⟨reason, l⟩ | ⟨reason, l⟩ | l) | f
    · exact ⟨fun b hb => absurd hb (by simp), rfl⟩
    · exact ⟨fun b hb => absurd hb (by simp), rfl⟩
    · exact h
    · exact h

/-- Taking a component that holds no `var()` call. -/
theorem next_of_peek {d : Component} (h : c.peek = some d) (hd : d.containsVar = false) :
    Reader.next.Clears c fun a => a = d := by
  have hvar : d.isVar = false := by
    rw [Bool.eq_false_iff]
    intro hvar
    rw [Component.containsVar_of_isVar hvar] at hd
    exact absurd hd (by simp)
  rw [Clears, Reader.next_of_peek h hvar]
  exact ⟨rfl, Cursor.holdsVar_advance h hd⟩

theorem leaf {f : Leaf α} (hf : f.Clears) : (Reader.leaf f).Clears c fun _ => True := by
  unfold Clears
  cases hpeek : c.peek with
  | none =>
    rw [Reader.leaf_of_peek_none hpeek]
    exact fun h => absurd h Bool.false_ne_true
  | some d =>
    cases hvar : d.isVar with
    | true =>
      rw [Reader.leaf_of_peek_isVar hpeek hvar]
      exact fun _ => Cursor.holdsVar_of_containsVar hpeek (Component.containsVar_of_isVar hvar)
    | false =>
      rw [Reader.leaf_of_peek hpeek hvar]
      have hd := hf c.source d
      cases hrun : f c.source d with
      | ok a =>
        rw [hrun] at hd
        exact ⟨trivial, Cursor.holdsVar_advance hpeek hd⟩
      | error e =>
        rw [hrun] at hd
        exact fun he => Cursor.holdsVar_of_containsVar hpeek (hd he)

theorem keyword (words : List String) : (Reader.keyword words).Clears c fun _ => True :=
  leaf (Leaf.clears_keywordLeaf words)

theorem tryKeyword (words : List String) : (Reader.tryKeyword words).Clears c fun _ => True :=
  (attempt (keyword words)).imp fun _ _ => trivial

theorem isKeywordExhausted (word : String) :
    (Reader.isKeywordExhausted word).Clears c fun _ => True := by
  unfold Clears
  cases hpeek : c.peek with
  | none =>
    rw [Reader.isKeywordExhausted_of_peek_none hpeek]
    exact ⟨trivial, rfl⟩
  | some d =>
    rw [Reader.isKeywordExhausted_of_peek hpeek]
    cases hlone : d.isKeyword word && c.advance.isExhausted with
    | true =>
      have hd := Component.containsVar_of_isTokenOf (Bool.and_eq_true_iff.mp hlone).1
      exact ⟨trivial, Cursor.holdsVar_advance hpeek hd⟩
    | false => exact ⟨trivial, rfl⟩

theorem tryComma : Reader.tryComma.Clears c fun _ => True := by
  unfold Clears
  cases hpeek : c.peek with
  | none =>
    rw [Reader.tryComma_of_peek_none hpeek]
    exact ⟨trivial, rfl⟩
  | some d =>
    rw [Reader.tryComma_of_peek hpeek]
    cases hcomma : d.isComma with
    | true =>
      have hd := Component.containsVar_of_isTokenOf hcomma
      exact ⟨trivial, Cursor.holdsVar_advance hpeek hd⟩
    | false => exact ⟨trivial, rfl⟩

theorem expectComma : Reader.expectComma.Clears c fun _ => True := by
  refine leaf fun source d => ?_
  split
  next h => exact Component.containsVar_of_isTokenOf h
  next => exact .unexpected source d

/-- The end of a value is accepted only where no `var()` call follows. -/
theorem expectExhausted : Reader.expectExhausted.Clears c fun _ => c.holdsVar = false := by
  unfold Clears
  cases hpeek : c.peek with
  | none =>
    rw [Reader.expectExhausted_of_peek_none hpeek]
    exact ⟨Cursor.holdsVar_of_peek_none hpeek, rfl⟩
  | some d =>
    rw [Reader.expectExhausted_of_peek hpeek]
    cases hd : d.containsVar with
    | true => exact fun _ => Cursor.holdsVar_of_containsVar hpeek hd
    | false => exact fun h => absurd h Bool.false_ne_true

/-- A reader that must use up the value finds out about every `var()` call in it. -/
theorem whole {r : Reader α} (h : r.Clears c P) :
    (do let a ← r; Reader.expectExhausted; return a : Reader α).Clears c fun a =>
      P a ∧ c.holdsVar = false := by
  refine h.bind fun a c' ha hc => ?_
  rw [← hc]
  exact expectExhausted.bind fun _ _ hend hc' => pure ⟨ha, hend⟩

/-- The loop, if every step sees the component it takes. -/
theorem foldWhile {step : α → Component → Except StepError (Option α)} {s : α} (hs : P s)
    (hstep : ∀ s d, P s → Grounded StepError.isVarCall d.containsVar
      (fun o => ∀ s', o = some s' → P s' ∧ d.containsVar = false) (step s d)) :
    (Reader.foldWhile step s).Clears c P := by
  induction c using Cursor.advance_induction generalizing s with
  | exhausted c hpeek =>
    rw [Clears, Reader.foldWhile_of_peek_none hpeek]
    exact ⟨hs, rfl⟩
  | next c d hpeek ih =>
    have hd := hstep s d hs
    rw [Clears, Reader.foldWhile_of_peek hpeek]
    cases hrun : step s d with
    | error e =>
      rw [hrun] at hd
      exact fun he => Cursor.holdsVar_of_containsVar hpeek (hd (by simpa using he))
    | ok o =>
      rw [hrun] at hd
      cases o with
      | none => exact ⟨hs, rfl⟩
      | some next =>
        obtain ⟨hnext, hvar⟩ := hd next rfl
        have hrest := ih hnext
        rw [Clears, Cursor.holdsVar_advance hpeek hvar] at hrest
        exact hrest

theorem foldAll {step : α → Component → Except StepError α} {s : α} (hs : P s)
    (hstep : ∀ s d, P s → Grounded StepError.isVarCall d.containsVar
      (fun s' => P s' ∧ d.containsVar = false) (step s d)) :
    (Reader.foldAll step s).Clears c P := by
  refine foldWhile hs fun s d hs => ?_
  have hd := hstep s d hs
  cases hrun : step s d with
  | error e =>
    rw [hrun] at hd
    exact hd
  | ok next =>
    rw [hrun] at hd
    exact fun s' hs' => Option.some_inj.mp hs' ▸ hd

end Reader.Clears

/-- Reading the inside of a group gives a value only if there is no `var()` call in it. -/
theorem Reader.grounded_inside {α : Type} {r : Reader α} {c : Cursor} {P : α → Prop}
    (h : r.Clears c P) :
    Grounded ReadError.isVarCall c.holdsVar (fun a => P a ∧ c.holdsVar = false) (r.inside c) := by
  have hwhole := h.whole
  unfold Clears at hwhole
  rw [inside, EStateM.run]
  split
  next hrun =>
    rw [hrun] at hwhole
    exact hwhole.1
  next hrun =>
    rw [hrun] at hwhole
    exact hwhole

/-- A group that is no `var()` call is seen as a whole when its inside is read. -/
theorem Reader.grounded_children {α : Type} {r : Reader α} {P : α → Prop} {d : Component}
    (hr : ∀ c, r.Clears c P) (hd : d.isVar = false) (source : Source) (stop : Nat) :
    Grounded ReadError.isVarCall d.containsVar (fun _ => d.containsVar = false)
      (r.inside (.ofComponents source d.children stop)) := by
  have hholds : (Cursor.ofComponents source d.children stop).holdsVar = d.containsVar :=
    (Component.containsVar_eq_children hd).symm
  have hinside := grounded_inside (hr (.ofComponents source d.children stop))
  rw [hholds] at hinside
  exact hinside.imp fun _ h => h.2

end Styling
