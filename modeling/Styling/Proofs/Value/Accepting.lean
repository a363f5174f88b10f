import Mathlib.Data.List.Forall2
import Styling.Proofs.Color.Brackets
import Styling.Proofs.Syntax.Numbers
import Styling.Proofs.Value.Running

/-!
# What reading tells about what was taken

A reader that gives a value took components which it recognized: tokens other than closing brackets,
colors, and groups whose inside was recognized in turn.  So no grammar takes a closing bracket that
closes nothing, at any depth.  Along with that a property of the value that was given is carried,
such as a number not being negative.

* `Component.Recognized` is what a grammar takes, and `Component.hasStray_of_recognized` what it
  rules out.
* `Leaf.Accepts` and `Reader.Accepts` are the properties of readers; nothing is said about a reader
  that is refused.
* `Reader.Accepts.bind`, `Reader.Accepts.attempt`, `Reader.Accepts.leaf`, `Reader.Accepts.foldWhile`
  and `Reader.recognized_of_inside` are the ways of putting readers together.
-/

namespace Styling

/-! ## Components -/

/-- A component that a grammar may take: a token that is no closing bracket, a color, or a group
with such components inside. -/
inductive Component.Recognized (source : Source) : Component → Prop
  | token {t : Token} (kind : t.kind.isClosing = false) : Recognized source (.token t)
  | paint {c : Component} {p : Paint} (h : Grammar.paint source c = .ok p) : Recognized source c
  | group {opener : Opener} {opened : Span} {cs : List Component} {ending : Ending}
    (inside : ∀ c ∈ cs, Recognized source c) : Recognized source (.group opener opened cs ending)

namespace Component

variable {source : Source} {c : Component}

/-- A token of a kind that is no closing bracket. -/
theorem recognized_of_isTokenOf {p : TokenKind → Bool} (hp : ∀ b, p (.closing b) = false)
    (h : c.isTokenOf p = true) : c.Recognized source := by
  cases c with
  | group opener opened cs ending => exact absurd h Bool.false_ne_true
  | token t =>
    obtain ⟨kind, span⟩ := t
    cases kind with
    | closing b => exact absurd ((hp b).symm.trans h) Bool.false_ne_true
    | _ => exact .token rfl

theorem recognized_of_isWhitespace (h : c.isWhitespace = true) : c.Recognized source :=
  recognized_of_isTokenOf (fun _ => rfl) h

theorem recognized_of_isComma (h : c.isComma = true) : c.Recognized source :=
  recognized_of_isTokenOf (fun _ => rfl) h

theorem recognized_of_isKeyword {word : String} (h : c.isKeyword word = true) :
    c.Recognized source :=
  recognized_of_isTokenOf (fun _ => rfl) h

theorem listHasStray_eq_any (cs : List Component) : listHasStray cs = cs.any hasStray := by
  induction cs with
  | nil => rw [listHasStray, List.any_nil]
  | cons c cs ih => rw [listHasStray, List.any_cons, ih]

/-- **What a grammar takes has no stray closing bracket at any depth**, in a text that is read
without errors. -/
theorem hasStray_of_recognized (hnormal : ∀ c ∈ source.chars, Source.IsNormal c)
    (hsound : ∀ l ∈ source.lexemes, l.problem = none) (hc : source.Holds c)
    (h : c.Recognized source) : c.hasStray = false := by
  induction h with
  | @token t kind =>
    obtain ⟨tokenKind, span⟩ := t
    rw [hasStray]
    cases tokenKind with
    | closing b => exact absurd kind (by simp [TokenKind.isClosing])
    | _ => rfl
  | paint h => exact Grammar.hasStray_of_paint hnormal hsound hc h
  | group inside ih =>
    rw [hasStray, listHasStray_eq_any, List.any_eq_false]
    intro d hd
    rw [ih d hd (hc.of_mem_children hd)]
    exact Bool.false_ne_true

end Component

/-! ## Readers of one component -/

/-- A component for which the leaf gives a value is recognized, and the value satisfies `P`. -/
def Leaf.Accepts {α : Type} (f : Leaf α) (P : α → Prop) : Prop :=
  ∀ source c a, f source c = .ok a → c.Recognized source ∧ P a

/-- What a result is and what it is made from. -/
theorem exists_of_bind_eq_ok {ε α β : Type} {x : Except ε α} {f : α → Except ε β} {b : β}
    (h : x >>= f = .ok b) : ∃ a, x = .ok a ∧ f a = .ok b := by
  cases x with
  | ok a => exact ⟨a, rfl, h⟩
  | error e => exact absurd h (by simp [bind, Except.bind])

/-- The results of reading a list stand beside the entries that they were read from. -/
theorem forall₂_of_mapM_eq_ok {ε α β : Type} {f : α → Except ε β} {as : List α} {bs : List β}
    (h : as.mapM f = .ok bs) : List.Forall₂ (fun a b => f a = .ok b) as bs := by
  induction as generalizing bs with
  | nil =>
    obtain rfl := Except.ok.inj h
    exact .nil
  | cons a as ih =>
    rw [List.mapM_cons] at h
    obtain ⟨b, hb, h⟩ := exists_of_bind_eq_ok h
    obtain ⟨bs', hbs', h⟩ := exists_of_bind_eq_ok h
    obtain rfl := Except.ok.inj h
    exact .cons hb (ih hbs')

/-- If reading every entry gives values, reading each one does. -/
theorem exists_of_mapM_eq_ok {ε α β : Type} {f : α → Except ε β} {as : List α} {bs : List β}
    (h : as.mapM f = .ok bs) : ∀ a ∈ as, ∃ b, f a = .ok b := by
  intro a ha
  obtain ⟨i, hi, rfl⟩ := List.mem_iff_getElem.mp ha
  have hall := forall₂_of_mapM_eq_ok h
  exact ⟨_, hall.get hi (hall.length_eq ▸ hi)⟩

/-- Every value was read from an entry. -/
theorem exists_mem_of_mapM_eq_ok {ε α β : Type} {f : α → Except ε β} {as : List α} {bs : List β}
    (h : as.mapM f = .ok bs) : ∀ b ∈ bs, ∃ a ∈ as, f a = .ok b := by
  intro b hb
  obtain ⟨i, hi, rfl⟩ := List.mem_iff_getElem.mp hb
  have hall := forall₂_of_mapM_eq_ok h
  have hi' : i < as.length := hall.length_eq.symm ▸ hi
  exact ⟨as[i], List.getElem_mem hi', hall.get hi' hi⟩

/-- The first entry that cannot be read is what a failure comes from. -/
theorem exists_split_of_mapM_eq_error {ε α β : Type} {f : α → Except ε β} {as : List α} {e : ε}
    (h : as.mapM f = .error e) :
    ∃ before a after, as = before ++ a :: after ∧ (∀ b ∈ before, ∃ read, f b = .ok read) ∧
      f a = .error e := by
  induction as with
  | nil => exact absurd h (by simp [pure, Except.pure])
  | cons a as ih =>
    rw [List.mapM_cons] at h
    cases hread : f a with
    | error e' =>
      rw [hread] at h
      obtain rfl := Except.error.inj h
      exact ⟨[], a, as, rfl, fun b hb => absurd hb List.not_mem_nil, hread⟩
    | ok read =>
      rw [hread] at h
      cases hrest : as.mapM f with
      | ok reads =>
        rw [hrest] at h
        exact absurd h (by simp [bind, Except.bind, pure, Except.pure])
      | error e' =>
        rw [hrest] at h
        obtain rfl := Except.error.inj h
        obtain ⟨before, b, after, rfl, hbefore, hb⟩ := ih hrest
        exact ⟨a :: before, b, after, rfl, List.forall_mem_cons.mpr ⟨⟨read, hread⟩, hbefore⟩, hb⟩

theorem ok_of_ofFault {α : Type} {x : Except Fault α} {a : α}
    (h : ReadError.ofFault x = .ok a) : x = .ok a := by
  cases x with
  | ok b => exact congrArg _ (Except.ok.inj h)
  | error f => exact absurd h (by simp [ReadError.ofFault])

theorem ok_of_ofLeaf {α : Type} {x : Except ReadError α} {a : α}
    (h : StepError.ofLeaf x = .ok a) : x = .ok a := by
  cases x with
  | ok b => exact congrArg _ (Except.ok.inj h)
  | error e => exact absurd h (by simp [StepError.ofLeaf])

/-- A step back is taken only from a refusal. -/
theorem ok_of_attempted {α : Type} {x : Except ReadError α} {a : α}
    (h : Reader.attempted x = .ok (some a)) : x = .ok a := by
  rcases x with ((⟨reason, l⟩ | ⟨reason, l⟩ | l) | f) | b
  · exact absurd h (by simp [Reader.attempted])
  · exact absurd h (by simp [Reader.attempted])
  · exact absurd h (by simp [Reader.attempted])
  · exact absurd h (by simp [Reader.attempted])
  · exact congrArg _ (Option.some_inj.mp (Except.ok.inj h))

namespace Leaf.Accepts

variable {α β : Type} {f : Leaf α} {P : α → Prop}

/-- A leaf that refuses groups and closing brackets takes tokens only. -/
theorem of_tokens (hclosing : ∀ source b span, ∃ e, f source (.token ⟨.closing b, span⟩) = .error e)
    (hgroup : ∀ source opener opened cs ending,
      ∃ e, f source (.group opener opened cs ending) = .error e) : f.Accepts fun _ => True := by
  intro source c a h
  refine ⟨?_, trivial⟩
  cases c with
  | group opener opened cs ending =>
    obtain ⟨e, he⟩ := hgroup source opener opened cs ending
    exact absurd (he.symm.trans h) (by simp)
  | token t =>
    obtain ⟨kind, span⟩ := t
    cases kind with
    | closing b =>
      obtain ⟨e, he⟩ := hclosing source b span
      exact absurd (he.symm.trans h) (by simp)
    | _ => exact .token rfl

/-- What is recognized and what the value is like can be proved apart. -/
theorem and_of_forall (h : f.Accepts P) (hQ : ∀ source c a, f source c = .ok a → Q a) :
    f.Accepts Q :=
  fun source c a ha => ⟨(h source c a ha).1, hQ source c a ha⟩

end Leaf.Accepts

namespace Leaf

theorem accepts_keywordLeaf (words : List String) :
    (Reader.keywordLeaf words).Accepts fun _ => True :=
  .of_tokens (fun _ _ _ => ⟨_, rfl⟩) fun _ _ _ _ _ => ⟨_, rfl⟩

theorem accepts_percentageLeaf : Accepts Reader.percentageLeaf fun _ => True :=
  .of_tokens (fun _ _ _ => ⟨_, rfl⟩) fun _ _ _ _ _ => ⟨_, rfl⟩

theorem accepts_numberLeaf : Accepts Reader.numberLeaf fun _ => True :=
  .of_tokens (fun _ _ _ => ⟨_, rfl⟩) fun _ _ _ _ _ => ⟨_, rfl⟩

end Leaf

/-! ## Readers -/

namespace Cursor

/-- Everything after the cursor is recognized. -/
def Recognized (c : Cursor) : Prop :=
  ∀ d ∈ c.rest, d.Recognized c.source

theorem recognized_of_dropWhile {c : Cursor}
    (h : ∀ d ∈ c.rest.dropWhile Component.isWhitespace, d.Recognized c.source) : c.Recognized := by
  intro d hd
  rw [← List.takeWhile_append_dropWhile (p := Component.isWhitespace) (l := c.rest)] at hd
  rcases List.mem_append.mp hd with hd | hd
  · exact Component.recognized_of_isWhitespace (List.mem_takeWhile_imp hd)
  · exact h d hd

theorem recognized_of_peek_none {c : Cursor} (h : c.peek = none) : c.Recognized := by
  refine recognized_of_dropWhile fun d hd => ?_
  rw [rest_of_peek_none h] at hd
  exact absurd hd List.not_mem_nil

theorem recognized_of_peek {c : Cursor} {d : Component} (h : c.peek = some d)
    (hd : d.Recognized c.source) (hrest : c.advance.Recognized) : c.Recognized := by
  refine recognized_of_dropWhile fun x hx => ?_
  rw [rest_of_peek h] at hx
  rcases List.mem_cons.mp hx with rfl | hx
  · exact hd
  · exact hrest x hx

/-- All that is written after the cursor as a number is one. -/
def IsComparable (c : Cursor) : Prop :=
  ∀ d ∈ c.rest, d.IsComparable

theorem isComparable_ofText {text : String} {c : Cursor} (h : ofText text = .ok c) :
    c.IsComparable := by
  obtain ⟨parsed, hparsed, -, rfl⟩ := ofText_eq_ok.mp h
  exact Source.isComparable_of_components hparsed

theorem mem_rest_of_peek {c : Cursor} {d : Component} (h : c.peek = some d) : d ∈ c.rest :=
  (List.dropWhile_sublist _).mem (rest_of_peek h ▸ List.mem_cons_self)

theorem rest_advance_subset {c : Cursor} {d : Component} (h : c.peek = some d) :
    c.advance.rest ⊆ c.rest :=
  fun _ hx => (List.dropWhile_sublist _).mem (rest_of_peek h ▸ List.mem_cons_of_mem d hx)

/-- The second cursor stands behind the first, with recognized components between them. -/
structure Passes (c c' : Cursor) : Prop where
  source : c'.source = c.source
  rest : c'.rest ⊆ c.rest
  recognized : c'.Recognized → c.Recognized

namespace Passes

theorem refl (c : Cursor) : c.Passes c := ⟨rfl, List.Subset.refl _, id⟩

theorem trans {c c' c'' : Cursor} (h : c.Passes c') (h' : c'.Passes c'') : c.Passes c'' :=
  ⟨h'.source.trans h.source, List.Subset.trans h'.rest h.rest,
    fun hc => h.recognized (h'.recognized hc)⟩

theorem advance {c : Cursor} {d : Component} (h : c.peek = some d) (hd : d.Recognized c.source) :
    c.Passes c.advance :=
  ⟨rfl, rest_advance_subset h, recognized_of_peek h hd⟩

/-- What stands behind a cursor stands behind every cursor before it. -/
theorem isComparable {c c' : Cursor} (h : c.Passes c') (hc : c.IsComparable) : c'.IsComparable :=
  fun d hd => hc d (h.rest hd)

end Passes

end Cursor

/-- If the reader gives a value, the value satisfies `P` and everything taken is recognized. -/
def Reader.Accepts {α : Type} (r : Reader α) (c : Cursor) (P : α → Prop) : Prop :=
  ∀ a c', r c = .ok a c' → P a ∧ c.Passes c'

namespace Reader.Accepts

variable {α β : Type} {c : Cursor} {P P' : α → Prop} {Q : β → Prop}

theorem imp {r : Reader α} (h : r.Accepts c P) (hP : ∀ a, P a → P' a) : r.Accepts c P' :=
  fun a c' hrun => (h a c' hrun).imp (hP a) id

theorem pure {a : α} (h : P a) : (Pure.pure a : Reader α).Accepts c P := by
  intro b c' hrun
  obtain ⟨rfl, rfl⟩ := EStateM.Result.ok.inj hrun
  exact ⟨h, .refl c⟩

/-- A reader that gives no value. -/
theorem error {r : Reader α} {e : ReadError} {c' : Cursor} (h : r c = .error e c') :
    r.Accepts c P :=
  fun _ _ hrun => absurd (h.symm.trans hrun) (by simp)

/-- One reader after the other. -/
theorem bind {r : Reader α} {f : α → Reader β} (hr : r.Accepts c P)
    (hf : ∀ a c', P a → c.Passes c' → (f a).Accepts c' Q) : (r >>= f).Accepts c Q := by
  intro b c'' hrun
  rw [bind_apply] at hrun
  cases hr' : r c with
  | error e c' =>
    rw [hr'] at hrun
    exact absurd hrun (by simp)
  | ok a c' =>
    rw [hr'] at hrun
    obtain ⟨ha, hpass⟩ := hr a c' hr'
    obtain ⟨hb, hpass'⟩ := hf a c' ha hpass b c'' hrun
    exact ⟨hb, hpass.trans hpass'⟩

/-- A question about the cursor; the answer is known afterwards. -/
theorem ask {γ : Type} {f : Cursor → γ} {k : γ → Reader α} (h : (k (f c)).Accepts c P) :
    (Reader.ask f >>= k).Accepts c P :=
  h

theorem source {k : Source → Reader α} (h : (k c.source).Accepts c P) :
    (Reader.source >>= k).Accepts c P :=
  h

/-- The result of a computation that moves no cursor. -/
theorem ofExcept {x : Except ReadError α} (h : ∀ a, x = .ok a → P a) :
    (Reader.ofExcept x).Accepts c P := by
  cases x with
  | ok a => exact pure (h a rfl)
  | error e => exact error rfl

theorem refuse (reason : Reason) : (Reader.refuse reason : Reader α).Accepts c P :=
  error rfl

/-- Stepping back from a refusal leaves the cursor where it was. -/
theorem attempt {r : Reader α} (h : r.Accepts c P) :
    (Reader.attempt r).Accepts c (fun o => ∀ a, o = some a → P a) := by
  intro o c' hrun
  rw [Reader.attempt, EStateM.run] at hrun
  cases hr : r c with
  | ok a c'' =>
    rw [hr] at hrun
    obtain ⟨rfl, rfl⟩ := EStateM.Result.ok.inj hrun
    obtain ⟨ha, hpass⟩ := h a c'' hr
    exact ⟨fun b hb => Option.some_inj.mp hb ▸ ha, hpass⟩
  | error e c'' =>
    rw [hr] at hrun
    rcases e with (⟨reason, l⟩ | ⟨reason, l⟩ | l) | f
    · obtain ⟨rfl, rfl⟩ := EStateM.Result.ok.inj hrun
      exact ⟨fun b hb => absurd hb (by simp), .refl c⟩
    · obtain ⟨rfl, rfl⟩ := EStateM.Result.ok.inj hrun
      exact ⟨fun b hb => absurd hb (by simp), .refl c⟩
    · exact absurd hrun (by simp)
    · exact absurd hrun (by simp)

/-- Taking a component that is recognized. -/
theorem next_of_peek {d : Component} (h : c.peek = some d) (hd : d.Recognized c.source) :
    Reader.next.Accepts c fun a => a = d := by
  cases hvar : d.isVar with
  | true => exact error (Reader.next_of_peek_isVar h hvar)
  | false =>
    intro a c' hrun
    rw [Reader.next_of_peek h hvar] at hrun
    obtain ⟨rfl, rfl⟩ := EStateM.Result.ok.inj hrun
    exact ⟨rfl, .advance h hd⟩

/-- A leaf that accepts what stands after the cursor. -/
theorem leaf_of_forall {f : Leaf α}
    (hf : ∀ d ∈ c.rest, ∀ a, f c.source d = .ok a → d.Recognized c.source ∧ P a) :
    (Reader.leaf f).Accepts c P := by
  cases hpeek : c.peek with
  | none => exact error (Reader.leaf_of_peek_none hpeek)
  | some d =>
    cases hvar : d.isVar with
    | true => exact error (Reader.leaf_of_peek_isVar hpeek hvar)
    | false =>
      intro a c' hrun
      rw [Reader.leaf_of_peek hpeek hvar] at hrun
      cases hd : f c.source d with
      | error e =>
        rw [hd] at hrun
        exact absurd hrun (by simp)
      | ok b =>
        rw [hd] at hrun
        obtain ⟨rfl, rfl⟩ := EStateM.Result.ok.inj hrun
        obtain ⟨hrecognized, hb⟩ := hf d (Cursor.mem_rest_of_peek hpeek) b hd
        exact ⟨hb, .advance hpeek hrecognized⟩

theorem leaf {f : Leaf α} (hf : f.Accepts P) : (Reader.leaf f).Accepts c P :=
  leaf_of_forall fun d _ a h => hf c.source d a h

theorem keyword (words : List String) : (Reader.keyword words).Accepts c fun _ => True :=
  leaf (Leaf.accepts_keywordLeaf words)

theorem tryKeyword (words : List String) : (Reader.tryKeyword words).Accepts c fun _ => True :=
  (attempt (keyword words)).imp fun _ _ => trivial

/-- A lone keyword is all there is. -/
theorem isKeywordExhausted (word : String) :
    (Reader.isKeywordExhausted word).Accepts c fun lone => lone = true → c.Recognized := by
  intro lone c' hrun
  cases hpeek : c.peek with
  | none =>
    rw [Reader.isKeywordExhausted_of_peek_none hpeek] at hrun
    obtain ⟨rfl, rfl⟩ := EStateM.Result.ok.inj hrun
    exact ⟨fun h => absurd h Bool.false_ne_true, .refl c⟩
  | some d =>
    rw [Reader.isKeywordExhausted_of_peek hpeek] at hrun
    split at hrun
    next hlone =>
      obtain ⟨rfl, rfl⟩ := EStateM.Result.ok.inj hrun
      obtain ⟨hd, hend⟩ := Bool.and_eq_true_iff.mp hlone
      have hrecognized : d.Recognized c.source := Component.recognized_of_isKeyword hd
      refine ⟨fun _ => Cursor.recognized_of_peek hpeek hrecognized ?_, .advance hpeek hrecognized⟩
      exact Cursor.recognized_of_peek_none (Option.isNone_iff_eq_none.mp hend)
    next =>
      obtain ⟨rfl, rfl⟩ := EStateM.Result.ok.inj hrun
      exact ⟨fun h => absurd h Bool.false_ne_true, .refl c⟩

theorem tryComma : Reader.tryComma.Accepts c fun _ => True := by
  intro b c' hrun
  cases hpeek : c.peek with
  | none =>
    rw [Reader.tryComma_of_peek_none hpeek] at hrun
    obtain ⟨rfl, rfl⟩ := EStateM.Result.ok.inj hrun
    exact ⟨trivial, .refl c⟩
  | some d =>
    rw [Reader.tryComma_of_peek hpeek] at hrun
    split at hrun
    next hcomma =>
      obtain ⟨rfl, rfl⟩ := EStateM.Result.ok.inj hrun
      exact ⟨trivial, .advance hpeek (Component.recognized_of_isComma hcomma)⟩
    next =>
      obtain ⟨rfl, rfl⟩ := EStateM.Result.ok.inj hrun
      exact ⟨trivial, .refl c⟩

theorem expectComma : Reader.expectComma.Accepts c fun _ => True := by
  refine leaf fun source d a h => ?_
  split at h
  next hcomma => exact ⟨Component.recognized_of_isComma hcomma, trivial⟩
  next => exact absurd h (by simp [Leaf.unexpected])

/-- At the end of a value everything was taken. -/
theorem expectExhausted : Reader.expectExhausted.Accepts c fun _ => c.Recognized := by
  cases hpeek : c.peek with
  | none =>
    intro a c' hrun
    rw [Reader.expectExhausted_of_peek_none hpeek] at hrun
    obtain ⟨rfl, rfl⟩ := EStateM.Result.ok.inj hrun
    exact ⟨Cursor.recognized_of_peek_none hpeek, .refl c⟩
  | some d =>
    have hrun := Reader.expectExhausted_of_peek hpeek
    split at hrun
    next => exact error hrun
    next => exact error hrun

/-- A reader that uses up the value recognizes all of it. -/
theorem whole {r : Reader α} (h : r.Accepts c P) :
    (do let a ← r; Reader.expectExhausted; return a : Reader α).Accepts c fun a =>
      P a ∧ c.Recognized :=
  h.bind fun _ _ ha hpass => expectExhausted.bind fun _ _ hend _ => pure ⟨ha, hpass.recognized hend⟩

/-- The loop, if every step that goes on recognizes its component. -/
theorem foldWhile {step : α → Component → Except StepError (Option α)} {s : α} (hs : P s)
    (hstep : ∀ s, ∀ d ∈ c.rest, ∀ s', P s → step s d = .ok (some s') →
      d.Recognized c.source ∧ P s') : (Reader.foldWhile step s).Accepts c P := by
  induction c using Cursor.advance_induction generalizing s with
  | exhausted c hpeek =>
    intro a c' hrun
    rw [Reader.foldWhile_of_peek_none hpeek] at hrun
    obtain ⟨rfl, rfl⟩ := EStateM.Result.ok.inj hrun
    exact ⟨hs, .refl c⟩
  | next c d hpeek ih =>
    intro a c' hrun
    rw [Reader.foldWhile_of_peek hpeek] at hrun
    cases hd : step s d with
    | error e =>
      rw [hd] at hrun
      exact absurd hrun (by simp)
    | ok o =>
      rw [hd] at hrun
      cases o with
      | none =>
        obtain ⟨rfl, rfl⟩ := EStateM.Result.ok.inj hrun
        exact ⟨hs, .refl c⟩
      | some s' =>
        obtain ⟨hrecognized, hs'⟩ := hstep s d (Cursor.mem_rest_of_peek hpeek) s' hs hd
        obtain ⟨ha, hpass⟩ := ih hs'
          (fun s d hd => hstep s d (Cursor.rest_advance_subset hpeek hd)) a c' hrun
        exact ⟨ha, (Cursor.Passes.advance hpeek hrecognized).trans hpass⟩

theorem foldAll {step : α → Component → Except StepError α} {s : α} (hs : P s)
    (hstep : ∀ s, ∀ d ∈ c.rest, ∀ s', P s → step s d = .ok s' →
      d.Recognized c.source ∧ P s') : (Reader.foldAll step s).Accepts c P := by
  refine foldWhile hs fun s d hmem s' hs hd => ?_
  cases hrun : step s d with
  | error e =>
    rw [hrun] at hd
    exact absurd hd (by simp [Except.map])
  | ok next =>
    rw [hrun] at hd
    obtain rfl := Option.some_inj.mp (Except.ok.inj hd)
    exact hstep s d hmem next hs hrun

end Reader.Accepts

/-- The inside of a group that was read is recognized. -/
theorem Reader.recognized_of_inside {α : Type} {r : Reader α} {c : Cursor} {P : α → Prop}
    (h : r.Accepts c P) {a : α} (hrun : r.inside c = .ok a) : P a ∧ c.Recognized := by
  rw [inside, EStateM.run] at hrun
  split at hrun
  next c' hwhole =>
    obtain rfl := Except.ok.inj hrun
    exact (h.whole _ _ hwhole).1
  next => exact absurd hrun (by simp)

/-- A group is recognized once its inside was read. -/
theorem Reader.recognized_of_children {α : Type} {r : Reader α} {P : α → Prop} {source : Source}
    {d : Component} {stop : Nat} {a : α}
    (h : r.Accepts (.ofComponents source d.children stop) P)
    (hgroup : ∃ opener opened cs ending, d = .group opener opened cs ending)
    (hrun : r.inside (.ofComponents source d.children stop) = .ok a) :
    d.Recognized source ∧ P a := by
  obtain ⟨opener, opened, cs, ending, rfl⟩ := hgroup
  obtain ⟨ha, hinside⟩ := recognized_of_inside h hrun
  exact ⟨.group hinside, ha⟩

end Styling
