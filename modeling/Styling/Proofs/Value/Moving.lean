import Mathlib.Data.List.Forall2
import Styling.Proofs.Syntax.Shifting
import Styling.Proofs.Value.Agreement

/-!
# Reading a value that was moved

A value means the same wherever its text stands.  A reader sees of a source only the text of
components, of runs of them, and locations, and the locations end up in refusals alone.  So a reader
at a value inside a larger text has the result that it has at the same value standing alone, up to
these locations.

* `ReadError.unplaced` is an error without its location, and `Alike` compares two results up to the
  locations of their errors.
* `Leaf.Moves` is the property of a reader of one component.
* `Cursor.Shown` says that a cursor stands in a larger text where another one stands in its own
  text.
* `Reader.Moves` is the property of a reader; `Reader.Moves.bind`, `Reader.MovesTo.leaf`,
  `Reader.MovesTo.attempt`, `Reader.MovesTo.foldWhile` and `Reader.alike_inside` are the ways of
  putting readers together.
-/

namespace Styling

/-- The refusal without its location. -/
def Refusal.unplaced : Refusal → Refusal
  | invalid reason _ => invalid reason .first
  | unsupported reason _ => unsupported reason .first
  | varCall _ => varCall .first

/-- The error without its location. -/
def ReadError.unplaced : ReadError → ReadError
  | refused refusal => refused refusal.unplaced
  | fault f => fault f

/-- The error of a step without its location. -/
def StepError.unplaced : StepError → StepError
  | here e => here e.unplaced
  | following reason => following reason

/-- The location of an error does not make it a verdict. -/
theorem ReadError.isOrdinary_eq {e e' : ReadError} (h : e.unplaced = e'.unplaced) :
    e.isOrdinary = e'.isOrdinary := by
  have hplace : ∀ e : ReadError, e.unplaced.isOrdinary = e.isOrdinary := by
    rintro ((⟨reason, l⟩ | ⟨reason, l⟩ | l) | f) <;> rfl
  rw [← hplace e, h, hplace e']

/-- Where a step is refused makes no difference without locations. -/
theorem StepError.unplaced_resolve {e e' : StepError} (h : e.unplaced = e'.unplaced)
    (l l' : Location) : (e.resolve l).unplaced = (e'.resolve l').unplaced := by
  cases e with
  | here e =>
    cases e' with
    | here e' => exact StepError.here.inj h
    | following reason => exact absurd h (by simp [unplaced])
  | following reason =>
    cases e' with
    | here e' => exact absurd h (by simp [unplaced])
    | following reason' =>
      obtain rfl := StepError.following.inj h
      rfl

/-! ## Results -/

/-- The results are the same value, or errors that are the same up to what `unplaced` leaves out. -/
inductive Alike {ε α : Type} (unplaced : ε → ε) : Except ε α → Except ε α → Prop
  | ok (a : α) : Alike unplaced (.ok a) (.ok a)
  | error {e e' : ε} (h : unplaced e = unplaced e') : Alike unplaced (.error e) (.error e')

namespace Alike

variable {ε ε' α β γ : Type} {unplaced : ε → ε} {unplaced' : ε' → ε'}

theorem refl (x : Except ε α) : Alike unplaced x x := by
  cases x with
  | ok a => exact .ok a
  | error e => exact .error rfl

/-- What is like a value is that value. -/
theorem eq_ok {a : α} {y : Except ε α} (h : Alike unplaced (.ok a) y) : y = .ok a := by
  cases h with
  | ok a => rfl

theorem symm {x y : Except ε α} (h : Alike unplaced x y) : Alike unplaced y x := by
  cases h with
  | ok a => exact .ok a
  | error h => exact .error h.symm

theorem trans {x y z : Except ε α} (hxy : Alike unplaced x y) (hyz : Alike unplaced y z) :
    Alike unplaced x z := by
  cases hxy with
  | ok a => exact hyz
  | error h =>
    cases hyz with
    | error h' => exact .error (h.trans h')

theorem bind {x y : Except ε α} {f g : α → Except ε β} (hxy : Alike unplaced x y)
    (hfg : ∀ a, Alike unplaced (f a) (g a)) : Alike unplaced (x >>= f) (y >>= g) := by
  cases hxy with
  | ok a => exact hfg a
  | error h => exact .error h

/-- What is made of the same value. -/
theorem map {x y : Except ε α} (h : Alike unplaced x y) (f : α → β) :
    Alike unplaced (x.map f) (y.map f) := by
  cases h with
  | ok a => exact .ok (f a)
  | error h => exact .error h

/-- Results of a list, one after the other. -/
theorem mapM {f : γ → Except ε α} {g : β → Except ε α} {cs : List γ} {ds : List β}
    (h : List.Forall₂ (fun c d => Alike unplaced (f c) (g d)) cs ds) :
    Alike unplaced (cs.mapM f) (ds.mapM g) := by
  induction h with
  | nil => exact .ok []
  | cons hhead htail ih =>
    rw [List.mapM_cons, List.mapM_cons]
    exact hhead.bind fun _ => ih.bind fun _ => .ok _

theorem ofLeaf {x y : Except ReadError α} (h : Alike ReadError.unplaced x y) :
    Alike StepError.unplaced (StepError.ofLeaf x) (StepError.ofLeaf y) := by
  cases h with
  | ok a => exact .ok a
  | error h => exact .error (congrArg StepError.here h)

/-- Both results step back from their refusals. -/
theorem attempted {x y : Except ReadError α} (h : Alike ReadError.unplaced x y) :
    Alike ReadError.unplaced (Reader.attempted x) (Reader.attempted y) := by
  have hback : ∀ e : ReadError, Reader.attempted (.error e : Except ReadError α) =
      if e.isOrdinary = true then .ok none else .error e := by
    rintro ((⟨reason, l⟩ | ⟨reason, l⟩ | l) | f) <;> rfl
  cases h with
  | ok a => exact .ok (some a)
  | error h =>
    rw [hback, hback, ReadError.isOrdinary_eq h]
    split
    · exact .ok none
    · exact .error h

end Alike

/-! ## Readers of one component -/

namespace Leaf

variable {α β : Type} {S T : Source} {k : Nat} {c d : Component}

/-- The leaf reads a component alike wherever its text stands. -/
def Moves (f : Leaf α) : Prop :=
  ∀ (S T : Source) (k : Nat), S.Shows T k → ∀ c : Component, c.Within T.length →
    Alike ReadError.unplaced (f S (c.shift k)) (f T c)

/-- The refusals of components with the same text. -/
theorem alike_unexpected (h : S.textOf c = T.textOf d) :
    Alike ReadError.unplaced (unexpected S c : Except ReadError α) (unexpected T d) := by
  rw [unexpected, unexpected, h]
  exact .error rfl

theorem alike_unsupported (h : S.textOf c = T.textOf d) :
    Alike ReadError.unplaced (unsupported S c : Except ReadError α) (unsupported T d) := by
  rw [unsupported, unsupported, h]
  exact .error rfl

theorem alike_refuse (reason : Reason) :
    Alike ReadError.unplaced (refuse reason S c : Except ReadError α) (refuse reason T d) :=
  .error rfl

/-- A leaf that refuses every group only has to read tokens alike. -/
theorem Moves.of_tokens {f : Leaf α}
    (htoken : ∀ (S T : Source) (kind : TokenKind) (span span' : Span),
      S.textOf (.token ⟨kind, span⟩) = T.textOf (.token ⟨kind, span'⟩) →
      Alike ReadError.unplaced (f S (.token ⟨kind, span⟩)) (f T (.token ⟨kind, span'⟩)))
    (hgroup : ∀ (S : Source) (opener : Opener) (opened : Span) (cs : List Component)
      (ending : Ending), f S (.group opener opened cs ending) =
        unexpected S (.group opener opened cs ending)) : f.Moves := by
  intro S T k hS c hc
  have htext := hS.textOf_shift hc
  cases c with
  | token t =>
    rw [Component.shift_token] at htext ⊢
    exact htoken S T t.kind (t.span.shift k) t.span htext
  | group opener opened cs ending =>
    rw [Component.shift_group] at htext ⊢
    rw [hgroup, hgroup]
    exact alike_unexpected htext

theorem moves_noVar : Leaf.Moves noVar := by
  intro S T k _ c _
  rw [noVar, noVar, Component.isVar_shift]
  split
  · exact .error rfl
  · exact .ok ()

theorem moves_noNestedVar : Leaf.Moves noNestedVar := by
  intro S T k _ c _
  rw [noNestedVar, noNestedVar, Component.containsVar_shift]
  split
  · exact .error rfl
  · exact .ok ()

/-- Two readings of a component one after the other. -/
theorem Moves.bind {f : Leaf α} {g : α → Leaf β} (hf : f.Moves) (hg : ∀ a, (g a).Moves) :
    Leaf.Moves fun source c => (do g (← f source c) source c) :=
  fun S T k hS c hc => (hf S T k hS c hc).bind fun a => hg a S T k hS c hc

theorem moves_pure (a : α) : Leaf.Moves fun _ _ => .ok a :=
  fun _ _ _ _ _ _ => .ok a

theorem moves_unexpected : Leaf.Moves (unexpected (α := α)) :=
  fun _ _ _ hS _ hc => alike_unexpected (hS.textOf_shift hc)

theorem moves_refuse (reason : Reason) : Leaf.Moves (refuse (α := α) reason) :=
  fun _ _ _ _ _ _ => alike_refuse reason

/-- A choice that does not depend on the component. -/
theorem Moves.ite {p : Prop} [Decidable p] {f g : Leaf α} (hf : f.Moves) (hg : g.Moves) :
    Leaf.Moves fun source c => if p then f source c else g source c := by
  by_cases hp : p
  · simpa only [if_pos hp] using hf
  · simpa only [if_neg hp] using hg

theorem moves_identLeaf : Leaf.Moves Reader.identLeaf := by
  refine .of_tokens (fun S T kind span span' h => ?_) fun _ _ _ _ _ => rfl
  cases kind with
  | ident name => exact .ok name
  | _ => exact alike_unexpected h

theorem moves_keywordLeaf (words : List String) : Leaf.Moves (Reader.keywordLeaf words) :=
  moves_identLeaf.bind fun _ => .ite (moves_pure _) moves_unexpected

theorem moves_percentageLeaf : Leaf.Moves Reader.percentageLeaf := by
  refine .of_tokens (fun S T kind span span' h => ?_) fun _ _ _ _ _ => rfl
  cases kind with
  | percentage n => exact .refl _
  | _ => exact alike_unexpected h

theorem moves_numberLeaf : Leaf.Moves Reader.numberLeaf := by
  refine .of_tokens (fun S T kind span span' h => ?_) fun _ _ _ _ _ => rfl
  cases kind with
  | number n => exact .refl _
  | _ => exact alike_unexpected h

end Leaf

/-! ## Where two cursors stand -/

namespace Cursor

/-- The cursor `c` stands in the source `S` where `d` stands in the text `T`, which `S` shows from
offset `k` on. -/
structure Shown (S T : Source) (k : Nat) (c d : Cursor) : Prop where
  source : c.source = S
  source' : d.source = T
  shows : S.Shows T k
  components : c.components = d.components.map (Component.shift k)
  index : c.index = d.index
  within : ∀ x ∈ d.components, x.Within T.length

namespace Shown

variable {S T : Source} {k : Nat} {c d : Cursor}

/-- Cursors at the start of the components of a text. -/
theorem ofComponents (h : S.Shows T k) {cs : List Component} (hcs : ∀ x ∈ cs, x.Within T.length)
    (stop stop' : Nat) :
    Shown S T k (.ofComponents S (cs.map (Component.shift k)) stop) (.ofComponents T cs stop') :=
  ⟨rfl, rfl, h, rfl, rfl, hcs⟩

theorem rest (h : Shown S T k c d) : c.rest = d.rest.map (Component.shift k) := by
  rw [Cursor.rest, Cursor.rest, h.components, h.index, List.map_drop]

theorem within_rest (h : Shown S T k c d) : ∀ x ∈ d.rest, x.Within T.length :=
  fun x hx => h.within x (List.mem_of_mem_drop hx)

/-- The same component comes next. -/
theorem peek (h : Shown S T k c d) : c.peek = d.peek.map (Component.shift k) := by
  rw [Cursor.peek, Cursor.peek, h.rest, Component.dropWhile_map_shift, List.head?_map]

theorem peek_none (h : Shown S T k c d) (hd : d.peek = none) : c.peek = none := by
  rw [h.peek, hd]
  rfl

theorem peek_some (h : Shown S T k c d) {x : Component} (hd : d.peek = some x) :
    c.peek = some (x.shift k) ∧ x.Within T.length := by
  refine ⟨by rw [h.peek, hd]; rfl, h.within_rest x ?_⟩
  exact (List.dropWhile_sublist _).subset (List.mem_of_mem_head? (Option.mem_def.mpr hd))

theorem isExhausted (h : Shown S T k c d) : c.isExhausted = d.isExhausted := by
  rw [Cursor.isExhausted, Cursor.isExhausted, h.peek, Option.isNone_map]

theorem advance (h : Shown S T k c d) : Shown S T k c.advance d.advance := by
  refine ⟨h.source, h.source', h.shows, h.components, ?_, h.within⟩
  have hblanks : c.blanks = d.blanks := by
    rw [blanks, blanks, h.rest, List.takeWhile_map, List.length_map]
    congr 2
    funext x
    exact Component.isWhitespace_shift k x
  simp only [Cursor.advance, moveTo, h.index, hblanks]

theorem toEnd (h : Shown S T k c d) : Shown S T k c.toEnd d.toEnd := by
  refine ⟨h.source, h.source', h.shows, h.components, ?_, h.within⟩
  simp only [Cursor.toEnd, moveTo, h.index, h.components, List.length_map]

/-- The same text stands between a component and the cursor. -/
theorem sliceFrom (h : Shown S T k c d) (index : Nat) : c.sliceFrom index = d.sliceFrom index := by
  rw [Cursor.sliceFrom, Cursor.sliceFrom, h.index]
  split
  · rfl
  · rw [h.components, List.getElem?_map, List.getElem?_map, h.source, h.source']
    cases d.components[index]? with
    | none => rfl
    | some first =>
      cases hlast : d.components[d.index - 1]? with
      | none => rfl
      | some last =>
        have hwithin := h.within last (List.mem_of_getElem? hlast)
        simp only [Option.map_some, Component.start_shift, Component.stop_shift]
        exact h.shows _ _ hwithin.stop_le

/-- What remains is the same text if both values end at the same place. -/
theorem remaining (h : Shown S T k c d) (hstop : c.stop = d.stop + k) (hle : d.stop ≤ T.length) :
    c.remaining = d.remaining := by
  rw [Cursor.remaining, Cursor.remaining, h.rest]
  cases d.rest with
  | nil => rfl
  | cons first rest =>
    simp only [List.map_cons, Component.start_shift, hstop, h.source, h.source',
      h.shows _ _ hle]

/-- Components that were moved are split at the same commas. -/
theorem splitAtCommas_shift (h : S.Shows T k) (stop stop' : Nat) {cs : List Component}
    (hcs : ∀ x ∈ cs, x.Within T.length) :
    List.Forall₂ (Shown S T k)
      ((splitAtCommas stop (cs.map (Component.shift k))).map fun part =>
        .ofComponents S part.1 part.2)
      ((splitAtCommas stop' cs).map fun part => .ofComponents T part.1 part.2) := by
  induction cs with
  | nil => exact .cons (ofComponents h (fun _ hx => absurd hx List.not_mem_nil) _ _) .nil
  | cons x cs ih =>
    have hrest := ih fun y hy => hcs y (List.mem_cons_of_mem x hy)
    cases hx : x.isComma with
    | true =>
      rw [List.map_cons, splitAtCommas, splitAtCommas, Component.isComma_shift, if_pos hx,
        if_pos hx]
      exact .cons (ofComponents h (fun _ hy => absurd hy List.not_mem_nil) _ _) hrest
    | false =>
      have hx' : (x.shift k).isComma = false := by rw [Component.isComma_shift, hx]
      obtain ⟨p, ps, hp, hsplit⟩ :=
        exists_splitAtCommas_cons hx' stop (cs.map (Component.shift k))
      obtain ⟨q, qs, hq, hsplit'⟩ := exists_splitAtCommas_cons hx stop' cs
      rw [hp, hq] at hrest
      obtain ⟨hfirst, hmore⟩ := List.forall₂_cons.mp hrest
      rw [List.map_cons, hsplit, hsplit']
      refine .cons ⟨rfl, rfl, h, ?_, rfl, ?_⟩ hmore
      · exact congrArg (x.shift k :: ·) hfirst.components
      · exact List.forall_mem_cons.mpr ⟨hcs x List.mem_cons_self, hfirst.within⟩

/-- The parts between commas are moved. -/
theorem commaParts (h : Shown S T k c d) :
    List.Forall₂ (Shown S T k) c.commaParts d.commaParts := by
  have hboth := splitAtCommas_shift h.shows c.stop d.stop h.within_rest
  rw [← h.rest] at hboth
  unfold Cursor.commaParts
  rw [h.source, h.source']
  exact hboth

/-- Cursors over the inside of a group that was moved. -/
theorem nested (h : Shown S T k c d) {x : Component} (hx : x.Within T.length) :
    Shown S T k (c.nested (x.shift k)) (d.nested x) := by
  rw [Cursor.nested, Cursor.nested, h.source, h.source', Component.children_shift]
  exact ofComponents h.shows (fun y hy => hx.of_mem_children hy) _ _

end Shown

end Cursor

/-! ## Readers -/

namespace Reader

variable {S T : Source} {k : Nat} {α β σ : Type} {R : α → α → Prop} {Q : β → β → Prop}

/-- The results are values in relation, with cursors that still stand at the same place, or errors
that are the same up to their locations. -/
inductive Alike (S T : Source) (k : Nat) (R : α → α → Prop) :
    EStateM.Result ReadError Cursor α → EStateM.Result ReadError Cursor α → Prop
  | ok {a b : α} {c d : Cursor} (value : R a b) (cursor : c.Shown S T k d) :
    Alike S T k R (.ok a c) (.ok b d)
  | error {e e' : ReadError} (c d : Cursor) (h : e.unplaced = e'.unplaced) :
    Alike S T k R (.error e c) (.error e' d)

/-- The readers have results in relation wherever two cursors stand at the same place. -/
def MovesTo (S T : Source) (k : Nat) (R : α → α → Prop) (r s : Reader α) : Prop :=
  ∀ c d, c.Shown S T k d → Alike S T k R (r c) (s d)

/-- The reader has the same result wherever the text of a value stands. -/
abbrev Moves (S T : Source) (k : Nat) (r s : Reader α) : Prop := MovesTo S T k Eq r s

namespace MovesTo

theorem bind {r s : Reader α} {f g : α → Reader β} (hrs : MovesTo S T k R r s)
    (hfg : ∀ a b, R a b → MovesTo S T k Q (f a) (g b)) : MovesTo S T k Q (r >>= f) (s >>= g) := by
  intro c d hcd
  have h := hrs c d hcd
  rw [bind_apply, bind_apply]
  generalize r c = x at h
  generalize s d = y at h
  cases h with
  | ok value cursor => exact hfg _ _ value _ _ cursor
  | error c' d' h => exact .error c' d' h

theorem pure {a b : α} (h : R a b) : MovesTo S T k R (Pure.pure a) (Pure.pure b) :=
  fun _ _ hcd => .ok h hcd

end MovesTo

/-- What comes after the same value. -/
theorem Moves.bind {r s : Reader α} {f g : α → Reader β} (hrs : Moves S T k r s)
    (hfg : ∀ a, MovesTo S T k Q (f a) (g a)) : MovesTo S T k Q (r >>= f) (s >>= g) :=
  MovesTo.bind hrs fun a _ hab => hab ▸ hfg a

namespace MovesTo

theorem refuse (reason : Reason) :
    MovesTo S T k R (Reader.refuse reason) (Reader.refuse reason) :=
  fun c d _ => .error c d rfl

theorem throw (e : ReadError) : MovesTo S T k R (MonadExcept.throw e) (MonadExcept.throw e) :=
  fun c d _ => .error c d rfl

/-- Each reader knows its source. -/
theorem source {f g : Source → Reader α} (h : MovesTo S T k R (f S) (g T)) :
    MovesTo S T k R (Reader.source >>= f) (Reader.source >>= g) := by
  intro c d hcd
  rw [bind_apply, bind_apply, source_apply, source_apply, hcd.source, hcd.source']
  exact h c d hcd

/-- A question that has the same answer at both cursors. -/
theorem ask {f : Cursor → α} (h : ∀ c d, c.Shown S T k d → f c = f d) :
    Moves S T k (Reader.ask f) (Reader.ask f) :=
  fun c d hcd => .ok (h c d hcd) hcd

/-- Computations that move no cursor. -/
theorem ofExcept {x y : Except ReadError α} (h : Styling.Alike ReadError.unplaced x y) :
    Moves S T k (Reader.ofExcept x) (Reader.ofExcept y) := by
  intro c d hcd
  cases h with
  | ok a => exact .ok rfl hcd
  | error h => exact .error c d h

/-- A look at the next component. -/
theorem peek {f g : Option Component → Reader α} (hnone : MovesTo S T k R (f none) (g none))
    (hsome : ∀ c d x, c.Shown S T k d → d.peek = some x → x.Within T.length →
      Alike S T k R (f (some (x.shift k)) c) (g (some x) d)) :
    MovesTo S T k R (Reader.ask Cursor.peek >>= f) (Reader.ask Cursor.peek >>= g) := by
  intro c d hcd
  rw [bind_apply, bind_apply, ask_apply, ask_apply]
  cases hd : d.peek with
  | none =>
    rw [hcd.peek_none hd]
    exact hnone c d hcd
  | some x =>
    obtain ⟨hc, hx⟩ := hcd.peek_some hd
    rw [hc]
    exact hsome c d x hcd hd hx

/-- Taking the next component, which is not looked at again. -/
theorem next {f g : Reader α} (h : MovesTo S T k R f g) :
    MovesTo S T k R (do let _ ← Reader.next; f) (do let _ ← Reader.next; g) := by
  intro c d hcd
  rw [bind_apply, bind_apply]
  cases hd : d.peek with
  | none =>
    rw [next_of_peek_none hd, next_of_peek_none (hcd.peek_none hd)]
    exact .error _ _ rfl
  | some x =>
    obtain ⟨hc, -⟩ := hcd.peek_some hd
    cases hx : x.isVar with
    | true =>
      rw [next_of_peek_isVar hd hx, next_of_peek_isVar hc (by rw [Component.isVar_shift, hx])]
      exact .error _ _ rfl
    | false =>
      rw [next_of_peek hd hx, next_of_peek hc (by rw [Component.isVar_shift, hx])]
      exact h _ _ hcd.advance

theorem leaf {f : Leaf α} (hf : f.Moves) : Moves S T k (Reader.leaf f) (Reader.leaf f) := by
  intro c d hcd
  cases hd : d.peek with
  | none =>
    rw [leaf_of_peek_none hd, leaf_of_peek_none (hcd.peek_none hd)]
    exact .error _ _ rfl
  | some x =>
    obtain ⟨hc, hwithin⟩ := hcd.peek_some hd
    cases hx : x.isVar with
    | true =>
      rw [leaf_of_peek_isVar hd hx, leaf_of_peek_isVar hc (by rw [Component.isVar_shift, hx])]
      exact .error _ _ rfl
    | false =>
      rw [leaf_of_peek hd hx, leaf_of_peek hc (by rw [Component.isVar_shift, hx]), hcd.source,
        hcd.source']
      exact ofExcept (hf S T k hcd.shows x hwithin) _ _ hcd.advance

/-- Stepping back from a refusal. -/
theorem attempt {r s : Reader α} (h : Moves S T k r s) :
    Moves S T k (Reader.attempt r) (Reader.attempt s) := by
  intro c d hcd
  have hrs := h c d hcd
  generalize hr : r c = x at hrs
  generalize hs : s d = y at hrs
  cases hrs with
  | ok value cursor =>
    rw [attempt_of_ok hr, attempt_of_ok hs]
    exact .ok (congrArg some value) cursor
  | error c' d' h =>
    rw [attempt_of_error hr, attempt_of_error hs, ReadError.isOrdinary_eq h]
    split
    · exact .ok rfl hcd
    · exact .error c' d' h

theorem keyword (words : List String) :
    Moves S T k (Reader.keyword words) (Reader.keyword words) :=
  leaf (Leaf.moves_keywordLeaf words)

theorem tryKeyword (words : List String) :
    Moves S T k (Reader.tryKeyword words) (Reader.tryKeyword words) :=
  attempt (keyword words)

theorem expectComma : Moves S T k Reader.expectComma Reader.expectComma := by
  refine leaf fun S T k hS c hc => ?_
  rw [Component.isComma_shift]
  split
  · exact .ok ()
  · exact Leaf.moves_unexpected S T k hS c hc

theorem expectExhausted : Moves S T k Reader.expectExhausted Reader.expectExhausted := by
  intro c d hcd
  cases hd : d.peek with
  | none =>
    rw [expectExhausted_of_peek_none hd, expectExhausted_of_peek_none (hcd.peek_none hd)]
    exact .ok rfl hcd
  | some x =>
    obtain ⟨hc, hwithin⟩ := hcd.peek_some hd
    rw [expectExhausted_of_peek hd, expectExhausted_of_peek hc, Component.containsVar_shift]
    split
    · exact .error _ _ rfl
    · refine .error _ _ ?_
      rw [hcd.source, hcd.source', hcd.shows.textOf_shift hwithin]
      rfl

theorem tryComma : Moves S T k Reader.tryComma Reader.tryComma := by
  intro c d hcd
  cases hd : d.peek with
  | none =>
    rw [tryComma_of_peek_none hd, tryComma_of_peek_none (hcd.peek_none hd)]
    exact .ok rfl hcd
  | some x =>
    rw [tryComma_of_peek hd, tryComma_of_peek (hcd.peek_some hd).1, Component.isComma_shift]
    split
    · exact .ok rfl hcd.advance
    · exact .ok rfl hcd

theorem isKeywordExhausted (word : String) :
    Moves S T k (Reader.isKeywordExhausted word) (Reader.isKeywordExhausted word) := by
  intro c d hcd
  cases hd : d.peek with
  | none =>
    rw [isKeywordExhausted_of_peek_none hd, isKeywordExhausted_of_peek_none (hcd.peek_none hd)]
    exact .ok rfl hcd
  | some x =>
    rw [isKeywordExhausted_of_peek hd, isKeywordExhausted_of_peek (hcd.peek_some hd).1,
      Component.isKeyword_shift, hcd.advance.isExhausted]
    split
    · exact .ok rfl hcd.advance
    · exact .ok rfl hcd

/-- The loop, if its step reads a component alike wherever it stands. -/
theorem foldWhile {step step' : σ → Component → Except StepError (Option σ)}
    (hstep : ∀ s x, x.Within T.length →
      Styling.Alike StepError.unplaced (step s (x.shift k)) (step' s x)) (s : σ) :
    Moves S T k (Reader.foldWhile step s) (Reader.foldWhile step' s) := by
  intro c d hcd
  induction d using Cursor.advance_induction generalizing c s with
  | exhausted d hd =>
    rw [foldWhile_of_peek_none hd, foldWhile_of_peek_none (hcd.peek_none hd)]
    exact .ok rfl hcd
  | next d x hd ih =>
    obtain ⟨hc, hwithin⟩ := hcd.peek_some hd
    have halike := hstep s x hwithin
    rw [foldWhile_of_peek hd, foldWhile_of_peek hc]
    generalize step s (x.shift k) = y at halike
    generalize step' s x = z at halike
    cases halike with
    | error h => exact .error _ _ (StepError.unplaced_resolve h _ _)
    | ok o =>
      cases o with
      | none => exact .ok rfl hcd
      | some next => exact ih next c.advance hcd.advance

/-- The loop that takes every component. -/
theorem foldAll {step step' : σ → Component → Except StepError σ}
    (hstep : ∀ s x, x.Within T.length →
      Styling.Alike StepError.unplaced (step s (x.shift k)) (step' s x)) (s : σ) :
    Moves S T k (Reader.foldAll step s) (Reader.foldAll step' s) :=
  foldWhile (fun s x hx => (hstep s x hx).map some) s

/-- Reading a value to its end. -/
theorem whole {r s : Reader α} (h : MovesTo S T k R r s) :
    MovesTo S T k R (do let a ← r; Reader.expectExhausted; return a : Reader α)
      (do let a ← s; Reader.expectExhausted; return a : Reader α) :=
  h.bind fun _ _ hab => Moves.bind expectExhausted fun _ => .pure hab

end MovesTo

/-- Reading the inside of a group. -/
theorem alike_inside {r s : Reader α} (h : Moves S T k r s) {c d : Cursor}
    (hcd : c.Shown S T k d) : Styling.Alike ReadError.unplaced (r.inside c) (s.inside d) := by
  have hwhole := MovesTo.whole h c d hcd
  rw [inside, inside, EStateM.run, EStateM.run]
  generalize (do let a ← r; Reader.expectExhausted; return a : Reader α) c = x at hwhole
  generalize (do let a ← s; Reader.expectExhausted; return a : Reader α) d = y at hwhole
  cases hwhole with
  | ok value cursor =>
    rw [value]
    exact .ok _
  | error c' d' h => exact .error h

end Reader

end Styling
