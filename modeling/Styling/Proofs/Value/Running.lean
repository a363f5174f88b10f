import Mathlib.Data.List.TakeWhile
import Styling.Value.Cursor

/-!
# How readers run

A reader is run at a cursor.  Here is what the basic readers do there, said in terms of the
component that comes next and of the cursor after it, so that nothing else has to know how a cursor
counts.

* `Cursor.advance` is the cursor after the next component that is no whitespace.
* `Reader.bind_apply`, `Reader.leaf_of_peek`, `Reader.isKeywordExhausted_of_peek` are the equations
  of the basic readers.
* `Reader.foldWhile_of_peek` is the equation of the loop, and `Cursor.advance_induction` the
  induction that goes with it.
-/

namespace Styling

/-- What is observed of a result that is a value. -/
theorem eq_ok_of_toOption {ε α : Type} {x : Except ε α} {a : α} (h : x.toOption = some a) :
    x = .ok a := by
  cases x with
  | error e => exact absurd h (by simp [Except.toOption])
  | ok b => exact congrArg Except.ok (Option.some_inj.mp h)

/-- What is observed of the value of a result, if it is a value. -/
theorem exists_ok_of_observed {ε α β : Type} {x : Except ε α} {observe : α → β} {b : β}
    (h : x.toOption.map observe = some b) : ∃ a, x = .ok a ∧ observe a = b := by
  obtain ⟨a, ha, hb⟩ := Option.map_eq_some_iff.mp h
  exact ⟨a, eq_ok_of_toOption ha, hb⟩

namespace Cursor

/-- What follows the cursor some components further on. -/
theorem rest_moveTo_add (c : Cursor) (n : Nat) :
    (c.moveTo (c.index + n)).rest = c.rest.drop n := by
  rw [rest, rest, moveTo, List.drop_drop]

@[simp] theorem moveTo_index (c : Cursor) : c.moveTo c.index = c := rfl

theorem rest_skipWhitespace (c : Cursor) :
    c.skipWhitespace.rest = c.rest.dropWhile Component.isWhitespace := by
  rw [skipWhitespace, rest_moveTo_add, blanks]
  have hsplit := List.takeWhile_append_dropWhile (p := Component.isWhitespace) (l := c.rest)
  calc c.rest.drop (c.rest.takeWhile Component.isWhitespace).length
      = (c.rest.takeWhile Component.isWhitespace ++ c.rest.dropWhile Component.isWhitespace).drop
          (c.rest.takeWhile Component.isWhitespace).length := by rw [hsplit]
    _ = c.rest.dropWhile Component.isWhitespace := List.drop_left

/-- The cursor after the next component that is no whitespace. -/
def advance (c : Cursor) : Cursor :=
  c.moveTo (c.index + c.blanks + 1)

@[simp] theorem source_advance (c : Cursor) : c.advance.source = c.source := rfl

/-- The next component and what follows it. -/
theorem rest_of_peek {c : Cursor} {d : Component} (h : c.peek = some d) :
    c.rest.dropWhile Component.isWhitespace = d :: c.advance.rest := by
  obtain ⟨ds, hds⟩ := List.head?_eq_some_iff.mp h
  rw [hds, advance, Nat.add_assoc, rest_moveTo_add, ← List.drop_drop]
  have hskip := rest_skipWhitespace c
  rw [skipWhitespace, rest_moveTo_add] at hskip
  rw [hskip, hds]
  rfl

theorem rest_of_peek_none {c : Cursor} (h : c.peek = none) :
    c.rest.dropWhile Component.isWhitespace = [] :=
  List.head?_eq_none_iff.mp h

/-- Nothing follows the end of a value. -/
@[simp] theorem rest_toEnd (c : Cursor) : c.toEnd.rest = [] :=
  List.drop_eq_nil_of_le (Nat.le_max_right c.index c.components.length)

/-- The next component is no whitespace. -/
theorem isWhitespace_of_peek {c : Cursor} {d : Component} (h : c.peek = some d) :
    d.isWhitespace = false := by
  have hhead := List.head?_dropWhile_not Component.isWhitespace c.rest
  rw [← peek, h] at hhead
  exact hhead

/-- Fewer components follow after one was taken. -/
theorem length_rest_advance_lt {c : Cursor} {d : Component} (h : c.peek = some d) :
    c.advance.rest.length < c.rest.length := by
  have hlength := (List.dropWhile_sublist Component.isWhitespace (l := c.rest)).length_le
  rw [rest_of_peek h, List.length_cons] at hlength
  omega

/-- What holds at the end of a value, and before a component if it holds after it, holds
everywhere. -/
theorem advance_induction {P : Cursor → Prop} (exhausted : ∀ c, c.peek = none → P c)
    (next : ∀ c d, c.peek = some d → P c.advance → P c) (c : Cursor) : P c := by
  generalize hn : c.rest.length = n
  induction n using Nat.strongRecOn generalizing c with
  | ind n ih =>
    cases hpeek : c.peek with
    | none => exact exhausted c hpeek
    | some d => exact next c d hpeek (ih _ (hn ▸ length_rest_advance_lt hpeek) c.advance rfl)

/-- The components up to the first comma are the first part. -/
theorem exists_splitAtCommas_cons {x : Component} (hx : x.isComma = false) (stop : Nat)
    (cs : List Component) : ∃ p ps, splitAtCommas stop cs = p :: ps ∧
      splitAtCommas stop (x :: cs) = (x :: p.1, p.2) :: ps := by
  cases hsplit : splitAtCommas stop cs with
  | nil => exact absurd hsplit (splitAtCommas_ne_nil stop cs)
  | cons p ps =>
    refine ⟨p, ps, rfl, ?_⟩
    rw [splitAtCommas, if_neg (Bool.eq_false_iff.mp hx), hsplit]

/-- Cutting at commas adds nothing. -/
theorem mem_of_mem_splitAtCommas {stop : Nat} {cs : List Component} {part : List Component × Nat}
    (hpart : part ∈ splitAtCommas stop cs) {d : Component} (hd : d ∈ part.1) : d ∈ cs := by
  induction cs generalizing part with
  | nil =>
    obtain rfl := List.mem_singleton.mp hpart
    exact hd
  | cons x cs ih =>
    rw [splitAtCommas] at hpart
    split at hpart
    next =>
      rcases List.mem_cons.mp hpart with rfl | hpart
      · exact absurd hd List.not_mem_nil
      · exact List.mem_cons_of_mem x (ih hpart hd)
    next =>
      split at hpart
      next first firstStop parts hsplit =>
        rw [hsplit] at ih
        rcases List.mem_cons.mp hpart with rfl | hpart
        · rcases List.mem_cons.mp hd with rfl | hd
          · exact List.mem_cons_self
          · exact List.mem_cons_of_mem x (ih List.mem_cons_self hd)
        · exact List.mem_cons_of_mem x (ih (List.mem_cons_of_mem _ hpart) hd)
      next hsplit => exact absurd hsplit (splitAtCommas_ne_nil stop cs)

/-- Without a comma there is one part. -/
theorem splitAtCommas_of_forall {cs : List Component} (h : ∀ d ∈ cs, d.isComma = false)
    (stop : Nat) : splitAtCommas stop cs = [(cs, stop)] := by
  induction cs with
  | nil => rfl
  | cons x cs ih =>
    obtain ⟨hx, hcs⟩ := List.forall_mem_cons.mp h
    obtain ⟨p, ps, hsplit, hcons⟩ := exists_splitAtCommas_cons hx stop cs
    obtain ⟨rfl, rfl⟩ := List.cons.inj (hsplit.symm.trans (ih hcs))
    exact hcons

/-- A text is a value of its own if it is read without errors. -/
theorem ofText_eq_ok {text : String} {c : Cursor} :
    ofText text = .ok c ↔ ∃ parsed, (Source.ofString text).components = .ok parsed ∧
      parsed.errors = [] ∧
      c = .ofComponents (.ofString text) parsed.value (Source.ofString text).length := by
  constructor
  · intro h
    simp only [ofText, bind, Except.bind] at h
    split at h
    next => exact absurd h (by simp)
    next parsed hparsed =>
      split at h
      next => exact absurd h (by simp [throw, throwThe, MonadExceptOf.throw])
      next herrors =>
        refine ⟨parsed, ?_, herrors, (Except.ok.inj h).symm⟩
        cases hcomponents : (Source.ofString text).components with
        | error f =>
          rw [hcomponents] at hparsed
          exact absurd hparsed (by simp [ReadError.ofFault])
        | ok p =>
          rw [hcomponents] at hparsed
          exact congrArg _ (Except.ok.inj hparsed)
  · rintro ⟨parsed, hparsed, herrors, rfl⟩
    simp only [ofText, bind, Except.bind, hparsed, ReadError.ofFault, herrors]
    rfl

end Cursor

namespace Reader

variable {α β σ : Type}

/-- One reader after the other. -/
theorem bind_apply (r : Reader α) (f : α → Reader β) (c : Cursor) :
    (r >>= f) c =
      match r c with
      | .ok a c' => f a c'
      | .error e c' => .error e c' := by
  rw [show (r >>= f) c = EStateM.bind r f c from rfl, EStateM.bind]
  cases r c <;> rfl

theorem map_apply (g : α → β) (r : Reader α) (c : Cursor) :
    (g <$> r) c =
      match r c with
      | .ok a c' => .ok (g a) c'
      | .error e c' => .error e c' := by
  rw [show (g <$> r) c = EStateM.map g r c from rfl, EStateM.map]
  cases r c <;> rfl

@[simp] theorem pure_apply (a : α) (c : Cursor) : (pure a : Reader α) c = .ok a c := rfl

@[simp] theorem get_apply (c : Cursor) : (get : Reader Cursor) c = .ok c c := rfl

@[simp] theorem source_apply (c : Cursor) : source c = .ok c.source c := rfl

@[simp] theorem ask_apply (f : Cursor → α) (c : Cursor) : ask f c = .ok (f c) c := rfl

@[simp] theorem modify_apply (f : Cursor → Cursor) (c : Cursor) :
    (modify f : Reader Unit) c = .ok () (f c) := rfl

@[simp] theorem throw_apply (e : ReadError) (c : Cursor) :
    (throw e : Reader α) c = .error e c := rfl

@[simp] theorem ofExcept_ok (a : α) (c : Cursor) : (ofExcept (.ok a)) c = .ok a c := rfl

@[simp] theorem ofExcept_error (e : ReadError) (c : Cursor) :
    (ofExcept (.error e) : Reader α) c = .error e c := rfl

@[simp] theorem refuse_apply (reason : Reason) (c : Cursor) :
    (refuse reason : Reader α) c = .error (.invalid reason c.location) c := rfl

/-! ## The next component -/

theorem nextComponent_of_peek {c : Cursor} {d : Component} (h : c.peek = some d) :
    nextComponent c = .ok d c.advance := by
  have hrest := c.rest_skipWhitespace.trans (Cursor.rest_of_peek h)
  simp only [nextComponent, bind_apply, modify_apply, get_apply, hrest]
  rfl

theorem nextComponent_of_peek_none {c : Cursor} (h : c.peek = none) :
    nextComponent c =
      .error (.invalid .unexpectedEnd (c.source.location c.stop)) c.skipWhitespace := by
  have hrest := c.rest_skipWhitespace.trans (Cursor.rest_of_peek_none h)
  simp only [nextComponent, bind_apply, modify_apply, get_apply, hrest]
  rfl

/-- A component that is no `var()` call is taken. -/
theorem next_of_peek {c : Cursor} {d : Component} (h : c.peek = some d) (hd : d.isVar = false) :
    next c = .ok d c.advance := by
  simp [next, bind_apply, map_apply, nextComponent_of_peek h, Leaf.noVar, hd]

/-- A `var()` call is refused. -/
theorem next_of_peek_isVar {c : Cursor} {d : Component} (h : c.peek = some d)
    (hd : d.isVar = true) :
    next c = .error (.varCall (c.source.locationOf d)) c.advance := by
  simp [next, bind_apply, map_apply, nextComponent_of_peek h, Leaf.noVar, hd, Leaf.varCall]

theorem next_of_peek_none {c : Cursor} (h : c.peek = none) :
    next c = .error (.invalid .unexpectedEnd (c.source.location c.stop)) c.skipWhitespace := by
  rw [next, bind_apply, nextComponent_of_peek_none h]

/-- A component that is no `var()` call is given to the leaf. -/
theorem leaf_of_peek {f : Leaf α} {c : Cursor} {d : Component} (h : c.peek = some d)
    (hd : d.isVar = false) : leaf f c = ofExcept (f c.source d) c.advance := by
  simp [leaf, bind_apply, next_of_peek h hd]

theorem leaf_of_peek_isVar {f : Leaf α} {c : Cursor} {d : Component} (h : c.peek = some d)
    (hd : d.isVar = true) : leaf f c = .error (.varCall (c.source.locationOf d)) c.advance := by
  rw [leaf, bind_apply, next_of_peek_isVar h hd]

theorem leaf_of_peek_none {f : Leaf α} {c : Cursor} (h : c.peek = none) :
    leaf f c = .error (.invalid .unexpectedEnd (c.source.location c.stop)) c.skipWhitespace := by
  rw [leaf, bind_apply, next_of_peek_none h]

/-- The end of the value is accepted. -/
theorem expectExhausted_of_peek_none {c : Cursor} (h : c.peek = none) :
    expectExhausted c = .ok () c := by
  simp [expectExhausted, bind_apply, h]

/-- A component that is left is refused, as a `var()` call if it is or holds one. -/
theorem expectExhausted_of_peek {c : Cursor} {d : Component} (h : c.peek = some d) :
    expectExhausted c =
      if d.containsVar then .error (.varCall (c.source.locationOf d)) c
      else .error (.invalid (.unexpected (c.source.textOf d)) (c.source.locationOf d)) c := by
  cases hd : d.containsVar <;>
    simp [expectExhausted, bind_apply, h, Leaf.noNestedVar, Leaf.varCall, Leaf.unexpected, hd]

/-- A lone keyword is taken. -/
theorem isKeywordExhausted_of_peek {word : String} {c : Cursor} {d : Component}
    (h : c.peek = some d) :
    isKeywordExhausted word c =
      if d.isKeyword word && c.advance.isExhausted then .ok true c.advance else .ok false c := by
  rw [isKeywordExhausted, Cursor.rest_of_peek h]
  rfl

theorem isKeywordExhausted_of_peek_none {word : String} {c : Cursor} (h : c.peek = none) :
    isKeywordExhausted word c = .ok false c := by
  rw [isKeywordExhausted, Cursor.rest_of_peek_none h]

theorem attempt_of_ok {r : Reader α} {c c' : Cursor} {a : α} (h : r c = .ok a c') :
    attempt r c = .ok (some a) c' := by
  rw [attempt, EStateM.run, h]

/-- A comma is taken if one stands here. -/
theorem tryComma_of_peek {c : Cursor} {d : Component} (h : c.peek = some d) :
    tryComma c = if d.isComma then .ok true c.advance else .ok false c := by
  cases hd : d.isComma with
  | false => simp [tryComma, bind_apply, h, hd]
  | true =>
    have hvar : d.isVar = false := by
      cases d with
      | token t => rfl
      | group opener opened cs ending =>
        exact absurd hd (by simp [Component.isComma, Component.isTokenOf])
    simp [tryComma, bind_apply, map_apply, h, hd, next_of_peek h hvar]

theorem tryComma_of_peek_none {c : Cursor} (h : c.peek = none) : tryComma c = .ok false c := by
  simp [tryComma, bind_apply, h]

/-! ## The loop -/

/-- Whitespace is passed over. -/
theorem foldComponents_dropWhile {source : Source} {stop : Nat}
    {step : σ → Component → Except StepError (Option σ)} (lastIndex index : Nat) (s : σ)
    (cs : List Component) :
    foldComponents source stop step lastIndex index s cs =
      foldComponents source stop step lastIndex
        (index + (cs.takeWhile Component.isWhitespace).length) s
        (cs.dropWhile Component.isWhitespace) := by
  induction cs generalizing index with
  | nil => rfl
  | cons c cs ih =>
    cases hc : c.isWhitespace with
    | false =>
      rw [List.dropWhile_cons_of_neg (by simp [hc]), List.takeWhile_cons_of_neg (by simp [hc]),
        List.length_nil, Nat.add_zero]
    | true =>
      rw [List.dropWhile_cons_of_pos hc, List.takeWhile_cons_of_pos hc, List.length_cons,
        foldComponents, if_pos hc, ih, Nat.add_assoc, Nat.add_comm 1]

/-- The loop ends at the end of the value. -/
theorem foldWhile_of_peek_none {step : σ → Component → Except StepError (Option σ)} {s : σ}
    {c : Cursor} (h : c.peek = none) : foldWhile step s c = .ok s c := by
  rw [foldWhile, foldComponents_dropWhile, Cursor.rest_of_peek_none h]
  rfl

/-- The loop gives the next component to its step and goes on as the step says. -/
theorem foldWhile_of_peek {step : σ → Component → Except StepError (Option σ)} {s : σ}
    {c : Cursor} {d : Component} (h : c.peek = some d) :
    foldWhile step s c =
      match step s d with
      | .ok (some next) => foldWhile step next c.advance
      | .ok none => .ok s c
      | .error e => .error (e.resolve c.advance.location) c.advance := by
  rw [foldWhile, foldComponents_dropWhile, Cursor.rest_of_peek h, foldComponents,
    if_neg (by simp [Cursor.isWhitespace_of_peek h])]
  cases step s d with
  | error e => rfl
  | ok o =>
    cases o with
    | none => rfl
    | some next => rfl

end Reader

end Styling
