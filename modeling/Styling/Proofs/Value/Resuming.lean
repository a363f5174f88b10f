import Mathlib.Logic.Function.Iterate
import Styling.Proofs.Value.Agreement
import Styling.Proofs.Value.Taking

/-!
# Reading from the middle of a value

A reader does not look back: what it makes of the components that follow a cursor does not depend
on those before it.  So a value that was read in part can be taken for a value of its own.

* `Cursor.behind` puts components in front of everything a cursor counts.
* `Reader.Resumed` compares two results, and `Reader.Resumes` is the property of a reader.
* `Reader.Resumes.bind`, `Reader.Resumes.leaf`, `Reader.Resumes.attempt`,
  `Reader.Resumes.foldWhile` and `Reader.Resumes.inside_eq` are the ways of putting readers
  together.
* `Cursor.advance_iterate` tells where a cursor stands after some components were taken.
-/

namespace Styling

namespace Cursor

variable (front : List Component) (c : Cursor)

/-- The cursor with more components in front. -/
def behind : Cursor :=
  ⟨c.source, front ++ c.components, c.stop, front.length + c.index⟩

@[simp] theorem source_behind : (c.behind front).source = c.source := rfl

@[simp] theorem stop_behind : (c.behind front).stop = c.stop := rfl

@[simp] theorem rest_behind : (c.behind front).rest = c.rest :=
  List.drop_length_add_append c.index

@[simp] theorem peek_behind : (c.behind front).peek = c.peek := by
  rw [peek, rest_behind, peek]

@[simp] theorem location_behind : (c.behind front).location = c.location := by
  rw [location, rest_behind, location, source_behind, stop_behind]

@[simp] theorem advance_behind : (c.behind front).advance = c.advance.behind front := by
  have hblanks : (c.behind front).blanks = c.blanks := by rw [blanks, rest_behind, blanks]
  rw [advance, hblanks, advance, moveTo, moveTo, behind, behind, Nat.add_assoc, Nat.add_assoc,
    Nat.add_assoc]

/-- The same text stands between a component and the cursor. -/
theorem sliceFrom_behind (index : Nat) :
    (c.behind front).sliceFrom (front.length + index) = c.sliceFrom index := by
  rw [sliceFrom, sliceFrom, behind]
  simp only [Nat.add_le_add_iff_left]
  split
  next => rfl
  next hlt =>
    have hlast : front.length + c.index - 1 = front.length + (c.index - 1) := by omega
    rw [hlast, List.getElem?_append_right (Nat.le_add_right _ _),
      List.getElem?_append_right (Nat.le_add_right _ _), Nat.add_sub_cancel_left,
      Nat.add_sub_cancel_left]

/-- The cursor after as many components as there are in front, not counting blanks, and one more. -/
theorem advance_iterate {c : Cursor} {xs ys : List Component} (hrest : c.rest = xs ++ ys) :
    (advance^[(Component.withoutBlanks xs).length] c).advance =
      (c.moveTo (c.index + xs.length)).advance := by
  induction xs generalizing c with
  | nil => rfl
  | cons x xs ih =>
    have hnext : (c.moveTo (c.index + 1)).rest = xs ++ ys := by
      rw [rest_moveTo_add, hrest]
      rfl
    have hmove : (c.moveTo (c.index + 1)).moveTo ((c.moveTo (c.index + 1)).index + xs.length) =
        c.moveTo (c.index + (x :: xs).length) := by
      rw [List.length_cons, Nat.add_comm xs.length, ← Nat.add_assoc]
      rfl
    rw [← hmove, ← ih hnext]
    cases hblank : x.isWhitespace with
    | true =>
      have hadvance : c.advance = (c.moveTo (c.index + 1)).advance := by
        have hblanks : c.blanks = (c.moveTo (c.index + 1)).blanks + 1 := by
          rw [blanks, blanks, hnext, hrest, List.cons_append, List.takeWhile_cons_of_pos hblank]
          rfl
        rw [advance, hblanks, ← Nat.add_assoc, Nat.add_right_comm c.index]
        rfl
      rw [Component.withoutBlanks, List.filter_cons_of_neg (by simp [hblank]),
        ← Function.iterate_succ_apply' advance, ← Function.iterate_succ_apply' advance,
        Function.iterate_succ_apply, Function.iterate_succ_apply, hadvance]
      rfl
    | false =>
      have hadvance : c.advance = c.moveTo (c.index + 1) := by
        rw [advance, blanks, hrest, List.cons_append,
          List.takeWhile_cons_of_neg (by simp [hblank])]
        rfl
      rw [Component.withoutBlanks, List.filter_cons_of_pos (by simp [hblank]), List.length_cons,
        Function.iterate_succ_apply, hadvance]
      rfl

end Cursor

namespace Reader

variable {front : List Component} {α β σ : Type}

/-- The results are the same value, with cursors that still stand at the same place, or the same
error. -/
inductive Resumed (front : List Component) :
    EStateM.Result ReadError Cursor α → EStateM.Result ReadError Cursor α → Prop
  | ok (a : α) (c : Cursor) : Resumed front (.ok a (c.behind front)) (.ok a c)
  | error (e : ReadError) (c d : Cursor) : Resumed front (.error e c) (.error e d)

/-- The reader does not look back. -/
def Resumes (r : Reader α) : Prop :=
  ∀ front c, Resumed front (r (c.behind front)) (r c)

namespace Resumes

theorem pure (a : α) : (Pure.pure a : Reader α).Resumes :=
  fun _ c => .ok a c

theorem bind {r : Reader α} {f : α → Reader β} (hr : r.Resumes) (hf : ∀ a, (f a).Resumes) :
    (r >>= f).Resumes := by
  intro front c
  have h := hr front c
  rw [bind_apply, bind_apply]
  generalize r (c.behind front) = x at h
  generalize r c = y at h
  cases h with
  | ok a c => exact hf a front c
  | error e c d => exact .error e c d

theorem refuse (reason : Reason) : (Reader.refuse reason : Reader α).Resumes := by
  intro front c
  rw [refuse_apply, refuse_apply, Cursor.location_behind]
  exact .error _ _ _

theorem source : Reader.source.Resumes :=
  fun _ c => .ok c.source c

theorem peek : (Reader.ask Cursor.peek).Resumes := by
  intro front c
  rw [ask_apply, ask_apply, Cursor.peek_behind]
  exact .ok _ c

theorem ofExcept (x : Except ReadError α) : (Reader.ofExcept x).Resumes := by
  intro front c
  cases x with
  | ok a => exact .ok a c
  | error e => exact .error e _ _

theorem next : Reader.next.Resumes := by
  intro front c
  cases hpeek : c.peek with
  | none =>
    rw [next_of_peek_none hpeek, next_of_peek_none (c := c.behind front) (by simpa using hpeek)]
    exact .error _ _ _
  | some d =>
    have hbehind : (c.behind front).peek = some d := by rw [Cursor.peek_behind, hpeek]
    cases hvar : d.isVar with
    | true =>
      rw [next_of_peek_isVar hpeek hvar, next_of_peek_isVar hbehind hvar]
      exact .error _ _ _
    | false =>
      rw [next_of_peek hpeek hvar, next_of_peek hbehind hvar, Cursor.advance_behind]
      exact .ok d _

theorem leaf (f : Leaf α) : (Reader.leaf f).Resumes :=
  next.bind fun d => source.bind fun s => ofExcept (f s d)

theorem attempt {r : Reader α} (h : r.Resumes) : (Reader.attempt r).Resumes := by
  intro front c
  have hrun := h front c
  generalize hx : r (c.behind front) = x at hrun
  generalize hy : r c = y at hrun
  cases hrun with
  | ok a d =>
    rw [attempt_of_ok hx, attempt_of_ok hy]
    exact .ok _ d
  | error e c' d =>
    rw [attempt_of_error hx, attempt_of_error hy]
    split
    · exact .ok none c
    · exact .error e _ _

theorem tryKeyword (words : List String) : (Reader.tryKeyword words).Resumes :=
  attempt (leaf _)

theorem foldWhile (step : σ → Component → Except StepError (Option σ)) (s : σ) :
    (Reader.foldWhile step s).Resumes := by
  intro front c
  induction c using Cursor.advance_induction generalizing s with
  | exhausted c hpeek =>
    have hbehind : (c.behind front).peek = none := by rw [Cursor.peek_behind, hpeek]
    rw [foldWhile_of_peek_none hpeek, foldWhile_of_peek_none hbehind]
    exact .ok s c
  | next c d hpeek ih =>
    have hbehind : (c.behind front).peek = some d := by rw [Cursor.peek_behind, hpeek]
    rw [foldWhile_of_peek hpeek, foldWhile_of_peek hbehind, Cursor.advance_behind]
    cases step s d with
    | error e =>
      rw [Cursor.location_behind]
      exact .error _ _ _
    | ok o =>
      cases o with
      | none => exact .ok s c
      | some s' => exact ih s'

theorem foldAll (step : σ → Component → Except StepError σ) (s : σ) :
    (Reader.foldAll step s).Resumes :=
  foldWhile _ s

theorem expectExhausted : Reader.expectExhausted.Resumes := by
  intro front c
  cases hpeek : c.peek with
  | none =>
    have hbehind : (c.behind front).peek = none := by rw [Cursor.peek_behind, hpeek]
    rw [expectExhausted_of_peek_none hpeek, expectExhausted_of_peek_none hbehind]
    exact .ok () c
  | some d =>
    have hbehind : (c.behind front).peek = some d := by rw [Cursor.peek_behind, hpeek]
    rw [expectExhausted_of_peek hpeek, expectExhausted_of_peek hbehind, Cursor.source_behind]
    split
    · exact .error _ _ _
    · exact .error _ _ _

/-- Reading the rest of a value to its end. -/
theorem inside_eq {r : Reader α} (h : r.Resumes) (front : List Component) (c : Cursor) :
    r.inside (c.behind front) = r.inside c := by
  have hwhole : (do let a ← r; Reader.expectExhausted; return a : Reader α).Resumes :=
    h.bind fun a => expectExhausted.bind fun _ => .pure a
  have hrun := hwhole front c
  rw [inside, inside, EStateM.run, EStateM.run]
  generalize (do let a ← r; Reader.expectExhausted; return a : Reader α) (c.behind front) = x
    at hrun
  generalize (do let a ← r; Reader.expectExhausted; return a : Reader α) c = y at hrun
  cases hrun with
  | ok a d => rfl
  | error e c' d => rfl

end Resumes

end Reader

end Styling
