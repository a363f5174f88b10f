import Styling.Proofs.Property.Verdict
import Styling.Proofs.Variable.Prefix
import Styling.Sheet.Cascade

/-!
# Resolved texts

Passes are repeated until one replaces nothing.  The last pass does not look for `var()` calls by
itself, it only counts what it replaced; but a walk that gets through a text without replacing
anything has been everywhere in it, so the text has no `var()` call and no stray closing bracket at
any depth.

This is what makes one level of reading anew enough: what is read from a resolved text is never
deferred again.

* `Component.listSplices_of_noVar` is the walk through components without `var()` calls, and
  `Component.listSplices_eq_ok_nil` the one that replaces nothing.
* `substitute_of_resolveFrom` says that the last of the passes replaced nothing.
* `resolve_settles` is the statement about resolved texts.
-/

namespace Styling

namespace Component

variable {source : Source} {vars : Variables}

/-! ## The walk -/

theorem isFunction_of_containsVar {opener : Opener} {opened : Span} {cs : List Component}
    {ending : Ending} (h : (group opener opened cs ending).containsVar = false) :
    opener.isFunction "var" = false ∧ listContainsVar cs = false := by
  rw [containsVar] at h
  exact Bool.or_eq_false_iff.mp h

mutual

/-- Without `var()` calls the walk looks for stray closing brackets only. -/
theorem splices_of_noVar {c : Component} (h : c.containsVar = false) :
    c.splices source vars = if c.hasStray then .error .notReadable else .ok [] := by
  cases c with
  | token t => rw [splices, hasStray]
  | group opener opened cs ending =>
    obtain ⟨hopener, hcs⟩ := isFunction_of_containsVar h
    rw [splices, hasStray, hopener, if_neg Bool.false_ne_true, listSplices_of_noVar hcs]

theorem listSplices_of_noVar {cs : List Component} (h : listContainsVar cs = false) :
    listSplices source vars cs =
      if listHasStray cs then .error .notReadable else .ok [] := by
  cases cs with
  | nil => rw [listSplices, listHasStray, if_neg Bool.false_ne_true]
  | cons c cs =>
    rw [listContainsVar] at h
    obtain ⟨hc, hcs⟩ := Bool.or_eq_false_iff.mp h
    rw [listSplices, listHasStray, splices_of_noVar hc]
    cases c.hasStray with
    | true => rfl
    | false =>
      rw [Bool.false_or, if_neg Bool.false_ne_true, listSplices_of_noVar hcs]
      cases listHasStray cs <;> rfl

end

mutual

/-- A walk that replaces nothing met no `var()` call. -/
theorem containsVar_of_splices {c : Component} (h : c.splices source vars = .ok []) :
    c.containsVar = false := by
  cases c with
  | token t => exact containsVar_token t
  | group opener opened cs ending =>
    rw [splices] at h
    rw [containsVar]
    cases hopener : opener.isFunction "var" with
    | true =>
      -- A call is replaced or refused.
      rw [hopener, if_pos rfl] at h
      cases hreplacement : varReplacement source vars (ending.stop - 1) cs with
      | ok replacement =>
        rw [hreplacement] at h
        exact absurd (Except.ok.inj h) (List.cons_ne_nil _ _)
      | error e =>
        rw [hreplacement] at h
        exact absurd h (by simp)
    | false =>
      rw [hopener, if_neg Bool.false_ne_true] at h
      exact listContainsVar_of_listSplices h

theorem listContainsVar_of_listSplices {cs : List Component}
    (h : listSplices source vars cs = .ok []) : listContainsVar cs = false := by
  cases cs with
  | nil => exact listContainsVar_nil
  | cons c cs =>
    rw [listSplices] at h
    split at h
    next => exact absurd h (by simp)
    next first hfirst =>
      split at h
      next => exact absurd h (by simp)
      next rest hrest =>
        obtain ⟨rfl, rfl⟩ := List.append_eq_nil_iff.mp (Except.ok.inj h)
        rw [listContainsVar, containsVar_of_splices hfirst, listContainsVar_of_listSplices hrest]
        rfl

end

/-- Nothing is replaced where there is neither a `var()` call nor a stray closing bracket. -/
theorem listSplices_eq_ok_nil {cs : List Component} :
    listSplices source vars cs = .ok [] ↔
      listContainsVar cs = false ∧ listHasStray cs = false := by
  constructor
  · intro h
    have hvar := listContainsVar_of_listSplices h
    refine ⟨hvar, ?_⟩
    rw [listSplices_of_noVar hvar] at h
    cases hstray : listHasStray cs with
    | false => rfl
    | true =>
      rw [hstray, if_pos rfl] at h
      exact absurd h (by simp)
  · rintro ⟨hvar, hstray⟩
    rw [listSplices_of_noVar hvar, hstray, if_neg Bool.false_ne_true]

end Component

/-! ## The passes -/

/-- What a pass does to a text without `var()` calls. -/
theorem substitute_of_noVar {text : String} {parsed : Parsed (List Component)}
    (hparsed : (Source.ofString text).components = .ok parsed) (herrors : parsed.errors = [])
    (hvar : Component.listContainsVar parsed.value = false) (vars : Variables) :
    substitute text vars = .ok (if Component.listHasStray parsed.value then .error .notReadable
      else .ok ((Source.ofString text).text, 0)) := by
  simp only [substitute, bind, Except.bind, hparsed, herrors, Component.listSplices_of_noVar hvar]
  cases Component.listHasStray parsed.value <;> rfl

/-- A pass that replaces nothing keeps the text, and finds nothing to replace in any context. -/
theorem substitute_eq_ok_zero {text expanded : String} {vars : Variables}
    (h : substitute text vars = .ok (.ok (expanded, 0))) :
    ∃ c, Cursor.ofText text = .ok c ∧ Component.listContainsVar c.components = false ∧
      Component.listHasStray c.components = false ∧
      ∀ vars', substitute text vars' = .ok (.ok ((Source.ofString text).text, 0)) := by
  obtain ⟨parsed, ss, hparsed, herrors, hss, -, hcount⟩ := substitute_eq_ok h
  obtain rfl := List.length_eq_zero_iff.mp hcount.symm
  obtain ⟨hvar, hstray⟩ := Component.listSplices_eq_ok_nil.mp hss
  refine ⟨_, Cursor.ofText_eq_ok.mpr ⟨parsed, hparsed, herrors, rfl⟩, hvar, hstray, fun vars' => ?_⟩
  rw [substitute_of_noVar hparsed herrors hvar, hstray, if_neg Bool.false_ne_true]

/-- The passes end with a text in which the last of them replaced nothing. -/
theorem substitute_of_resolveFrom {vars : Variables} {text t : String} {limit : Nat}
    (h : (resolveFrom vars text limit).result = .ok (.ok t)) :
    ∃ expanded, substitute t vars = .ok (.ok (expanded, 0)) := by
  induction limit generalizing text with
  | zero => exact absurd h (by simp [resolveFrom])
  | succ limit ih =>
    rw [resolveFrom, Traced.bind_result_eq_ok] at h
    obtain ⟨pass, hpass, h⟩ := h
    rw [Traced.ofExcept_result] at hpass
    cases pass with
    | error e => exact absurd h (by simp)
    | ok next =>
      obtain ⟨expanded, count⟩ := next
      dsimp only at h
      split at h
      next hcount =>
        obtain rfl := Except.ok.inj (Except.ok.inj h)
        subst hcount
        exact ⟨expanded, hpass⟩
      next =>
        obtain ⟨-, -, hnext⟩ := Traced.bind_result_eq_ok.mp h
        exact ih hnext

/-! ## Reading anew -/

namespace PropertyKind

variable {kind : PropertyKind} {c : Cursor}

/-- A value that holds no `var()` call is not deferred. -/
theorem isDeferred_of_readCursor (hvar : c.holdsVar = false) {ps : List Property}
    (h : kind.readCursor c = .ok ps) : ∀ p ∈ ps, p.value.isDeferred = false := by
  have hcases := kind.readCursor_cases c
  rw [h] at hcases
  rcases hcases with ⟨-, hholds⟩ | ⟨hps, -⟩
  · exact absurd (hvar.symm.trans hholds) Bool.false_ne_true
  · exact fun p hp => (hps p hp).1

/-- A text without `var()` calls is read anew as its grammar says: what it reads is given, and only
a refusal by the grammar is a failure. -/
theorem reread_of_noVar {text : String} (hc : Cursor.ofText text = .ok c)
    (hvar : c.holdsVar = false) (raw : String) (location : Location) :
    (kind.reread text raw location).result =
      match kind.readCursor c with
      | .ok ps => .ok (.ok ps)
      | .error (.refused _) => .ok (.error ⟨.notReadable, raw, location⟩)
      | .error (.fault f) => .error f := by
  rw [reread, hc]
  simp only [bind, Except.bind]
  cases hread : kind.readCursor c with
  | error e => cases e <;> rfl
  | ok ps =>
    have hnone : ps.any (·.value.isDeferred) = false :=
      List.any_eq_false.mpr fun p hp => by simp [isDeferred_of_readCursor hvar hread p hp]
    simp [hnone]

end PropertyKind

/-- **A resolved text is settled.**  It is read without syntax error, has no `var()` call and no
stray closing bracket at any depth, and no pass replaces anything in it, whatever the custom
properties.  So it is read anew exactly as the grammar of a kind reads it, and never as deferred
again. -/
theorem resolve_settles {raw t : String} {location : Location} {vars : Variables} {limit : Int}
    (h : (resolve raw location vars limit).result = .ok (.ok t)) :
    ∃ c, Cursor.ofText t = .ok c ∧ Component.listContainsVar c.components = false ∧
      Component.listHasStray c.components = false ∧
      (∀ vars', substitute t vars' = .ok (.ok ((Source.ofString t).text, 0))) ∧
      ∀ (kind : PropertyKind) (raw' : String) (location' : Location),
        (∀ ps, kind.readCursor c = .ok ps → ∀ p ∈ ps, p.value.isDeferred = false) ∧
        (kind.reread t raw' location').result =
          match kind.readCursor c with
          | .ok ps => .ok (.ok ps)
          | .error (.refused _) => .ok (.error ⟨.notReadable, raw', location'⟩)
          | .error (.fault f) => .error f := by
  obtain ⟨expanded, hpass⟩ := substitute_of_resolveFrom (resolveFrom_of_resolve h)
  obtain ⟨c, hc, hvar, hstray, hnothing⟩ := substitute_eq_ok_zero hpass
  have hholds : c.holdsVar = false := by
    obtain ⟨parsed, -, -, rfl⟩ := Cursor.ofText_eq_ok.mp hc
    exact hvar
  exact ⟨c, hc, hvar, hstray, hnothing, fun kind raw' location' =>
    ⟨fun ps hps => kind.isDeferred_of_readCursor hholds hps,
      kind.reread_of_noVar hc hholds raw' location'⟩⟩

/-- A call whose value is a call is resolved in two passes, and then no pass replaces anything. -/
theorem resolve_settles_nested :
    (resolve "var(--a) 2px" .first ⟨[[("--a", "var(--b)"), ("--b", "1px")]]⟩ 8).result =
      .ok (.ok "1px 2px") ∧
    ∃ c, Cursor.ofText "1px 2px" = .ok c ∧
      ∀ vars, substitute "1px 2px" vars = .ok (.ok ((Source.ofString "1px 2px").text, 0)) := by
  have hresolve :
      (resolve "var(--a) 2px" .first ⟨[[("--a", "var(--b)"), ("--b", "1px")]]⟩ 8).result =
        .ok (.ok "1px 2px") := by cbv
  obtain ⟨c, hc, -, -, hnothing, -⟩ := resolve_settles hresolve
  exact ⟨hresolve, c, hc, hnothing⟩

end Styling
