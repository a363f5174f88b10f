import Mathlib
import Styling.Proofs.Value.Accepting
import Styling.Proofs.Variable.Outside

/-!
# The walk of a pass

A pass can only end early at a component that it meets outside of calls: a closing bracket that
closes nothing, a call that is not of the form `var(name)` or `var(name, fallback)` or has such a
bracket in its fallback, or a call of an undefined name without fallback.  A call that is none of
these is replaced by the value of its name, or else by the text of its fallback.

* `IsVarBody` is the form of a call, `Component.Gives` what it is replaced by, and
  `Component.Stops` what ends a pass.
* `Component.listSplices_eq` says that the walk over a tree is one over what stands outside of
  calls, and `Component.met` what it makes of a component there.
* `Component.met_eq_error_iff` is about what ends a pass, and `Component.eq_of_met_eq_ok` and
  `Component.gives_of_varReplacement` about what does not.
-/

namespace Styling

/-! ## The form of a call -/

/-- The inside of a call: a name, and behind a comma a fallback, with whitespace around them. -/
inductive IsVarBody : List Component → String → Option (List Component) → Prop
  | alone {before after : List Component} {name : String} {span : Span}
    (blankBefore : ∀ c ∈ before, c.isWhitespace = true)
    (blankAfter : ∀ c ∈ after, c.isWhitespace = true) :
    IsVarBody (before ++ .token ⟨.ident name, span⟩ :: after) name none
  | fallback {before between after rest : List Component} {name : String} {span comma : Span}
    (blankBefore : ∀ c ∈ before, c.isWhitespace = true)
    (blankBetween : ∀ c ∈ between, c.isWhitespace = true)
    (blankAfter : ∀ c ∈ after, c.isWhitespace = true)
    (head : ∀ c ∈ rest.head?, c.isWhitespace = false) :
    IsVarBody (before ++ .token ⟨.ident name, span⟩ ::
      (between ++ .token ⟨.comma, comma⟩ :: (after ++ rest))) name (some rest)

namespace Component

section

variable {cs rest : List Component} {name : String} {fallback : Option (List Component)}

/-- What stands behind blanks. -/
theorem dropWhile_blanks {blanks : List Component} (hblanks : ∀ c ∈ blanks, c.isWhitespace = true)
    (hrest : ∀ c ∈ rest.head?, c.isWhitespace = false) :
    (blanks ++ rest).dropWhile isWhitespace = rest := by
  rw [List.dropWhile_append_of_pos hblanks]
  cases rest with
  | nil => rfl
  | cons c cs => exact List.dropWhile_cons_of_neg (by rw [hrest c rfl]; exact Bool.false_ne_true)

/-- A list is cut behind the blanks at its start. -/
theorem exists_blanks (h : cs.dropWhile isWhitespace = rest) :
    ∃ blanks, (∀ c ∈ blanks, c.isWhitespace = true) ∧ cs = blanks ++ rest ∧
      ∀ c ∈ rest.head?, c.isWhitespace = false := by
  subst h
  refine ⟨cs.takeWhile isWhitespace, fun c hc => List.mem_takeWhile_imp hc,
    List.takeWhile_append_dropWhile.symm, fun c hc => ?_⟩
  have hhead := List.head?_dropWhile_not isWhitespace cs
  rwa [Option.mem_def.mp hc] at hhead

theorem isVarBody_of_varCall (h : varCall? cs = some ⟨name, fallback⟩) :
    IsVarBody cs name fallback := by
  unfold varCall? at h
  split at h
  next ident span behind hcs =>
    obtain ⟨before, hbefore, rfl, -⟩ := exists_blanks hcs
    split at h
    next hbehind =>
      obtain ⟨after, hafter, rfl, -⟩ := exists_blanks hbehind
      obtain ⟨rfl, rfl⟩ := VarCall.mk.inj (Option.some.inj h)
      rw [List.append_nil]
      exact .alone hbefore hafter
    next comma inside hbehind =>
      obtain ⟨between, hbetween, rfl, -⟩ := exists_blanks hbehind
      obtain ⟨rfl, rfl⟩ := VarCall.mk.inj (Option.some.inj h)
      obtain ⟨after, hafter, hinside, hhead⟩ :=
        exists_blanks (rfl : inside.dropWhile isWhitespace = _)
      rw [hinside, dropWhile_blanks hafter hhead]
      exact .fallback hbefore hbetween hafter hhead
    next => exact absurd h (by simp)
  next => exact absurd h (by simp)

/-- A call is read if it has the form of one. -/
theorem varCall?_eq_some_iff :
    varCall? cs = some ⟨name, fallback⟩ ↔ IsVarBody cs name fallback := by
  refine ⟨isVarBody_of_varCall, fun h => ?_⟩
  have hhead : ∀ (t : Token) (ds : List Component), t.kind.isWhitespace = false →
      ∀ c ∈ (token t :: ds).head?, c.isWhitespace = false := by
    rintro t ds ht c hc
    obtain rfl := Option.some.inj hc
    exact ht
  cases h with
  | @alone before after name span hbefore hafter =>
    have hblank := List.dropWhile_eq_nil_iff.mpr hafter
    unfold varCall?
    rw [dropWhile_blanks hbefore (hhead _ _ rfl)]
    simp only [hblank]
  | @fallback before between after rest name span comma hbefore hbetween hafter hrest =>
    unfold varCall?
    rw [dropWhile_blanks hbefore (hhead _ _ rfl)]
    simp only [dropWhile_blanks hbetween (hhead ⟨.comma, comma⟩ _ rfl),
      dropWhile_blanks hafter hrest]

end

/-! ## What a pass meets -/

/-- A closing bracket that closes nothing stands at some level. -/
def HoldsStray (cs : List Component) : Prop :=
  ∃ level b span, Siblings cs level ∧ .token ⟨.closing b, span⟩ ∈ level

/-- What a call is replaced by: the value of its name, or else the text of its fallback up to the
closing parenthesis, which is empty if nothing stands there. -/
inductive Gives (source : Source) (vars : Variables) : Component → String → Prop
  | value {c : Component} {name value : String} {fallback : Option (List Component)}
    (body : IsVarBody c.children name fallback) (found : vars.lookup name = some value) :
    Gives source vars c value
  | fallback {opener : Opener} {opened closing : Span} {cs rest : List Component}
    {first : Component} {name : String} (body : IsVarBody cs name (some (first :: rest)))
    (missing : vars.lookup name = none) :
    Gives source vars (group opener opened cs (.closed closing))
      (source.slice first.start closing.start)
  | empty {c : Component} {name : String} (body : IsVarBody c.children name (some []))
    (missing : vars.lookup name = none) : Gives source vars c ""

/-- What ends a pass: a closing bracket that closes nothing, a call that has not the form of one or
holds such a bracket in its fallback, or one of an undefined name without fallback. -/
inductive Stops (vars : Variables) : Component → ResolveProblem → Prop
  | stray {b : Bracket} {span : Span} : Stops vars (.token ⟨.closing b, span⟩) .notReadable
  | malformed {c : Component} (call : c.isVar = true)
    (body : ∀ name fallback, ¬ IsVarBody c.children name fallback) : Stops vars c .notReadable
  | strayInside {c : Component} {name : String} {fallback : List Component} (call : c.isVar = true)
    (body : IsVarBody c.children name (some fallback)) (stray : HoldsStray fallback) :
    Stops vars c .notReadable
  | undefined {c : Component} {name : String} (call : c.isVar = true)
    (body : IsVarBody c.children name none) (missing : vars.lookup name = none) :
    Stops vars c .unresolved

/-- What a pass makes of a component that it meets, apart from what is inside a group. -/
def met (source : Source) (vars : Variables) (c : Component) :
    Except ResolveProblem (List Splice) :=
  if c.isVar then do
    let replacement ← varReplacement source vars (c.stop - 1) c.children
    return [⟨⟨c.start, c.stop⟩, replacement⟩]
  else if c.isStray then .error .notReadable
  else .ok []

variable {source : Source} {vars : Variables}

mutual

theorem splices_eq (c : Component) : c.splices source vars = (do
    let splices ← c.outside.mapM (met source vars)
    return splices.flatten) := by
  cases c with
  | token t =>
    have hcall : (token t).isVar = false := rfl
    rw [splices, outside, List.mapM_cons, met, hcall, if_neg Bool.false_ne_true]
    cases isStray (token t) <;> rfl
  | group opener opened cs ending =>
    cases hopener : opener.isFunction "var" with
    | true =>
      have hcall : (group opener opened cs ending).isVar = true := hopener
      rw [splices, outside_call hopener, List.mapM_cons, met, hcall, if_pos rfl, if_pos hopener]
      simp only [children, stop, start]
      cases varReplacement source vars (ending.stop - 1) cs <;> rfl
    | false =>
      have hcall : (group opener opened cs ending).isVar = false := hopener
      have hmet : met source vars (group opener opened cs ending) = .ok [] := by
        rw [met, hcall, if_neg Bool.false_ne_true]
        rfl
      rw [splices, outside_group hopener, List.mapM_cons, hmet, hopener, if_neg Bool.false_ne_true,
        listSplices_eq]
      cases (listOutside cs).mapM (met source vars) <;> rfl

/-- **The walk is one over what stands outside of calls**, in the order of the text. -/
theorem listSplices_eq (cs : List Component) : listSplices source vars cs = (do
    let splices ← (listOutside cs).mapM (met source vars)
    return splices.flatten) := by
  cases cs with
  | nil =>
    rw [listSplices, listOutside]
    rfl
  | cons c cs =>
    rw [listSplices, listOutside, List.mapM_append, splices_eq, listSplices_eq]
    cases c.outside.mapM (met source vars) with
    | error e => rfl
    | ok first =>
      cases (listOutside cs).mapM (met source vars) with
      | error e => rfl
      | ok rest => exact congrArg Except.ok List.flatten_append.symm

end

/-! ## Where a pass ends early -/

/-- The levels inside a component are levels of the list that it stands in. -/
theorem Siblings.of_children {cs level : List Component} {c : Component} (hc : c ∈ cs)
    (h : Siblings c.children level) : Siblings cs level := by
  induction h with
  | top => exact .inside .top hc
  | inside above mem ih => exact .inside ih mem

/-- The component is a closing bracket that closes nothing, or holds one at some level. -/
def IsOrHoldsStray (c : Component) : Prop :=
  (∃ b span, c = .token ⟨.closing b, span⟩) ∨ HoldsStray c.children

theorem IsOrHoldsStray.holdsStray {cs : List Component} {c : Component} (h : c.IsOrHoldsStray)
    (hc : c ∈ cs) : HoldsStray cs := by
  rcases h with ⟨b, span, rfl⟩ | ⟨level, b, span, hlevel, hmem⟩
  · exact ⟨cs, b, span, .top, hc⟩
  · exact ⟨level, b, span, hlevel.of_children hc, hmem⟩

theorem exists_of_isStray {c : Component} (h : c.isStray = true) :
    ∃ b span, c = .token ⟨.closing b, span⟩ := by
  cases c with
  | token t =>
    obtain ⟨kind, span⟩ := t
    cases kind with
    | closing b => exact ⟨b, span, rfl⟩
    | _ => exact absurd h Bool.false_ne_true
  | group opener opened cs ending => exact absurd h Bool.false_ne_true

mutual

theorem isOrHoldsStray_of_hasStray {c : Component} (h : c.hasStray = true) :
    c.IsOrHoldsStray := by
  cases c with
  | token t =>
    rw [hasStray] at h
    exact .inl (exists_of_isStray h)
  | group opener opened cs ending =>
    rw [hasStray] at h
    obtain ⟨d, hd, hstray⟩ := exists_isOrHoldsStray h
    exact .inr (hstray.holdsStray hd)

theorem exists_isOrHoldsStray {cs : List Component} (h : listHasStray cs = true) :
    ∃ c ∈ cs, c.IsOrHoldsStray := by
  cases cs with
  | nil => exact absurd h (by simp [listHasStray])
  | cons c cs =>
    rw [listHasStray] at h
    rcases Bool.or_eq_true_iff.mp h with h | h
    · exact ⟨c, List.mem_cons_self, isOrHoldsStray_of_hasStray h⟩
    · obtain ⟨d, hd, hstray⟩ := exists_isOrHoldsStray h
      exact ⟨d, List.mem_cons_of_mem _ hd, hstray⟩

end

theorem listHasStray_of_mem {cs : List Component} {c : Component} (hc : c ∈ cs)
    (h : c.hasStray = true) : listHasStray cs = true := by
  rw [listHasStray_eq_any]
  exact List.any_eq_true.mpr ⟨c, hc, h⟩

/-- The search for closing brackets goes to all levels. -/
theorem listHasStray_iff {cs : List Component} : listHasStray cs = true ↔ HoldsStray cs := by
  constructor
  · intro h
    obtain ⟨c, hc, hstray⟩ := exists_isOrHoldsStray h
    exact hstray.holdsStray hc
  · rintro ⟨level, b, span, hlevel, hmem⟩
    have hfound : listHasStray level = true := listHasStray_of_mem hmem rfl
    clear hmem
    induction hlevel with
    | top => exact hfound
    | @inside level c above mem ih =>
      refine ih (listHasStray_of_mem mem ?_)
      cases c with
      | token t => exact absurd hfound (by simp [children, listHasStray])
      | group opener opened cs ending => exact hfound

section

variable {c : Component} {problem : ResolveProblem}

theorem met_of_isVar (h : c.isVar = true) : met source vars c = (do
    let replacement ← varReplacement source vars (c.stop - 1) c.children
    return [⟨⟨c.start, c.stop⟩, replacement⟩]) := by
  rw [met, if_pos h]

/-- A call that is refused stops the pass. -/
theorem stops_of_varReplacement {stop : Nat} (h : c.isVar = true)
    (hrefused : varReplacement source vars stop c.children = .error problem) :
    Stops vars c problem := by
  unfold varReplacement at hrefused
  split at hrefused
  next hnone =>
    obtain rfl := Except.error.inj hrefused
    refine .malformed h fun name fallback hbody => ?_
    exact absurd (hnone.symm.trans (varCall?_eq_some_iff.mpr hbody)) (by simp)
  next call hcall =>
    obtain ⟨name, fallback⟩ := call
    have hbody := varCall?_eq_some_iff.mp hcall
    split at hrefused
    next hstray =>
      obtain rfl := Except.error.inj hrefused
      cases fallback with
      | none => exact absurd hstray (by simp [listHasStray])
      | some fallback => exact .strayInside h hbody (listHasStray_iff.mp hstray)
    next =>
      split at hrefused
      next => exact absurd hrefused (by simp)
      next => exact absurd hrefused (by simp)
      next hmissing hnone =>
        obtain rfl := Except.error.inj hrefused
        obtain rfl : fallback = none := hnone
        exact .undefined h hbody hmissing

/-- A component stops the pass exactly if the walk has a problem with it. -/
theorem met_eq_error_iff : met source vars c = .error problem ↔ Stops vars c problem := by
  constructor
  · intro h
    unfold met at h
    split at h
    next hcall =>
      cases hreplacement : varReplacement source vars (c.stop - 1) c.children with
      | ok replacement =>
        rw [hreplacement] at h
        exact absurd h (by simp [bind, Except.bind, pure, Except.pure])
      | error e =>
        rw [hreplacement] at h
        obtain rfl := Except.error.inj h
        exact stops_of_varReplacement hcall hreplacement
    next =>
      split at h
      next hstray =>
        obtain rfl := Except.error.inj h
        obtain ⟨b, span, rfl⟩ := exists_of_isStray hstray
        exact .stray
      next => exact absurd h (by simp)
  · intro h
    cases h with
    | stray => rfl
    | malformed call body =>
      have hnone : varCall? c.children = none := by
        cases hcall : varCall? c.children with
        | none => rfl
        | some read => exact absurd (varCall?_eq_some_iff.mp hcall) (body _ _)
      rw [met_of_isVar call, varReplacement, hnone]
      rfl
    | strayInside call body stray =>
      rw [met_of_isVar call, varReplacement, varCall?_eq_some_iff.mpr body]
      simp only [Option.getD_some, listHasStray_iff.mpr stray, if_true]
      rfl
    | undefined call body missing =>
      rw [met_of_isVar call, varReplacement, varCall?_eq_some_iff.mpr body]
      simp [listHasStray, missing, bind, Except.bind]

/-- The text that a call is replaced by, if the pass goes on. -/
def replacement (source : Source) (vars : Variables) (c : Component) : String :=
  (varReplacement source vars (c.stop - 1) c.children).toOption.getD ""

/-- What the walk lists for a component that does not stop it. -/
theorem eq_of_met_eq_ok {splices : List Splice} (h : met source vars c = .ok splices) :
    splices = (if c.isVar then [⟨⟨c.start, c.stop⟩, c.replacement source vars⟩] else []) ∧
      (c.isVar = true → varReplacement source vars (c.stop - 1) c.children =
        .ok (c.replacement source vars)) := by
  unfold met at h
  split at h
  next hcall =>
    obtain ⟨text, htext, h⟩ := exists_of_bind_eq_ok h
    obtain rfl := Except.ok.inj h
    have heq : c.replacement source vars = text := by rw [replacement, htext]; rfl
    rw [if_pos hcall, heq]
    exact ⟨rfl, fun _ => htext⟩
  next hcall =>
    refine ⟨?_, fun hcall' => absurd hcall' hcall⟩
    split at h
    next => exact absurd h (by simp)
    next =>
      rw [if_neg hcall]
      exact (Except.ok.inj h).symm

/-- A call that does not stop the pass is replaced by what it gives. -/
theorem gives_of_varReplacement {text : String} (hc : source.Holds c)
    (h : varReplacement source vars (c.stop - 1) c.children = .ok text) :
    Gives source vars c text := by
  unfold varReplacement at h
  split at h
  next => exact absurd h (by simp)
  next call hcall =>
    obtain ⟨name, fallback⟩ := call
    have hbody := varCall?_eq_some_iff.mp hcall
    split at h
    next => exact absurd h (by simp)
    next =>
      split at h
      next value found =>
        obtain rfl := Except.ok.inj h
        exact .value hbody found
      next rest missing hsome =>
        obtain rfl := Except.ok.inj h
        obtain rfl : fallback = some rest := hsome
        cases rest with
        | nil => exact .empty hbody missing
        | cons first rest =>
          cases hc.closed with
          | token t => exact absurd hcall (by simp [varCall?, children])
          | @group opener opened closing cs inside =>
            have hstop : closing.stop - 1 = closing.start := by rw [hc.stop_closing]; rfl
            have hgives : Gives source vars (group opener opened cs (.closed closing))
                (source.slice first.start closing.start) := .fallback hbody missing
            rwa [← hstop] at hgives
      next => exact absurd h (by simp)

end

/-- What the walk lists if nothing stops it. -/
theorem flatten_of_mapM_met {cs : List Component} {splices : List (List Splice)}
    (h : cs.mapM (met source vars) = .ok splices) :
    splices.flatten = (cs.filter isVar).map
      fun c => ⟨⟨c.start, c.stop⟩, c.replacement source vars⟩ := by
  induction cs generalizing splices with
  | nil =>
    obtain rfl := Except.ok.inj h
    rfl
  | cons c cs ih =>
    rw [List.mapM_cons] at h
    obtain ⟨first, hfirst, h⟩ := exists_of_bind_eq_ok h
    obtain ⟨rest, hrest, h⟩ := exists_of_bind_eq_ok h
    obtain rfl := Except.ok.inj h
    rw [List.flatten_cons, ih hrest, (eq_of_met_eq_ok hfirst).1, List.filter_cons]
    split <;> rfl

/-- **The walk ends early at the first component that stops it.** -/
theorem mapM_met_eq_error_iff {cs : List Component} {problem : ResolveProblem}
    (horder : cs.Pairwise StandsBefore) :
    cs.mapM (met source vars) = .error problem ↔
      ∃ c ∈ cs, c.Stops vars problem ∧ ∀ d ∈ cs, ∀ problem', d.Stops vars problem' →
        c.start ≤ d.start := by
  have hsplit : ∀ {problem}, cs.mapM (met source vars) = .error problem →
      ∃ c ∈ cs, c.Stops vars problem ∧ ∀ d ∈ cs, ∀ problem', d.Stops vars problem' →
        d = c ∨ c.start < d.start := by
    intro problem h
    obtain ⟨before, c, after, rfl, hbefore, hc⟩ := exists_split_of_mapM_eq_error h
    refine ⟨c, List.mem_append_right _ List.mem_cons_self, met_eq_error_iff.mp hc,
      fun d hd problem' hstops => ?_⟩
    rcases List.mem_append.mp hd with hd | hd
    · obtain ⟨splices, hmet⟩ := hbefore d hd
      exact absurd (hmet.symm.trans (met_eq_error_iff.mpr hstops)) (by simp)
    · refine (List.mem_cons.mp hd).imp_right fun hd => ?_
      have hbehind := (List.pairwise_append.mp horder).2.1
      exact ((List.pairwise_cons.mp hbehind).1 d hd).1
  constructor
  · intro h
    obtain ⟨c, hc, hstops, hfirst⟩ := hsplit h
    refine ⟨c, hc, hstops, fun d hd problem' hd' => ?_⟩
    rcases hfirst d hd problem' hd' with rfl | hlt
    · exact le_rfl
    · exact hlt.le
  · rintro ⟨c, hc, hstops, hfirst⟩
    have hrefused : met source vars c = .error problem := met_eq_error_iff.mpr hstops
    cases hwalk : cs.mapM (met source vars) with
    | ok splices =>
      obtain ⟨splice, hmet⟩ := exists_of_mapM_eq_ok hwalk c hc
      exact absurd (hmet.symm.trans hrefused) (by simp)
    | error problem' =>
      -- The walk ends at some component, and `c` is no earlier than that and no later.
      obtain ⟨d, hd, hdstops, hdfirst⟩ := hsplit hwalk
      rcases hdfirst c hc problem hstops with rfl | hlt
      · have hmet : met source vars c = .error problem' := met_eq_error_iff.mpr hdstops
        exact congrArg Except.error (Except.error.inj (hmet.symm.trans hrefused))
      · exact absurd (hfirst d hd problem' hdstops) (Nat.not_le_of_lt hlt)

end Component

end Styling
