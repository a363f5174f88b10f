import Mathlib
import Styling.Proofs.Syntax.Phrases
import Styling.Proofs.Variable.Resolved

/-!
# Chains of references

The value of a custom property can be the call of another one, and so on.  Each pass replaces the
call that is left by the value of its name, so the name that is called after some passes is the one
that is reached by as many lookups.  A text without calls takes one pass more, which finds nothing
to replace; an undefined name is noticed by the pass that looks it up; and where the lookups never
come to an end, the passes end because there may not be more of them.

* `varReference` is the call of a name, and `substitute_varReference` what a pass does to it.
* `resolveFrom_of_replaced`, `resolveFrom_of_nothing` and `resolveFrom_of_refused` are about one
  pass more.
* `Variables.LooksUp` says which name is looked up at which point, and
  `Variables.LooksUp.resolveFrom_eq` what is left to the passes then.
* `resolve_varReference` tells for every limit what comes out.
-/

namespace Styling

/-! ## The call of a name -/

/-- The name of a custom property: two dashes, and then characters of identifiers. -/
def IsCustomName (name : String) : Prop :=
  ∃ cs : List Char, name.toList = '-' :: '-' :: cs ∧ ∀ c ∈ cs, isIdentChar c = true

instance (name : String) : Decidable (IsCustomName name) :=
  decidable_of_iff
      (name.toList.take 2 = ['-', '-'] ∧ (name.toList.drop 2).all isIdentChar = true) <| by
    constructor
    · rintro ⟨htake, hdrop⟩
      have hname := List.take_append_drop 2 name.toList
      rw [htake] at hname
      exact ⟨name.toList.drop 2, hname.symm, List.all_eq_true.mp hdrop⟩
    · rintro ⟨cs, hname, hcs⟩
      rw [hname]
      exact ⟨rfl, List.all_eq_true.mpr hcs⟩

/-- The text that calls a custom property. -/
def varReference (name : String) : String :=
  "var(" ++ name ++ ")"

namespace IsCustomName

variable {name : String}

theorem isIdentChar (h : IsCustomName name) : ∀ c ∈ name.toList, isIdentChar c = true := by
  obtain ⟨cs, hname, hcs⟩ := h
  rw [hname]
  exact List.forall_mem_cons.mpr ⟨by decide, List.forall_mem_cons.mpr ⟨by decide, hcs⟩⟩

/-- The two dashes are read as the start of an identifier. -/
theorem fits (h : IsCustomName name) {rest : List Char} (hrest : StopsWord rest) :
    (Written.ident name.toList).Fits scanToken rest := by
  refine Written.fits_identifier ⟨?_, h.isIdentChar⟩ hrest.stopsIdent
  obtain ⟨cs, hname, -⟩ := h
  rw [hname, startsIdent_cons]
  rfl

end IsCustomName

/-- The call of a name is left alone by normalization. -/
theorem IsCustomName.isNormalText {name : String} (h : IsCustomName name) :
    IsNormalText (varReference name).toList := by
  have hmark : ∀ c : Char, c = '(' ∨ c = ')' → IsNormalText [c] := by
    intro c hc d hd
    obtain rfl := List.mem_singleton.mp hd
    rcases hc with rfl | rfl <;> exact ⟨by decide, by decide, by decide⟩
  have hvar : IsNormalText ['v', 'a', 'r'] := Written.IsName.isNormalText (by decide)
  have hname : IsNormalText name.toList := fun c hc => isNormal_of_isIdentChar (h.isIdentChar c hc)
  have hchars : (varReference name).toList =
      ['v', 'a', 'r'] ++ (['('] ++ (name.toList ++ [')'])) := by
    simp [varReference]
  rw [hchars]
  exact isNormalText_append hvar (isNormalText_append (hmark '(' (by simp))
    (isNormalText_append hname (hmark ')' (by simp))))

/-- The call of a name is read as a `var()` call with the name inside. -/
theorem components_varReference {name : String} (h : IsCustomName name) :
    (Source.ofString (varReference name)).components = .ok ⟨[.group (.function "var") ⟨0, 4⟩
      [.token ⟨.ident name, ⟨4, 4 + name.toList.length⟩⟩]
      (.closed ⟨4 + name.toList.length, 4 + name.toList.length + 1⟩)], []⟩ := by
  have hfits : Written.ListFits scanToken [] [.call ['v', 'a', 'r'] [.ident name.toList]] :=
    ⟨Written.fits_call (by decide) ⟨h.fits (.closing _), trivial⟩, trivial⟩
  have hsource : Source.ofString (varReference name) =
      ⟨Written.listChars [.call ['v', 'a', 'r'] [.ident name.toList]]⟩ := by
    refine congrArg Source.mk ((Source.normalize_eq_self h.isNormalText).trans ?_)
    simp [varReference, Written.listChars, Written.chars, Written.ident]
  rw [hsource, Source.components, Written.componentsBy hfits]
  simp [Written.listComponents, Written.component, Written.ident, Written.listChars,
    Written.chars, String.ofList_toList]

/-! ## One pass more -/

section Passes

variable {vars : Variables} {text : String}

/-- A text that a pass refuses is not resolved. -/
theorem resolveFrom_of_refused {problem : ResolveProblem}
    (h : substitute text vars = .ok (.error problem)) (n : Nat) :
    (resolveFrom vars text (n + 1)).result = .ok (.error problem) := by
  rw [resolveFrom, Traced.result_bind, Traced.ofExcept_result, h]
  rfl

/-- A text in which a pass replaces nothing is resolved. -/
theorem resolveFrom_of_nothing {t : String} (h : substitute text vars = .ok (.ok (t, 0)))
    (n : Nat) : (resolveFrom vars text (n + 1)).result = .ok (.ok text) := by
  rw [resolveFrom, Traced.result_bind, Traced.ofExcept_result, h]
  rfl

/-- A text in which a pass replaces something is resolved as what comes out is, with one pass
less. -/
theorem resolveFrom_of_replaced {t : String} {count : Nat} (hcount : count ≠ 0)
    (h : substitute text vars = .ok (.ok (t, count))) (n : Nat) :
    (resolveFrom vars text (n + 1)).result = (resolveFrom vars t n).result := by
  rw [resolveFrom, Traced.result_bind, Traced.ofExcept_result, h]
  simp only [bind, Except.bind, if_neg hcount]
  rfl

/-- What the passes end with, if they end, tells what is made of the text as it was written. -/
theorem resolve_of_resolveFrom {limit : Nat} {result : Except ResolveProblem String}
    (h : (resolveFrom vars text limit).result = .ok result) (location : Location) :
    (resolve text location vars limit).result =
      .ok (result.mapError fun problem => ⟨problem, text, location⟩) := by
  rw [resolve, Int.toNat_natCast, Traced.result_bind, h]
  cases result <;> rfl

end Passes

/-! ## The pass over the call of a name -/

section Call

variable {vars : Variables} {x : String}

/-- The pass looks the name up. -/
theorem substitute_varReference (hx : IsCustomName x) (vars : Variables) :
    substitute (varReference x) vars =
      .ok (match vars.lookup x with
        | some value => .ok (value, 1)
        | none => .error .unresolved) := by
  have hchars : (Source.ofString (varReference x)).chars = (varReference x).toList :=
    Source.normalize_eq_self hx.isNormalText
  have hlength : (varReference x).toList.length = 4 + x.toList.length + 1 := by
    simp [varReference]
    omega
  have hopener : (Opener.function "var").isFunction "var" = true := by cbv
  have hcall (span : Span) : Component.varCall? [.token ⟨.ident x, span⟩] = some ⟨x, none⟩ := rfl
  simp only [substitute, bind, Except.bind, components_varReference hx, Component.listSplices,
    Component.splices, if_pos hopener, Component.varReplacement, hcall, hchars]
  cases vars.lookup x with
  | none => rfl
  | some value =>
    have hrender : Splice.render 0 (varReference x).toList
        [⟨⟨0, 4 + x.toList.length + 1⟩, value⟩] = value.toList := by
      simp [Splice.render, ← hlength]
    simp [Component.listHasStray, Ending.stop, hrender, pure, Except.pure]

theorem substitute_varReference_of_found (hx : IsCustomName x) {value : String}
    (found : vars.lookup x = some value) :
    substitute (varReference x) vars = .ok (.ok (value, 1)) := by
  rw [substitute_varReference hx, found]

end Call

/-! ## Chains of lookups -/

/-- The text is read without syntax errors, has no `var()` call, and no closing bracket in it closes
nothing. -/
def IsPlainText (text : String) : Prop :=
  ∃ parsed, (Source.ofString text).components = .ok parsed ∧ parsed.errors = [] ∧
    Component.listContainsVar parsed.value = false ∧ Component.listHasStray parsed.value = false

/-- A pass replaces nothing in a plain text. -/
theorem IsPlainText.substitute {text : String} (h : IsPlainText text) (vars : Variables) :
    substitute text vars = .ok (.ok ((Source.ofString text).text, 0)) := by
  obtain ⟨parsed, hparsed, herrors, hvar, hstray⟩ := h
  rw [substitute_of_noVar hparsed herrors hvar, hstray, if_neg Bool.false_ne_true]

namespace Variables

/-- Every value is the call of a name or a plain text. -/
def IsReferential (vars : Variables) : Prop :=
  ∀ name value, vars.lookup name = some value →
    (∃ y, IsCustomName y ∧ value = varReference y) ∨ IsPlainText value

/-- A value that is found stands in one of the layers. -/
theorem exists_mem_of_lookup {vars : Variables} {name value : String}
    (h : vars.lookup name = some value) : ∃ layer ∈ vars.layers, (name, value) ∈ layer := by
  obtain ⟨layer, hlayer, hfound⟩ := List.exists_of_findSome?_eq_some h
  obtain ⟨before, after, hsplit, -⟩ := List.lookup_eq_some_iff.mp hfound
  refine ⟨layer, hlayer, List.mem_reverse.mp ?_⟩
  rw [hsplit]
  exact List.mem_append_right _ List.mem_cons_self

/-- From the call of `x` on, the `k`-th lookup is that of `y`. -/
inductive LooksUp (vars : Variables) (x : String) : Nat → String → Prop
  | first : vars.LooksUp x 1 x
  | next {k : Nat} {y z : String} (before : vars.LooksUp x k y) (name : IsCustomName z)
      (found : vars.lookup y = some (varReference z)) : vars.LooksUp x (k + 1) z

namespace LooksUp

variable {vars : Variables} {x y : String} {k : Nat}

theorem isCustomName (hx : IsCustomName x) (h : vars.LooksUp x k y) : IsCustomName y := by
  cases h with
  | first => exact hx
  | next before name found => exact name

/-- After the lookups before the one of `y`, the passes go on with the call of `y`. -/
theorem resolveFrom_eq (hx : IsCustomName x) (h : vars.LooksUp x k y) (n : Nat) :
    (resolveFrom vars (varReference x) (n + k)).result =
      (resolveFrom vars (varReference y) (n + 1)).result := by
  induction h generalizing n with
  | first => rfl
  | @next k y z before name found ih =>
    have hpass := substitute_varReference_of_found (before.isCustomName hx) found
    rw [← resolveFrom_of_replaced one_ne_zero hpass, ← ih, Nat.add_right_comm n 1 k]
    rfl

/-- A value that is found is what the passes go on with. -/
theorem resolveFrom_of_found (hx : IsCustomName x) (h : vars.LooksUp x k y) {value : String}
    (found : vars.lookup y = some value) (n : Nat) :
    (resolveFrom vars (varReference x) (n + k)).result = (resolveFrom vars value n).result := by
  rw [h.resolveFrom_eq hx]
  exact resolveFrom_of_replaced one_ne_zero
    (substitute_varReference_of_found (h.isCustomName hx) found) n

/-- Fewer passes than lookups are not enough. -/
theorem resolveFrom_of_lt (hx : IsCustomName x) (h : vars.LooksUp x k y) {limit : Nat}
    (hlimit : limit < k) :
    (resolveFrom vars (varReference x) limit).result = .ok (.error .depthExceeded) := by
  induction h with
  | first =>
    obtain rfl : limit = 0 := by omega
    rfl
  | @next k y z before name found ih =>
    rcases Nat.lt_succ_iff_lt_or_eq.mp hlimit with hlt | rfl
    · exact ih hlt
    · -- The pass that looks `y` up is the last one.
      have hlast := before.resolveFrom_of_found hx found 0
      rwa [Nat.zero_add] at hlast

/-- A plain text is found by the `k`-th pass, and one pass more has to confirm it. -/
theorem resolveFrom_of_plain (hx : IsCustomName x) (h : vars.LooksUp x k y) {text : String}
    (found : vars.lookup y = some text) (htext : IsPlainText text) (limit : Nat) :
    (resolveFrom vars (varReference x) limit).result =
      .ok (if k + 1 ≤ limit then .ok text else .error .depthExceeded) := by
  rcases Nat.lt_or_ge limit k with hlt | hle
  · rw [h.resolveFrom_of_lt hx hlt, if_neg (by omega)]
  · obtain ⟨n, rfl⟩ := Nat.exists_eq_add_of_le' hle
    rw [h.resolveFrom_of_found hx found]
    cases n with
    | zero =>
      rw [if_neg (by omega)]
      rfl
    | succ n => rw [resolveFrom_of_nothing (htext.substitute vars), if_pos (by omega)]

/-- The `k`-th pass notices that a name is undefined. -/
theorem resolveFrom_of_undefined (hx : IsCustomName x) (h : vars.LooksUp x k y)
    (missing : vars.lookup y = none) (limit : Nat) :
    (resolveFrom vars (varReference x) limit).result =
      .ok (.error (if k ≤ limit then .unresolved else .depthExceeded)) := by
  rcases Nat.lt_or_ge limit k with hlt | hle
  · rw [h.resolveFrom_of_lt hx hlt, if_neg (by omega)]
  · obtain ⟨n, rfl⟩ := Nat.exists_eq_add_of_le' hle
    have hpass := substitute_varReference (h.isCustomName hx) vars
    rw [missing] at hpass
    rw [h.resolveFrom_eq hx, resolveFrom_of_refused hpass, if_pos hle]

/-- Lookups follow each other. -/
theorem trans {z : String} {j : Nat} (h : vars.LooksUp x (j + 1) y) (h' : vars.LooksUp y k z) :
    vars.LooksUp x (j + k) z := by
  induction h' with
  | first => exact h
  | next before name found ih => exact ih.next name found

/-- In front of a lookup there are as many others as its number says. -/
theorem exists_of_le (h : vars.LooksUp x k y) {j : Nat} (hpos : 0 < j) (hle : j ≤ k) :
    ∃ z, vars.LooksUp x j z := by
  induction h with
  | first =>
    obtain rfl : j = 1 := by omega
    exact ⟨x, .first⟩
  | @next k y z before name found ih =>
    rcases Nat.le_succ_iff.mp hle with hle | rfl
    · exact ih hle
    · exact ⟨z, before.next name found⟩

/-- Where a name leads to itself, the lookups never end. -/
theorem forever {j : Nat} (h : vars.LooksUp x (j + 1) y) (hcycle : vars.LooksUp y (k + 2) y)
    (n : Nat) : ∃ z, vars.LooksUp x (n + 1) z := by
  -- The name is looked up once in every round.
  have hround : ∀ m, vars.LooksUp x (j + m * (k + 1) + 1) y := by
    intro m
    induction m with
    | zero => simpa using h
    | succ m ih =>
      have hmore := ih.trans hcycle
      rwa [show j + m * (k + 1) + (k + 2) = j + (m + 1) * (k + 1) + 1 by ring] at hmore
  refine (hround n).exists_of_le (Nat.succ_pos n) (Nat.succ_le_succ ?_)
  calc n ≤ n * (k + 1) := Nat.le_mul_of_pos_right n (Nat.succ_pos k)
    _ ≤ j + n * (k + 1) := Nat.le_add_left _ j

end LooksUp

/-- Lookups find a plain text or an undefined name, or they never end. -/
theorem IsReferential.exists_lookup_or {vars : Variables} (hvars : vars.IsReferential)
    (x : String) :
    (∃ k y text, vars.LooksUp x k y ∧ vars.lookup y = some text ∧ IsPlainText text) ∨
      (∃ k y, vars.LooksUp x k y ∧ vars.lookup y = none) ∨
        ∀ k, ∃ y, vars.LooksUp x (k + 1) y := by
  by_contra hnone
  push Not at hnone
  obtain ⟨hplain, hdefined, k, hend⟩ := hnone
  have hmore : ∀ j, ∃ y, vars.LooksUp x (j + 1) y := by
    intro j
    induction j with
    | zero => exact ⟨x, .first⟩
    | succ j ih =>
      obtain ⟨y, hy⟩ := ih
      cases found : vars.lookup y with
      | none => exact absurd found (hdefined _ y hy)
      | some value =>
        rcases hvars y value found with ⟨z, hz, rfl⟩ | htext
        · exact ⟨z, hy.next hz found⟩
        · exact absurd htext (hplain _ y value hy found)
  obtain ⟨y, hy⟩ := hmore k
  exact hend y hy

end Variables

/-- **The limit cuts chains of references exactly.**  Where each value is the call of a name or a
plain text, the call of a name is resolved by following the lookups.  A text that is found by the
`k`-th lookup comes out if there may be `k + 1` passes, and an undefined name is noticed if there
may be `k`; with fewer passes, or where the lookups never end, the limit is exceeded.  There is no
other case, and every error has the text and the place that the passes started with. -/
theorem resolve_varReference {vars : Variables} (hvars : vars.IsReferential) {x : String}
    (hx : IsCustomName x) (location : Location) (limit : Nat) :
    let result := (resolve (varReference x) location vars limit).result
    (∀ k y text, vars.LooksUp x k y → vars.lookup y = some text → IsPlainText text →
      result = .ok (if k + 1 ≤ limit then .ok text
        else .error ⟨.depthExceeded, varReference x, location⟩)) ∧
    (∀ k y, vars.LooksUp x k y → vars.lookup y = none →
      result = .ok (.error
        ⟨if k ≤ limit then .unresolved else .depthExceeded, varReference x, location⟩)) ∧
    ((∀ k, ∃ y, vars.LooksUp x (k + 1) y) →
      result = .ok (.error ⟨.depthExceeded, varReference x, location⟩)) ∧
    ((∃ k y text, vars.LooksUp x k y ∧ vars.lookup y = some text ∧ IsPlainText text) ∨
      (∃ k y, vars.LooksUp x k y ∧ vars.lookup y = none) ∨
        ∀ k, ∃ y, vars.LooksUp x (k + 1) y) := by
  refine ⟨fun k y text h found htext => ?_, fun k y h missing => ?_, fun h => ?_,
    hvars.exists_lookup_or x⟩
  · have hpasses := h.resolveFrom_of_plain hx found htext limit
    rw [resolve_of_resolveFrom hpasses]
    split <;> rfl
  · rw [resolve_of_resolveFrom (h.resolveFrom_of_undefined hx missing limit)]
    rfl
  · obtain ⟨y, hy⟩ := h limit
    rw [resolve_of_resolveFrom (hy.resolveFrom_of_lt hx (Nat.lt_succ_self limit))]
    rfl

/-- A text that is reached by two lookups, a name that is undefined, and two that lead to each
other. -/
theorem resolve_varReference_ways :
    let vars : Variables := ⟨[[("--a", "var(--b)"), ("--b", "rgb(x)")],
      [("--c", "var(--none)"), ("--d", "var(--e)"), ("--e", "var(--d)")]]⟩
    (resolve (varReference "--a") .first vars 3).result = .ok (.ok "rgb(x)") ∧
    (resolve (varReference "--a") .first vars 2).result =
      .ok (.error ⟨.depthExceeded, varReference "--a", .first⟩) ∧
    (resolve (varReference "--c") .first vars 2).result =
      .ok (.error ⟨.unresolved, varReference "--c", .first⟩) ∧
    ∀ limit : Nat, (resolve (varReference "--d") .first vars limit).result =
      .ok (.error ⟨.depthExceeded, varReference "--d", .first⟩) := by
  intro vars
  have hplain : IsPlainText "rgb(x)" := by
    refine ⟨⟨[.group (.function "rgb") ⟨0, 4⟩ [.token ⟨.ident "x", ⟨4, 5⟩⟩] (.closed ⟨5, 6⟩)], []⟩,
      ?_, rfl, ?_, ?_⟩ <;> cbv
  have ha : IsCustomName "--a" := by decide
  have hb : IsCustomName "--b" := by decide
  have hc : IsCustomName "--c" := by decide
  have hnone : IsCustomName "--none" := by decide
  have hd : IsCustomName "--d" := by decide
  have he : IsCustomName "--e" := by decide
  have hvars : vars.IsReferential := by
    intro name value hfound
    obtain ⟨layer, hlayer, hentry⟩ := Variables.exists_mem_of_lookup hfound
    simp only [vars, List.mem_cons, List.not_mem_nil, or_false] at hlayer
    rcases hlayer with rfl | rfl <;>
      simp only [List.mem_cons, Prod.mk.injEq, List.not_mem_nil, or_false] at hentry
    · rcases hentry with ⟨-, rfl⟩ | ⟨-, rfl⟩
      · exact .inl ⟨_, hb, rfl⟩
      · exact .inr hplain
    · rcases hentry with ⟨-, rfl⟩ | ⟨-, rfl⟩ | ⟨-, rfl⟩
      · exact .inl ⟨_, hnone, rfl⟩
      · exact .inl ⟨_, he, rfl⟩
      · exact .inl ⟨_, hd, rfl⟩
  have hchain : vars.LooksUp "--a" 2 "--b" := .next .first hb (by decide)
  have hundefined : vars.LooksUp "--c" 2 "--none" := .next .first hnone (by decide)
  have hcycle : vars.LooksUp "--d" 3 "--d" := .next (.next .first he (by decide)) hd (by decide)
  obtain ⟨hthree, -⟩ := resolve_varReference hvars ha .first 3
  obtain ⟨htwo, -⟩ := resolve_varReference hvars ha .first 2
  obtain ⟨-, hmissing, -⟩ := resolve_varReference hvars hc .first 2
  refine ⟨hthree 2 _ _ hchain (by decide) hplain, htwo 2 _ _ hchain (by decide) hplain,
    hmissing 2 _ hundefined (by decide), fun limit => ?_⟩
  obtain ⟨-, -, hforever, -⟩ := resolve_varReference hvars hd .first limit
  exact hforever (hcycle.forever hcycle)

end Styling
