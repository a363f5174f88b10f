import Styling.Proofs.Syntax.Cutting
import Styling.Proofs.Syntax.Tokens
import Styling.Variable.Substitution

/-!
# Substitution keeps the text before the first `var()` call

What stands before the first `var()` call of a text stays there in every pass.  A pass replaces
calls, and the calls of later passes stand behind the first one as well: a token that was put
together where the call stood is no function, since an identifier could not end there.

* `IsBeforeCall` says that a text is what stands before the first call of another.
* `exists_isBeforeCall` cuts a text before its first call.
* `IsBeforeCall.exists_append_of_substitute` is about one pass, and
  `IsBeforeCall.exists_append_of_resolveFrom` about all of them.
-/

namespace Styling

/-! ## Before the first call -/

theorem TokenKind.isFunction_of_opensVar {kind : TokenKind} (h : kind.opensVar = true) :
    kind.isFunction = true := by
  cases kind with
  | function name => rfl
  | _ => exact absurd h Bool.false_ne_true

theorem TokenKind.isComment_of_opensVar {kind : TokenKind} (h : kind.opensVar = true) :
    kind.isComment = false := by
  cases kind with
  | function name => rfl
  | _ => exact absurd h Bool.false_ne_true

/-- The text `as` stands before the first `var()` call of `as ++ xs`. -/
structure IsBeforeCall (xs as : List Char) : Prop where
  cut : IsCut xs as
  normal : ∀ c ∈ as, Source.IsNormal c
  noCall : ∀ l ∈ lexemesFrom scanToken 0 as, l.token.kind.opensVar = false
  call : startsIdent xs = true

/-- A text with a `var()` call is cut before the first one. -/
theorem exists_isBeforeCall {s : Source} {after before : List Lexeme} {l : Lexeme}
    (hnormal : ∀ c ∈ s.chars, Source.IsNormal c) (hsplit : s.lexemes = before ++ l :: after)
    (hsound : ∀ l ∈ s.lexemes, l.problem = none) (hvar : l.token.kind.opensVar = true)
    (hfirst : ∀ k ∈ before, k.token.kind.opensVar = false) :
    ∃ as xs, s.chars = as ++ xs ∧ IsBeforeCall xs as ∧ lexemesFrom scanToken 0 as = before ∧
      l.token.start = as.length := by
  have hbefore : ∀ k ∈ before, k.problem = none := by
    intro k hk
    refine hsound k ?_
    rw [hsplit]
    exact List.mem_append_left _ hk
  obtain ⟨as, xs, hchars, hcut, has, hxs⟩ := exists_isCut hsplit hbefore
  rw [Nat.zero_add] at hxs
  cases xs with
  | nil => exact absurd hxs (by simp)
  | cons x xs =>
    rw [lexemesFrom_cons] at hxs
    obtain ⟨rfl, -⟩ := List.cons.inj hxs
    have hfunction := TokenKind.isFunction_of_opensVar hvar
    refine ⟨as, x :: xs, hchars, ⟨hcut, fun c hc => hnormal c ?_, ?_, ?_⟩, has, rfl⟩
    · rw [hchars]
      exact List.mem_append_left _ hc
    · rw [has]
      exact hfirst
    · exact (startsIdent_of_isIdentLike (TokenKind.isIdentLike_of_isFunction hfunction)).1

namespace IsBeforeCall

variable {as xs : List Char}

/-- Whatever is put behind the text, no `var()` call starts in it. -/
theorem le_start (h : IsBeforeCall xs as) {ys : List Char}
    (hsound : ∀ l ∈ lexemesFrom scanToken 0 (as ++ ys), l.problem = none) :
    ∀ l ∈ lexemesFrom scanToken 0 (as ++ ys), l.token.kind.opensVar = true →
      as.length ≤ l.token.start := by
  intro l hl hvar
  obtain ⟨before, middle, bs, hmiddle, hcut, hys, has, hcross⟩ := h.cut.exists_common ys 0 hsound
  rw [Nat.zero_add] at hmiddle
  rw [hys] at hl
  rcases List.mem_append.mp hl with hl | hl
  · have hnone := h.noCall l (has ▸ List.mem_append_left _ hl)
    exact absurd (hnone.symm.trans hvar) Bool.false_ne_true
  cases bs with
  | nil =>
    have hstart := (le_start_of_mem_lexemesFrom hl).1
    rwa [← hmiddle]
  | cons b bs =>
    have hlt := hcross b bs rfl
    rw [List.cons_append, lexemesFrom_cons] at hl
    rcases List.mem_cons.mp hl with rfl | hl
    · -- The token that goes on beyond the text is no function.
      cases hcut with
      | cons extra problem rest =>
        have hkind := isFunction_of_crosses h.call extra hlt
        exact absurd (hkind.symm.trans (TokenKind.isFunction_of_opensVar hvar)) Bool.false_ne_true
    · have hstart := (le_start_of_mem_lexemesFrom hl).1
      rw [← hmiddle, List.length_cons]
      omega

end IsBeforeCall

/-! ## Replacements -/

/-- Replacements behind a text leave it alone. -/
theorem Splice.exists_append_of_render {as ys : List Char} {ss : List Splice}
    (h : ∀ s ∈ ss, as.length ≤ s.span.start) :
    ∃ ys', Splice.render 0 (as ++ ys) ss = as ++ ys' := by
  cases ss with
  | nil => exact ⟨ys, rfl⟩
  | cons s ss =>
    have hstart := h s List.mem_cons_self
    rw [render, Nat.sub_zero, List.take_append, List.take_of_length_le hstart, List.append_assoc,
      List.append_assoc]
    exact ⟨_, rfl⟩

namespace Component

variable {source : Source} {vars : Variables}

mutual

/-- What is replaced is a `var()` call, from the token that opens it. -/
theorem exists_opensVar_of_splices {c : Component} {ss : List Splice}
    (h : c.splices source vars = .ok ss) {s : Splice} (hs : s ∈ ss) :
    ∃ t ∈ c.tokens, t.kind.opensVar = true ∧ t.start = s.span.start := by
  cases c with
  | token t =>
    rw [splices] at h
    split at h
    next => exact absurd h (by simp)
    next =>
      obtain rfl := Except.ok.inj h
      exact absurd hs List.not_mem_nil
  | group opener opened cs ending =>
    rw [splices] at h
    simp only [tokens]
    split at h
    next hvar =>
      refine ⟨_, List.mem_cons_self, ?_⟩
      split at h
      next =>
        obtain rfl := Except.ok.inj h
        rw [List.mem_singleton.mp hs]
        cases opener with
        | function name => exact ⟨hvar, rfl⟩
        | bracket b => exact absurd hvar Bool.false_ne_true
      next => exact absurd h (by simp)
    next =>
      obtain ⟨t, ht, hopens⟩ := exists_opensVar_of_listSplices h hs
      exact ⟨t, List.mem_cons_of_mem _ (List.mem_append_left _ ht), hopens⟩

theorem exists_opensVar_of_listSplices {cs : List Component} {ss : List Splice}
    (h : listSplices source vars cs = .ok ss) {s : Splice} (hs : s ∈ ss) :
    ∃ t ∈ listTokens cs, t.kind.opensVar = true ∧ t.start = s.span.start := by
  cases cs with
  | nil =>
    rw [listSplices] at h
    obtain rfl := Except.ok.inj h
    exact absurd hs List.not_mem_nil
  | cons c cs =>
    rw [listSplices] at h
    rw [listTokens]
    split at h
    next => exact absurd h (by simp)
    next first hfirst =>
      split at h
      next => exact absurd h (by simp)
      next rest hrest =>
        obtain rfl := Except.ok.inj h
        rcases List.mem_append.mp hs with hs | hs
        · obtain ⟨t, ht, hopens⟩ := exists_opensVar_of_splices hfirst hs
          exact ⟨t, List.mem_append_left _ ht, hopens⟩
        · obtain ⟨t, ht, hopens⟩ := exists_opensVar_of_listSplices hrest hs
          exact ⟨t, List.mem_append_right _ ht, hopens⟩

end

end Component

/-- What a pass does to a text that is read without errors. -/
theorem substitute_eq_ok {text expanded : String} {vars : Variables} {count : Nat}
    (h : substitute text vars = .ok (.ok (expanded, count))) :
    ∃ parsed ss, (Source.ofString text).components = .ok parsed ∧ parsed.errors = [] ∧
      Component.listSplices (Source.ofString text) vars parsed.value = .ok ss ∧
      expanded = String.ofList (Splice.render 0 (Source.ofString text).chars ss) ∧
      count = ss.length := by
  simp only [substitute, bind, Except.bind] at h
  split at h
  next => exact absurd h (by simp)
  next parsed hparsed =>
    split at h
    next => exact absurd h (by simp [pure, Except.pure])
    next herrors =>
      split at h
      next => exact absurd h (by simp [pure, Except.pure])
      next ss hss =>
        simp only [pure, Except.pure, Except.ok.injEq, Prod.mk.injEq] at h
        have hempty : parsed.errors = [] := by
          cases herr : parsed.errors with
          | nil => rfl
          | cons e es => exact absurd (by rw [herr]; rfl) herrors
        exact ⟨parsed, ss, hparsed, hempty, hss, h.1.symm, h.2.symm⟩

/-- The text of all passes is that of the repetition. -/
theorem resolveFrom_of_resolve {raw t : String} {location : Location} {vars : Variables}
    {limit : Int} (h : (resolve raw location vars limit).result = .ok (.ok t)) :
    (resolveFrom vars raw limit.toNat).result = .ok (.ok t) := by
  rw [resolve, Traced.bind_result_eq_ok] at h
  obtain ⟨result, hresult, h⟩ := h
  cases result with
  | error problem => exact absurd h (by simp)
  | ok text =>
    obtain rfl := Except.ok.inj (Except.ok.inj h)
    exact hresult

namespace IsBeforeCall

variable {as xs : List Char}

/-- A pass keeps the text before the first call. -/
theorem exists_append_of_substitute (h : IsBeforeCall xs as) {text expanded : String}
    {vars : Variables} {count : Nat}
    (hsubstitute : substitute text vars = .ok (.ok (expanded, count)))
    (htext : ∃ ys, Source.normalize text.toList = as ++ ys) :
    ∃ ys, Source.normalize expanded.toList = as ++ ys := by
  obtain ⟨parsed, ss, hparsed, herrors, hss, rfl, -⟩ := substitute_eq_ok hsubstitute
  obtain ⟨ys, hys⟩ := htext
  obtain ⟨hsound, hvalue, -⟩ := Source.components_eq_ok hparsed herrors
  have hchars : (Source.ofString text).chars = as ++ ys := hys
  have hbehind : ∀ s ∈ ss, as.length ≤ s.span.start := by
    intro s hs
    obtain ⟨t, ht, hvar, hstart⟩ := Component.exists_opensVar_of_listSplices hss hs
    rw [hvalue, Component.listTokens_ofTokens] at ht
    obtain ⟨l, hl, rfl⟩ := List.mem_map.mp (List.mem_filter.mp ht).1
    rw [Source.lexemes, Source.lexemesBy, hchars] at hl hsound
    rw [← hstart]
    exact h.le_start hsound l hl hvar
  obtain ⟨ys', hys'⟩ := Splice.exists_append_of_render hbehind
  have hseam : as.getLast? ≠ some '\r' := fun hlast =>
    (h.normal _ (List.mem_of_getLast? hlast)).1 rfl
  rw [String.toList_ofList, hchars, hys', Source.normalize_append fun hlast => absurd hlast hseam,
    Source.normalize_eq_self h.normal]
  exact ⟨_, rfl⟩

/-- Repeated passes keep the text before the first call, and the last one finds no error. -/
theorem exists_append_of_resolveFrom (h : IsBeforeCall xs as) {text t : String} {vars : Variables}
    {limit : Nat} (hresolve : (resolveFrom vars text limit).result = .ok (.ok t))
    (htext : ∃ ys, Source.normalize text.toList = as ++ ys) :
    (∃ ys, Source.normalize t.toList = as ++ ys) ∧
      ∃ parsed, (Source.ofString t).components = .ok parsed ∧ parsed.errors = [] := by
  induction limit generalizing text with
  | zero => exact absurd hresolve (by simp [resolveFrom])
  | succ limit ih =>
    rw [resolveFrom, Traced.bind_result_eq_ok] at hresolve
    obtain ⟨pass, hpass, hresolve⟩ := hresolve
    rw [Traced.ofExcept_result] at hpass
    cases pass with
    | error e => exact absurd hresolve (by simp)
    | ok next =>
      obtain ⟨expanded, count⟩ := next
      dsimp only at hresolve
      split at hresolve
      next =>
        obtain rfl := Except.ok.inj (Except.ok.inj hresolve)
        obtain ⟨parsed, ss, hparsed, herrors, -⟩ := substitute_eq_ok hpass
        exact ⟨htext, parsed, hparsed, herrors⟩
      next =>
        obtain ⟨-, -, hnext⟩ := Traced.bind_result_eq_ok.mp hresolve
        exact ih hnext (h.exists_append_of_substitute hpass htext)

end IsBeforeCall

end Styling
