import Styling.Grammar.Leaf
import Styling.Proofs.Syntax.Subtree
import Styling.Variable.Substitution

/-!
# The brackets of a written color

A color may be written as a call, and then the text of the call is cut into tokens anew.  What is
accepted there has numbers, percentages and commas between its brackets and nothing else, so it has
no mark and at most one closing bracket.  Without marks the scanner of colors finds the tokens of
the style language.  So if a group of a value is accepted as a color, the one closing bracket in it
is its own, and none is left over inside.

* `Color.isArgument_of_ofCall` and `Paint.special_tokens_of_ofComponent` are about what is accepted.
* `lexemesFrom_scanColorToken` compares the two scanners.
* `Grammar.hasStray_of_paint` is the statement about components of a value.
-/

namespace Styling

namespace TokenKind

/-- The kind is a closing bracket. -/
def isClosing : TokenKind → Bool
  | closing _ => true
  | _ => false

/-- The kind is a mark. -/
def isMark : TokenKind → Bool
  | delim _ => true
  | _ => false

/-- The kind can stand between the brackets of a written color. -/
def isArgument : TokenKind → Bool
  | number _ | percentage _ | comma | whitespace _ => true
  | _ => false

end TokenKind

namespace Component

/-! ## Tokens with a property -/

/-- The tokens of some components whose kinds satisfy `p`. -/
def tokensOf (p : TokenKind → Bool) (cs : List Component) : List Token :=
  (listTokens cs).filter (p ·.kind)

@[simp] theorem tokensOf_nil (p : TokenKind → Bool) : tokensOf p [] = [] := by
  rw [tokensOf, listTokens, List.filter_nil]

theorem tokensOf_cons (p : TokenKind → Bool) (c : Component) (cs : List Component) :
    tokensOf p (c :: cs) = tokensOf p [c] ++ tokensOf p cs := by
  simp only [tokensOf, listTokens, List.filter_append, List.append_nil]

theorem tokensOf_eq_nil_of_isTokenOf {p q : TokenKind → Bool} (hpq : ∀ k, q k = true → p k = false)
    {cs : List Component} (h : ∀ c ∈ cs, c.isTokenOf q = true) : tokensOf p cs = [] := by
  induction cs with
  | nil => exact tokensOf_nil p
  | cons c cs ih =>
    rw [tokensOf_cons, ih fun d hd => h d (List.mem_cons_of_mem c hd), List.append_nil]
    have hc := h c List.mem_cons_self
    cases c with
    | token t => simp [tokensOf, listTokens, tokens, hpq _ hc]
    | group opener opened cs ending => exact absurd hc Bool.false_ne_true

/-- Whitespace can be left out where none is looked for. -/
theorem tokensOf_filter {p : TokenKind → Bool} (hp : ∀ content, p (.whitespace content) = false)
    (cs : List Component) : tokensOf p (cs.filter fun c => !c.isWhitespace) = tokensOf p cs := by
  induction cs with
  | nil => rfl
  | cons c cs ih =>
    rw [List.filter_cons, tokensOf_cons p c cs]
    split
    next => rw [tokensOf_cons, ih]
    next h =>
      have hc : c.isWhitespace = true := by simpa using h
      have hnone : tokensOf p [c] = [] := by
        refine tokensOf_eq_nil_of_isTokenOf (q := TokenKind.isWhitespace) (fun k hk => ?_)
          fun d hd => List.mem_singleton.mp hd ▸ hc
        cases k with
        | whitespace content => exact hp content
        | _ => exact absurd hk Bool.false_ne_true
      rw [ih, hnone, List.nil_append]

mutual

/-- A stray closing bracket is one of the tokens. -/
theorem exists_isClosing_of_hasStray {c : Component} (h : c.hasStray = true) :
    ∃ t ∈ c.tokens, t.kind.isClosing = true := by
  cases c with
  | token t =>
    obtain ⟨kind, span⟩ := t
    rw [hasStray] at h
    refine ⟨⟨kind, span⟩, by simp [tokens], ?_⟩
    cases kind with
    | closing b => rfl
    | _ => exact absurd h (by simp [isStray])
  | group opener opened cs ending =>
    rw [hasStray] at h
    obtain ⟨t, ht, hclosing⟩ := exists_isClosing_of_listHasStray h
    simp only [tokens]
    exact ⟨t, List.mem_cons_of_mem _ (List.mem_append_left _ ht), hclosing⟩

theorem exists_isClosing_of_listHasStray {cs : List Component} (h : listHasStray cs = true) :
    ∃ t ∈ listTokens cs, t.kind.isClosing = true := by
  cases cs with
  | nil => exact absurd h (by simp [listHasStray])
  | cons c cs =>
    rw [listHasStray] at h
    rw [listTokens]
    rcases Bool.or_eq_true_iff.mp h with h | h
    · obtain ⟨t, ht, hclosing⟩ := exists_isClosing_of_hasStray h
      exact ⟨t, List.mem_append_left _ ht, hclosing⟩
    · obtain ⟨t, ht, hclosing⟩ := exists_isClosing_of_listHasStray h
      exact ⟨t, List.mem_append_right _ ht, hclosing⟩

end

end Component

/-! ## What is accepted as a color -/

namespace Color

/-- The components of a call are arguments and commas. -/
theorem mem_or_isComma_of_arguments? {cs args : List Component} (h : arguments? cs = some args) :
    ∀ c ∈ cs, c ∈ args ∨ c.isComma = true := by
  fun_induction arguments? cs generalizing args with
  | case1 => exact absurd h (by simp)
  | case2 a =>
    obtain rfl := Option.some_inj.mp h
    exact fun c hc => Or.inl hc
  | case3 a d rest hcomma ih =>
    obtain ⟨more, hmore, rfl⟩ := Option.map_eq_some_iff.mp h
    intro c hc
    rcases List.mem_cons.mp hc with rfl | hc
    · exact Or.inl List.mem_cons_self
    rcases List.mem_cons.mp hc with rfl | hc
    · exact Or.inr hcomma
    · exact (ih hmore c hc).imp (List.mem_cons_of_mem a) id
  | case4 => exact absurd h (by simp)

variable {a b c d : Component} {alpha : Float} {color : Color}

theorem isArgument_of_number? {q : Quantity} (h : number? a = some q) :
    a.isTokenOf TokenKind.isArgument = true := by
  unfold number? at h
  split at h
  next => rfl
  next => exact absurd h (by simp)

theorem isArgument_of_integer? {n : Int} (h : integer? a = some n) :
    a.isTokenOf TokenKind.isArgument = true := by
  unfold integer? at h
  split at h
  next => rfl
  next => exact absurd h (by simp)

theorem isArgument_of_percentage? {x : Float} (h : percentage? a = some x) :
    a.isTokenOf TokenKind.isArgument = true := by
  unfold percentage? at h
  split at h
  next => rfl
  next => exact absurd h (by simp)

theorem isArgument_of_alpha? {x : Float} (h : alpha? a = some x) :
    a.isTokenOf TokenKind.isArgument = true := by
  obtain ⟨q, hq, -⟩ := Option.map_eq_some_iff.mp h
  exact isArgument_of_number? hq

theorem isArgument_of_ofRgb (h : ofRgb a b c alpha = .ok (some color)) :
    ∀ x ∈ [a, b, c], x.isTokenOf TokenKind.isArgument = true := by
  simp only [List.mem_cons, List.not_mem_nil, or_false, forall_eq_or_imp, forall_eq]
  unfold ofRgb at h
  split at h
  next hred hgreen hblue =>
    exact ⟨isArgument_of_integer? hred, isArgument_of_integer? hgreen, isArgument_of_integer? hblue⟩
  next =>
    split at h
    next hred hgreen hblue =>
      exact ⟨isArgument_of_percentage? hred, isArgument_of_percentage? hgreen,
        isArgument_of_percentage? hblue⟩
    next => exact absurd h (by simp)

theorem isArgument_of_ofHsl (h : ofHsl a b c alpha = some color) :
    ∀ x ∈ [a, b, c], x.isTokenOf TokenKind.isArgument = true := by
  simp only [List.mem_cons, List.not_mem_nil, or_false, forall_eq_or_imp, forall_eq]
  unfold ofHsl at h
  split at h
  next hhue hsaturation hlightness =>
    exact ⟨isArgument_of_number? hhue, isArgument_of_percentage? hsaturation,
      isArgument_of_percentage? hlightness⟩
  next => exact absurd h (by simp)

/-- The arguments of a call that is a color are numbers and percentages. -/
theorem isArgument_of_ofCall {name : String} {args : List Component}
    (h : ofCall name args = .ok (some color)) :
    ∀ x ∈ args, x.isTokenOf TokenKind.isArgument = true := by
  unfold ofCall at h
  split at h
  next =>
    split at h
    next => exact isArgument_of_ofRgb h
    next =>
      split at h
      next => exact isArgument_of_ofHsl (Except.ok.inj h)
      next => exact absurd h (by simp)
  next a b c d =>
    split at h
    next => exact absurd h (by simp)
    next alpha halpha =>
      have hlast := isArgument_of_alpha? halpha
      have hall : (∀ x ∈ [a, b, c], x.isTokenOf TokenKind.isArgument = true) →
          ∀ x ∈ [a, b, c, d], x.isTokenOf TokenKind.isArgument = true := by
        intro hfirst x hx
        rcases List.mem_append.mp (show x ∈ [a, b, c] ++ [d] from hx) with hx | hx
        · exact hfirst x hx
        · rwa [List.mem_singleton.mp hx]
      split at h
      next => exact hall (isArgument_of_ofRgb h)
      next =>
        split at h
        next => exact hall (isArgument_of_ofHsl (Except.ok.inj h))
        next => exact absurd h (by simp)
  next => exact absurd h (by simp)

end Color

namespace Paint

variable {p : Paint}

/-- Between the brackets of a call that is a color stand arguments only. -/
theorem isArgument_of_ofComponent {name : String} {opened : Span} {cs : List Component}
    {ending : Ending} (h : ofComponent (.group (.function name) opened cs ending) = .ok (some p)) :
    ∀ c ∈ cs, c.isTokenOf TokenKind.isArgument = true := by
  simp only [ofComponent] at h
  split at h
  next args hargs =>
    cases hcall : Color.ofCall (Text.lowercaseAscii name) args with
    | error f =>
      rw [hcall] at h
      exact absurd h (by simp [bind, Except.bind])
    | ok color =>
      cases color with
      | none =>
        rw [hcall] at h
        exact absurd h (by simp [bind, Except.bind, pure, Except.pure])
      | some color =>
        intro c hc
        cases hwhite : c.isWhitespace with
        | true =>
          cases c with
          | token t =>
            obtain ⟨kind, span⟩ := t
            cases kind with
            | whitespace content => rfl
            | _ => exact absurd hwhite Bool.false_ne_true
          | group opener opened cs ending => exact absurd hwhite Bool.false_ne_true
        | false =>
          have hmem : c ∈ cs.filter fun c => !c.isWhitespace :=
            List.mem_filter.mpr ⟨hc, by rw [hwhite]; rfl⟩
          rcases Color.mem_or_isComma_of_arguments? hargs c hmem with harg | hcomma
          · exact Color.isArgument_of_ofCall hcall c harg
          · cases c with
            | token t =>
              obtain ⟨kind, span⟩ := t
              cases kind with
              | comma => rfl
              | _ => exact absurd hcomma Bool.false_ne_true
            | group opener opened cs ending => exact absurd hcomma Bool.false_ne_true
  next => exact absurd h (by simp)

/-- A component that is a color has no mark and at most one closing bracket. -/
theorem special_tokens_of_ofComponent {c : Component} (h : ofComponent c = .ok (some p)) :
    Component.tokensOf TokenKind.isMark [c] = [] ∧
      (Component.tokensOf TokenKind.isClosing [c]).length ≤ 1 := by
  cases c with
  | token t =>
    obtain ⟨kind, span⟩ := t
    cases kind with
    | ident name => exact ⟨rfl, Nat.zero_le 1⟩
    | hash name isId => exact ⟨rfl, Nat.zero_le 1⟩
    | _ => exact absurd h (by simp [ofComponent])
  | group opener opened cs ending =>
    cases opener with
    | bracket b => exact absurd h (by simp [ofComponent])
    | function name =>
      have hcs := isArgument_of_ofComponent h
      have hmarks : Component.tokensOf TokenKind.isMark cs = [] :=
        Component.tokensOf_eq_nil_of_isTokenOf
          (fun k hk => by cases k <;> simp_all [TokenKind.isArgument, TokenKind.isMark]) hcs
      have hclosings : Component.tokensOf TokenKind.isClosing cs = [] :=
        Component.tokensOf_eq_nil_of_isTokenOf
          (fun k hk => by cases k <;> simp_all [TokenKind.isArgument, TokenKind.isClosing]) hcs
      rw [Component.tokensOf] at hmarks hclosings
      simp only [Component.tokensOf, Component.listTokens, Component.tokens, List.append_nil,
        List.filter_cons, List.filter_append, hmarks, hclosings]
      cases ending with
      | closed span => exact ⟨rfl, Nat.le_refl 1⟩
      | unclosed offset => exact ⟨rfl, Nat.zero_le 1⟩

end Paint

/-! ## Two scanners -/

/-- Where the scanner of colors finds no mark of its own, it finds what the style language has. -/
theorem scanColorToken_eq_or_isMark (c : Char) (cs : List Char) :
    scanColorToken c cs = scanToken c cs ∨ (scanColorToken c cs).kind.isMark = true := by
  simp only [scanColorToken]
  split
  next => exact Or.inr rfl
  next =>
    split
    next => exact Or.inr rfl
    next => exact Or.inl rfl

/-- A text in which the scanner of colors finds no mark has the tokens of the style language. -/
theorem lexemesFrom_scanColorToken {start : Nat} {cs : List Char}
    (h : ∀ l ∈ lexemesFrom scanColorToken start cs, l.token.kind.isMark = false) :
    lexemesFrom scanColorToken start cs = lexemesFrom scanToken start cs := by
  induction hn : cs.length using Nat.strongRecOn generalizing cs start with
  | ind n ih =>
    cases cs with
    | nil => rw [lexemesFrom_nil, lexemesFrom_nil]
    | cons c cs =>
      rw [lexemesFrom_cons] at h
      rcases scanColorToken_eq_or_isMark c cs with heq | hmark
      · rw [heq] at h
        have hshorter : (cs.drop (scanToken c cs).extra).length < n := by
          rw [← hn, List.length_drop, List.length_cons]
          omega
        rw [lexemesFrom_cons, lexemesFrom_cons, heq,
          ih _ hshorter (fun l hl => h l (List.mem_cons_of_mem _ hl)) rfl]
      · exact absurd (hmark.symm.trans (h _ List.mem_cons_self)) (by simp)

/-- A text that is a color has at most one closing bracket. -/
theorem Paint.length_closings_of_ofText {text : String} {p : Paint}
    (h : Paint.ofText text = .ok (some p)) :
    ((keptKinds scanToken (Source.ofString text).chars).filter TokenKind.isClosing).length ≤ 1 := by
  simp only [ofText, Source.componentsBy, Source.lexBy, bind, Except.bind, pure, Except.pure] at h
  generalize hlexemes : (Source.ofString text).lexemesBy scanColorToken = ls at h
  split at h
  next => exact absurd h (by simp)
  next parsed hparsed =>
    split at hparsed
    next => exact absurd hparsed (by simp)
    next lexed hlexed =>
      split at hlexed
      next => exact absurd hlexed (by simp)
      next =>
        obtain rfl := Except.ok.inj hlexed
        obtain rfl := Except.ok.inj hparsed
        dsimp only at h
        split at h
        next c hc =>
          obtain ⟨hmarks, hclosings⟩ := special_tokens_of_ofComponent h
          rw [← hc, Component.tokensOf_filter (fun _ => rfl), Component.tokensOf,
            Component.listTokens_ofTokens, Lexed.kept] at hmarks hclosings
          dsimp only at hmarks hclosings
          have hnone : ∀ l ∈ ls, l.token.kind.isMark = false := by
            intro l hl
            rw [Bool.eq_false_iff]
            intro hmark
            have hcomment : l.token.kind.isComment = false := by
              cases hkind : l.token.kind <;> simp_all [TokenKind.isMark, TokenKind.isComment]
            have hmem : l.token ∈ (ls.map (·.token)).filter fun t => !t.kind.isComment :=
              List.mem_filter.mpr ⟨List.mem_map_of_mem hl, by rw [hcomment]; rfl⟩
            exact List.filter_eq_nil_iff.mp hmarks l.token hmem hmark
          subst hlexemes
          rw [Source.lexemesBy, lexemesFrom_scanColorToken hnone] at hclosings
          rwa [keptKinds, filter_map_kind, List.filter_map, List.length_map]
        next => exact absurd h (by simp)

/-! ## Components of a value -/

/-- Text cut out of a source is normalized. -/
theorem Source.chars_ofString_slice {s : Source} (hnormal : ∀ c ∈ s.chars, Source.IsNormal c)
    (start stop : Nat) :
    (Source.ofString (s.slice start stop)).chars = s.sliceChars start stop := by
  rw [ofString, slice, String.toList_ofList, normalize_eq_self]
  intro c hc
  exact hnormal c (List.mem_of_mem_drop (List.mem_of_mem_take hc))

/-- A component that is accepted as a color looks like one, and its text is one. -/
theorem Grammar.ofText_of_paint {s : Source} {c : Component} {p : Paint}
    (h : Grammar.paint s c = .ok p) :
    mayBePaint c = true ∧ Paint.ofText (s.textOf c) = .ok (some p) := by
  simp only [paint, bind, Except.bind] at h
  split at h
  next => exact absurd h (by simp)
  next =>
    split at h
    next hmay =>
      cases hread : Paint.ofText (s.textOf c) with
      | error f =>
        rw [hread] at h
        exact absurd h (by simp [ReadError.ofFault])
      | ok o =>
        rw [hread] at h
        cases o with
        | none => exact absurd h (by simp [ReadError.ofFault, Leaf.unexpected])
        | some p' =>
          obtain rfl := Except.ok.inj h
          exact ⟨hmay, rfl⟩
    next => exact absurd h (by simp [Leaf.unexpected])

/-- **A component that is accepted as a color has no stray closing bracket.** -/
theorem Grammar.hasStray_of_paint {s : Source} (hnormal : ∀ c ∈ s.chars, Source.IsNormal c)
    (hsound : ∀ l ∈ s.lexemes, l.problem = none) {c : Component} (hc : s.Holds c) {p : Paint}
    (h : Grammar.paint s c = .ok p) : c.hasStray = false := by
  obtain ⟨hmay, hread⟩ := ofText_of_paint h
  cases c with
  | token t =>
    obtain ⟨kind, span⟩ := t
    rw [Component.hasStray]
    cases kind with
    | closing b => exact absurd hmay Bool.false_ne_true
    | _ => rfl
  | group opener opened cs ending =>
    obtain ⟨span, rfl⟩ : ∃ span, ending = .closed span := by
      cases hc.closed with
      | @group _ _ span _ inside => exact ⟨span, rfl⟩
    have hcount := Paint.length_closings_of_ofText hread
    rw [Source.textOf, Source.chars_ofString_slice hnormal] at hcount
    simp only [Component.start, Component.stop, Ending.stop] at hcount
    rw [hc.kinds_group hsound, List.filter_map, List.length_map] at hcount
    rw [Component.hasStray, Bool.eq_false_iff]
    intro hstray
    -- The bracket that closes the group is one, and a stray one would be another.
    obtain ⟨t, ht, hclosing⟩ := Component.exists_isClosing_of_listHasStray hstray
    have hmem : t ∈ (Component.listTokens cs).filter (TokenKind.isClosing ∘ (·.kind)) :=
      List.mem_filter.mpr ⟨ht, hclosing⟩
    have hpos := List.length_pos_of_mem hmem
    simp only [Component.tokens, List.filter_cons, List.filter_append] at hcount
    rw [if_neg (by cases opener <;> exact Bool.false_ne_true), List.length_append] at hcount
    simp only [Function.comp_apply, TokenKind.isClosing, if_true, List.filter_nil,
      List.length_singleton] at hcount
    omega

end Styling
