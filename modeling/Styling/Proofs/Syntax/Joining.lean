import Styling.Proofs.Syntax.Numbers
import Styling.Proofs.Syntax.Settling
import Styling.Proofs.Syntax.Slicing

/-!
# Joining two texts of rules

A text of rules that is empty, or ends with a closing curly bracket and is read without errors, can
be followed by any other text: the tokens, the components and the rules of the joined text are those
of the first text followed by those of the second, further on by the length of the first.

The bracket at the end is a token of its own.  It might be an escaped bracket inside a name, but
then the name would be the start of a rule without a block, which is an error.

* `IsClosing` says that no token, component or rule of a text goes on behind it, and
  `Source.isClosing_of_rules` when this is so.
* `Source.IsClosing.components_append` is about components, `Source.IsClosing.rules_append` about
  rules.
-/

namespace Styling

/-! ## What a list of rules ends with -/

/-- A token with which a list of rules may end, so that no rule is left unfinished. -/
def TokenKind.endsRules : TokenKind → Bool
  | whitespace _ | comment _ | commentOpen | commentClose | semicolon | closing .curly => true
  | _ => false

theorem TokenKind.endsRules_of_isComment {kind : TokenKind} (h : kind.isComment = true) :
    kind.endsRules = true := by
  cases kind with
  | comment content => rfl
  | _ => exact absurd h Bool.false_ne_true

/-- A component with which a list of rules may end. -/
def Component.endsRules : Component → Bool
  | token t => t.kind.endsRules
  | group (.bracket .curly) _ _ _ => true
  | group .. => false

/-- A closed component ends with a token of its kind. -/
theorem Component.Sits.exists_endsRules {around : Option Bracket} {c : Component}
    (h : c.Sits around) (hc : c.endsRules = true) :
    ∃ t, c.tokens.getLast? = some t ∧ t.kind.endsRules = true := by
  cases h with
  | @token _ t opens closes => exact ⟨t, by rw [tokens]; rfl, hc⟩
  | @group _ opener opened span cs inside =>
    refine ⟨⟨.closing opener.bracketKind, span⟩, ?_, ?_⟩
    · rw [tokens, ← List.cons_append, List.getLast?_append]
      rfl
    · cases opener with
      | function name => exact absurd hc Bool.false_ne_true
      | bracket b =>
        cases b with
        | curly => rfl
        | round | square => exact absurd hc Bool.false_ne_true

/-! ## The last token -/

section LastToken

variable {c : Char} {cs : List Char}

/-- A comment that is closed at the end of the text ends with a slash. -/
theorem getLast?_of_scanComment (hclosed : (scanComment cs).2 = true)
    (hall : cs.length ≤ (scanComment cs).1) : cs.getLast? = some '/' := by
  induction cs with
  | nil => exact absurd hclosed (by simp [scanComment])
  | cons a as ih =>
    rw [scanComment_cons] at hclosed hall
    split at hall
    next hend =>
      obtain ⟨bs, rfl⟩ := List.head?_eq_some_iff.mp hend.2
      rw [List.length_cons, List.length_cons] at hall
      obtain rfl := List.length_eq_zero_iff.mp (show bs.length = 0 by omega)
      rfl
    next hend =>
      rw [if_neg hend] at hclosed
      have hlast := ih hclosed (Nat.le_of_add_le_add_right hall)
      cases as with
      | nil => exact absurd hlast (by simp)
      | cons b bs => rw [List.getLast?_cons_cons, hlast]

/-- A token with which rules may end, which is read without problem and takes the given number of
further characters. -/
structure Scanned.EndsRules (n : Nat) (t : Scanned) : Prop where
  kind : t.kind.endsRules = true
  problem : t.problem = none
  extra : n ≤ t.extra

/-- A last token with which rules may end, and which ends with a bracket, is the bracket. -/
theorem eq_nil_of_endsRules (h : (scanToken c cs).EndsRules cs.length)
    (hlast : (c :: cs).getLast? = some '\x7d') : cs = [] := by
  have hmark : ∀ {ds : List Char} {a : Char}, (c :: ds).getLast? = some a → a ≠ '\x7d' →
      cs = ds → cs = [] := by
    rintro ds a hds ha rfl
    exact absurd (Option.some_inj.mp (hds.symm.trans hlast)) ha
  have hscan := scans_scanToken c cs
  generalize scanToken c cs = s at h hscan
  have hother : s.kind.endsRules = false → cs = [] :=
    fun hfalse => absurd (hfalse.symm.trans h.kind) Bool.false_ne_true
  cases hscan with
  | comment opened =>
    obtain ⟨ds, rfl⟩ := List.head?_eq_some_iff.mp opened.2
    have hclosed : (scanComment ds).2 = true := by
      by_contra hnot
      exact absurd h.problem (by simp [hnot])
    have hend := getLast?_of_scanComment hclosed (Nat.le_of_add_le_add_right h.extra)
    have hslash : (c :: '*' :: ds).getLast? = some '/' := by
      cases ds with
      | nil => exact absurd hend (by simp)
      | cons d ds => rwa [List.getLast?_cons_cons, List.getLast?_cons_cons]
    exact hmark hslash (by decide) rfl
  | quoted quote => exact hother (test_scanQuoted (fun _ => rfl) (fun _ => rfl) c cs)
  | hash sign => exact hother (test_scanHash (fun _ _ => rfl) (fun _ => rfl) cs)
  | numeric starts =>
    exact hother (test_scanNumeric (fun _ => rfl) (fun _ => rfl) (fun _ _ => rfl) (c :: cs))
  | commentClose mark =>
    exact hmark (a := '>') rfl (by decide) ((List.take_of_length_le h.extra).symm.trans mark.2)
  | commentOpen mark =>
    exact hmark (a := '-') rfl (by decide) ((List.take_of_length_le h.extra).symm.trans mark.2)
  | atKeyword starts => exact hother rfl
  | identLike starts unmarked =>
    exact hother (test_scanIdentLike (fun _ => rfl) (fun _ => rfl) (c :: cs))
  | backslash char => exact hother rfl
  | space blank =>
    have hspaces : cs.takeWhile isSpace = cs :=
      (List.takeWhile_prefix _).eq_of_length_le h.extra
    have hmem := List.mem_of_getLast? hlast
    rcases List.mem_cons.mp hmem with rfl | hmem
    · exact absurd blank (by decide)
    · exact absurd (List.takeWhile_eq_self_iff.mp hspaces _ hmem) (by decide)
  | _ => exact List.length_eq_zero_iff.mp (Nat.le_zero.mp h.extra)

end LastToken

/-! ## The machine that reads rules -/

namespace RuleSyntax

/-- The state after reading components. -/
def State.after (state : State) (cs : List Component) : State :=
  cs.foldl (fun state c => (state.step c).1) state

/-- The rules that end while components are read. -/
def ended (state : State) : List Component → List RuleSyntax
  | [] => []
  | c :: cs => (state.step c).2.toList ++ ended (state.step c).1 cs

/-- The rules of components are those that end while they are read, and the one that is left. -/
theorem ofComponents_eq (source : Source) (state : State) (cs : List Component) :
    ofComponents source state cs = ⟨ended state cs ++ ((state.after cs).finish source).1,
      ((state.after cs).finish source).2⟩ := by
  induction cs generalizing state with
  | nil => rfl
  | cons c cs ih =>
    simp only [ofComponents, ih, ended, List.append_assoc]
    rfl

theorem ended_append (state : State) (cs ds : List Component) :
    ended state (cs ++ ds) = ended state cs ++ ended (state.after cs) ds := by
  induction cs generalizing state with
  | nil => rfl
  | cons c cs ih =>
    rw [List.cons_append, ended, ended, ih, List.append_assoc]
    rfl

/-- Without an error at the end no rule is left unfinished. -/
theorem State.eq_between_of_finish {source : Source} {state : State}
    (h : (state.finish source).2 = []) : state = .between := by
  cases state with
  | between => rfl
  | inside head start prelude => cases head <;> exact absurd h (by simp [finish])

/-- The rules after components that leave none unfinished are read on their own. -/
theorem value_ofComponents_append {source source' : Source} {cs : List Component}
    (h : (ofComponents source .between cs).errors = []) (ds : List Component) :
    (ofComponents source' .between (cs ++ ds)).value =
      (ofComponents source .between cs).value ++ (ofComponents source' .between ds).value := by
  rw [ofComponents_eq] at h
  have hbetween := State.eq_between_of_finish h
  have hafter : State.after .between (cs ++ ds) = State.after .between ds := by
    rw [State.after, List.foldl_append]
    exact congrArg (fun state => State.after state ds) hbetween
  simp only [ofComponents_eq, ended_append, hafter, hbetween, State.finish, List.append_nil,
    List.append_assoc]

/-- A rule that is being read is finished by a block or, if it is an at-rule, by a semicolon. -/
theorem endsRules_of_stepInside {head : RuleHead} {start : Nat} {prelude : List Component}
    {c : Component} (h : (State.stepInside head start prelude c).1 = .between) :
    c.endsRules = true := by
  unfold State.stepInside at h
  split at h
  next block hblock =>
    unfold BlockSyntax.ofComponent? at hblock
    split at hblock
    next => rfl
    next => exact absurd hblock (by simp)
  next =>
    split at h
    next hsemicolon =>
      cases c with
      | token t =>
        obtain ⟨kind, span⟩ := t
        cases kind with
        | semicolon => rfl
        | _ => exact absurd hsemicolon.2 Bool.false_ne_true
      | group opener opened cs ending => exact absurd hsemicolon.2 Bool.false_ne_true
    next => exact absurd h (by simp)

/-- No rule is left unfinished where the last component may end rules. -/
theorem endsRules_of_step {state : State} {c : Component} (h : (state.step c).1 = .between) :
    c.endsRules = true := by
  unfold State.step at h
  split at h
  · rfl
  · rfl
  · rfl
  · exact absurd h (by simp)
  · exact endsRules_of_stepInside h
  · exact endsRules_of_stepInside h

theorem endsRules_of_errors {source : Source} {cs : List Component} {last : Component}
    (h : (ofComponents source .between (cs ++ [last])).errors = []) : last.endsRules = true := by
  rw [ofComponents_eq] at h
  have hbetween := State.eq_between_of_finish h
  rw [State.after, List.foldl_append] at hbetween
  exact endsRules_of_step hbetween

end RuleSyntax

/-! ## Texts that close -/

namespace Source

/-- No token of the source goes on behind its end, whatever stands there. -/
def IsClosing (s : Source) : Prop :=
  ∀ bs, lexemesFrom scanToken 0 (s.chars ++ bs) =
    s.lexemes ++ lexemesFrom scanToken s.length bs

variable {s : Source}

theorem isClosing_of_eq_nil (h : s.chars = []) : s.IsClosing := by
  intro bs
  rw [lexemes, lexemesBy, length, h, lexemesFrom_nil]
  rfl

/-- A text that is cut before a bracket at its end is closed. -/
theorem isClosing_of_isCut {as : List Char} (hchars : s.chars = as ++ ['\x7d'])
    (hcut : IsCut ['\x7d'] as) : s.IsClosing := by
  intro bs
  have hbracket : ∀ (start : Nat) (cs : List Char), lexemesFrom scanToken start ('\x7d' :: cs) =
      ⟨⟨.closing .curly, ⟨start, start + 1⟩⟩, none⟩ :: lexemesFrom scanToken (start + 1) cs :=
    fun start cs => by rw [lexemesFrom_cons]; rfl
  rw [lexemes, lexemesBy, length, hchars, List.append_assoc, List.singleton_append,
    lexemesFrom_append (hcut.settle bs), lexemesFrom_append hcut, hbracket, hbracket,
    lexemesFrom_nil, List.append_assoc, List.length_append, List.length_singleton, Nat.add_assoc,
    Nat.zero_add, Nat.zero_add]
  rfl

/-- The last token of rules without errors is one with which rules may end. -/
theorem endsRules_of_rules {parsed : Parsed (List RuleSyntax)} {init : List Lexeme} {l : Lexeme}
    (h : s.rules = .ok parsed) (herrors : parsed.errors = []) (hlexemes : s.lexemes = init ++ [l]) :
    l.token.kind.endsRules = true := by
  obtain ⟨components, hcomponents, rfl⟩ := rules_eq_ok_iff.mp h
  obtain ⟨hnone, hrules⟩ := List.append_eq_nil_iff.mp herrors
  have hrun := holdsRun_of_components hcomponents hnone
  have hlist := listTokens_of_components hcomponents
  cases hcomment : l.token.kind.isComment with
  | true => exact TokenKind.endsRules_of_isComment hcomment
  | false =>
    have hkept : s.keptTokens.getLast? = some l.token := by
      rw [keptTokens, hlexemes, List.map_append, List.filter_append]
      simp [hcomment]
    rcases List.eq_nil_or_concat components.value with hnil | ⟨before, last, hvalue⟩
    · rw [← hlist, hnil] at hkept
      exact absurd hkept (by simp [Component.listTokens])
    · rw [List.concat_eq_append] at hvalue
      rw [hvalue] at hlist hrules hrun
      have hends := RuleSyntax.endsRules_of_errors hrules
      obtain ⟨t, ht, hkind⟩ :=
        (hrun.sits last (List.mem_append_right _ List.mem_cons_self)).exists_endsRules hends
      rw [← hlist, Component.listTokens_append, List.getLast?_append, Component.listTokens,
        Component.listTokens, List.append_nil, ht, Option.some_or] at hkept
      rw [← Option.some_inj.mp hkept]
      exact hkind

/-- **A text of rules without errors that ends with a bracket is closed.** -/
theorem isClosing_of_rules {parsed : Parsed (List RuleSyntax)} (h : s.rules = .ok parsed)
    (herrors : parsed.errors = []) (hlast : s.chars.getLast? = some '\x7d') : s.IsClosing := by
  have hsound : ∀ l ∈ s.lexemes, l.problem = none := by
    obtain ⟨components, hcomponents, rfl⟩ := rules_eq_ok_iff.mp h
    exact (components_eq_ok hcomponents (List.append_eq_nil_iff.mp herrors).1).1
  rcases List.eq_nil_or_concat s.lexemes with hnil | ⟨init, l, hlexemes⟩
  · cases hchars : s.chars with
    | nil => exact isClosing_of_eq_nil hchars
    | cons c cs =>
      rw [lexemes, lexemesBy, hchars, lexemesFrom_cons] at hnil
      exact absurd hnil (List.cons_ne_nil _ _)
  rw [List.concat_eq_append] at hlexemes
  have hkind := endsRules_of_rules h herrors hlexemes
  have hproblem := hsound l (hlexemes ▸ List.mem_append_right _ List.mem_cons_self)
  obtain ⟨as, xs, hchars, hcut, -, hbehind⟩ := exists_isCut hlexemes fun k hk =>
    hsound k (hlexemes ▸ List.mem_append_left _ hk)
  cases xs with
  | nil => exact absurd hbehind (by simp)
  | cons c cs =>
    rw [lexemesFrom_cons] at hbehind
    obtain ⟨rfl, hnone⟩ := List.cons.inj hbehind
    have hall : cs.length ≤ (scanToken c cs).extra := by
      by_contra hlt
      cases hdrop : cs.drop (scanToken c cs).extra with
      | nil => exact hlt (List.drop_eq_nil_iff.mp hdrop)
      | cons d ds =>
        rw [hdrop, lexemesFrom_cons] at hnone
        exact absurd hnone (List.cons_ne_nil _ _)
    rw [hchars, List.getLast?_append, List.getLast?_eq_some_getLast (List.cons_ne_nil c cs),
      Option.some_or, ← List.getLast?_eq_some_getLast] at hlast
    obtain rfl := eq_nil_of_endsRules ⟨hkind, hproblem, hall⟩ hlast
    obtain rfl := Option.some_inj.mp hlast
    exact isClosing_of_isCut hchars hcut

end Source

/-! ## Components behind others -/

namespace Builder

/-- The open groups with components put in front of the outermost one. -/
def framesOnto (base : List Component) : List Frame → List Frame
  | [] => []
  | [f] => [⟨f.opener, f.opened, f.before ++ base⟩]
  | f :: g :: fs => f :: framesOnto base (g :: fs)

/-- What was read, behind components that are held reversed. -/
def onto (base : List Component) : Builder → Builder
  | ⟨[], current⟩ => ⟨[], current ++ base⟩
  | ⟨f :: fs, current⟩ => ⟨framesOnto base (f :: fs), current⟩

/-- What stands in front of everything has no part in reading a token. -/
theorem step_onto (base : List Component) (b : Builder) (t : Token) :
    (b.onto base).step t = (b.step t).onto base := by
  obtain ⟨kind, span⟩ := t
  obtain ⟨frames, current⟩ := b
  rcases frames with _ | ⟨f, _ | ⟨g, fs⟩⟩
  · cases kind <;> rfl
  · cases kind with
    | closing bracket =>
      by_cases hf : f.opener.bracketKind = bracket
      · simp [step, close, onto, framesOnto, hf]
      · simp [step, close, onto, framesOnto, add, hf]
    | _ => rfl
  · cases kind with
    | closing bracket =>
      by_cases hf : f.opener.bracketKind = bracket
      · simp [step, close, onto, framesOnto, hf]
      · simp [step, close, onto, framesOnto, add, hf]
    | _ => rfl

theorem foldl_onto (base : List Component) (ts : List Token) (b : Builder) :
    ts.foldl step (b.onto base) = (ts.foldl step b).onto base := by
  induction ts generalizing b with
  | nil => rfl
  | cons t ts ih => rw [List.foldl_cons, step_onto, ih, List.foldl_cons]

theorem finishFrom_framesOnto (stop : Nat) (base : List Component) (f : Frame) (fs : List Frame)
    (current : List Component) :
    finishFrom stop current (framesOnto base (f :: fs)) =
      base.reverse ++ finishFrom stop current (f :: fs) := by
  induction fs generalizing f current with
  | nil => simp [framesOnto, finishFrom]
  | cons g fs ih =>
    rw [framesOnto, finishFrom, finishFrom]
    exact ih _ _

theorem finish_onto (stop : Nat) (base : List Component) (b : Builder) :
    (b.onto base).finish stop = base.reverse ++ b.finish stop := by
  obtain ⟨frames, current⟩ := b
  cases frames with
  | nil => simp [onto, finish, finishFrom]
  | cons f fs => exact finishFrom_framesOnto stop base f fs current

end Builder

/-- What was read of tokens that leave no group open. -/
theorem Builder.foldl_step_of_closed {stop : Nat} {ts : List Token}
    (h : (Component.ofTokens stop ts).2 = []) :
    ts.foldl step .empty = .onto (Component.ofTokens stop ts).1.reverse .empty := by
  simp only [Component.ofTokens, Builder.finish] at h ⊢
  generalize ts.foldl Builder.step .empty = b at h ⊢
  obtain ⟨frames, current⟩ := b
  obtain rfl : frames = [] := h
  simp [Builder.finishFrom, Builder.onto, Builder.empty]

/-- Tokens behind others that leave no group open are put together on their own. -/
theorem Component.ofTokens_append {stop : Nat} {ts : List Token} (h : (ofTokens stop ts).2 = [])
    (us : List Token) (stop' : Nat) :
    (ofTokens stop' (ts ++ us)).1 = (ofTokens stop ts).1 ++ (ofTokens stop' us).1 := by
  have hfirst := Builder.foldl_step_of_closed h
  generalize (ofTokens stop ts).1 = cs at hfirst ⊢
  simp only [ofTokens]
  rw [List.foldl_append, hfirst, Builder.foldl_onto, Builder.finish_onto, List.reverse_reverse]

/-- Tokens that leave no group open, behind others that do not, leave none open. -/
theorem Component.closed_ofTokens_append {stop stop' : Nat} {ts us : List Token}
    (h : (ofTokens stop ts).2 = []) (h' : (ofTokens stop' us).2 = []) :
    (ofTokens stop' (ts ++ us)).2 = [] := by
  have hfirst := Builder.foldl_step_of_closed h
  have hsecond := Builder.foldl_step_of_closed h'
  generalize (ofTokens stop ts).1 = cs at hfirst
  generalize (ofTokens stop' us).1 = ds at hsecond
  simp only [ofTokens]
  rw [List.foldl_append, hfirst, Builder.foldl_onto, hsecond]
  rfl

namespace Source

variable {s t joined : Source}

/-- The tokens of a text with the lexemes of two others. -/
theorem keptTokens_append
    (hlexemes : joined.lexemes = s.lexemes ++ t.lexemes.map (Lexeme.shift s.length)) :
    joined.keptTokens = s.keptTokens ++ t.keptTokens.map (Token.shift s.length) := by
  rw [keptTokens, hlexemes, List.map_append, List.filter_append, Lexeme.filter_isComment_shift]
  rfl

/-- The components of a text with the lexemes of two others that are read without errors. -/
theorem components_append_of_sound
    (hlexemes : joined.lexemes = s.lexemes ++ t.lexemes.map (Lexeme.shift s.length))
    (hlength : joined.length = t.length + s.length) {cs ds : List Component}
    (hs : s.components = .ok ⟨cs, []⟩) (ht : t.components = .ok ⟨ds, []⟩) :
    joined.components = .ok ⟨cs ++ ds.map (Component.shift s.length), []⟩ := by
  obtain ⟨hsmall, hvalue, -⟩ := components_cases hs
  obtain ⟨hsmall', hvalue', -⟩ := components_cases ht
  obtain ⟨hsound, -, hclosed⟩ := components_eq_ok hs rfl
  obtain ⟨hsound', -, hclosed'⟩ := components_eq_ok ht rfl
  have hkept := keptTokens_append hlexemes
  have hmoved := Component.ofTokens_shift s.length t.length t.keptTokens
  rw [hclosed', ← hvalue'] at hmoved
  have hjoined : joined.components = .ok ⟨(Component.ofTokens joined.length joined.keptTokens).1,
      []⟩ := by
    refine components_of_sound ?_ ?_ ?_
    · rw [hlexemes]
      refine List.forall_mem_append.mpr ⟨hsmall, fun l hl => ?_⟩
      obtain ⟨m, hm, rfl⟩ := List.mem_map.mp hl
      exact hsmall' m hm
    · rw [hlexemes]
      refine List.forall_mem_append.mpr ⟨hsound, fun l hl => ?_⟩
      obtain ⟨m, hm, rfl⟩ := List.mem_map.mp hl
      exact hsound' m hm
    · rw [hkept, hlength]
      exact Component.closed_ofTokens_append hclosed (by rw [hmoved]; rfl)
  rw [hjoined, hkept, Component.ofTokens_append hclosed, hlength, hmoved, ← hvalue]

namespace IsClosing

/-- The lexemes of joined texts. -/
theorem lexemes_append (h : s.IsClosing) (hjoined : joined.chars = s.chars ++ t.chars) :
    joined.lexemes = s.lexemes ++ t.lexemes.map (Lexeme.shift s.length) := by
  rw [lexemes, lexemesBy, hjoined, h, lexemes, lexemes, lexemesBy, lexemesBy, ← lexemesFrom_shift,
    Nat.zero_add]

/-- The components of joined texts. -/
theorem components_append (h : s.IsClosing) (hjoined : joined.chars = s.chars ++ t.chars)
    {cs : List Component} {parsed : Parsed (List Component)} (hs : s.components = .ok ⟨cs, []⟩)
    (ht : t.components = .ok parsed) :
    ∃ errors, joined.components =
      .ok ⟨cs ++ parsed.value.map (Component.shift s.length), errors⟩ := by
  obtain ⟨hsmall, hvalue, -⟩ := components_cases hs
  obtain ⟨hsmall', hvalue', -⟩ := components_cases ht
  obtain ⟨-, -, hopen⟩ := components_eq_ok hs rfl
  have hlexemes := h.lexemes_append hjoined
  have hnone : ¬ (joined.lexemes.any fun l => l.token.kind.isOversized) = true := by
    rw [hlexemes, List.any_append, List.any_map, Bool.or_eq_true, not_or, Bool.not_eq_true,
      Bool.not_eq_true, List.any_eq_false, List.any_eq_false]
    exact ⟨fun l hl => by simp [hsmall l hl], fun l hl => by simp [hsmall' l hl]⟩
  have hkept := keptTokens_append hlexemes
  have hlength : joined.length = t.length + s.length := by
    rw [length, hjoined, List.length_append, Nat.add_comm]
    rfl
  rw [components_eq, if_neg hnone, hkept, Component.ofTokens_append hopen, hlength,
    Component.ofTokens_shift, ← hvalue, ← hvalue']
  exact ⟨_, rfl⟩

/-- **The rules of joined texts.** -/
theorem rules_append (h : s.IsClosing) (hjoined : joined.chars = s.chars ++ t.chars)
    {front back : Parsed (List RuleSyntax)} (hs : s.rules = .ok front) (herrors : front.errors = [])
    (ht : t.rules = .ok back) :
    ∃ parsed, joined.rules = .ok parsed ∧
      parsed.value = front.value ++ back.value.map (RuleSyntax.shift s.length) := by
  obtain ⟨components, hcomponents, rfl⟩ := rules_eq_ok_iff.mp hs
  obtain ⟨components', hcomponents', rfl⟩ := rules_eq_ok_iff.mp ht
  obtain ⟨hnone, hended⟩ := List.append_eq_nil_iff.mp herrors
  have hsound : s.components = .ok ⟨components.value, []⟩ := by rw [hcomponents, ← hnone]
  obtain ⟨errors, hjoint⟩ := h.components_append hjoined hsound hcomponents'
  refine ⟨_, rules_eq_ok_iff.mpr ⟨_, hjoint, rfl⟩, ?_⟩
  have hmoved := RuleSyntax.value_ofComponents_shift joined t s.length .between components'.value
  rw [RuleSyntax.value_ofComponents_append hended, ← hmoved]
  rfl

end IsClosing

end Source

end Styling
