import Styling.Proofs.Syntax.Cutting
import Styling.Proofs.Syntax.Tokens

/-!
# The text of a group

In a text that is read without errors every group ends with its closing bracket, and the tokens of a
component follow each other in the text.  So the text of a group can be cut out and read on its own:
the same kinds of tokens are found in it, from the one that opens the group to the one that closes
it.

* `Component.IsClosed` says that a group ends with a closing bracket, and all groups in it do.
* `Source.Holds` says where the components of a source come from; it passes from a group to what is
  inside.
* `Source.Holds.kinds_group` is about the text of a group.
-/

namespace Styling

/-! ## Closed groups -/

/-- The component ends with a closing bracket if it is a group, and so do all groups inside. -/
inductive Component.IsClosed : Component → Prop
  | token (t : Token) : IsClosed (.token t)
  | group {opener : Opener} {opened span : Span} {cs : List Component}
    (inside : ∀ c ∈ cs, IsClosed c) : IsClosed (.group opener opened cs (.closed span))

theorem Component.IsClosed.of_mem_children {c d : Component} (h : c.IsClosed)
    (hd : d ∈ c.children) : d.IsClosed := by
  cases h with
  | token t => exact absurd hd List.not_mem_nil
  | group inside => exact inside d hd

/-- Everything that was read is closed, open groups apart. -/
structure Builder.IsClosed (b : Builder) : Prop where
  current : ∀ c ∈ b.current, c.IsClosed
  frames : ∀ f ∈ b.frames, ∀ c ∈ f.before, c.IsClosed

namespace Builder.IsClosed

variable {b : Builder}

theorem add {c : Component} (hb : b.IsClosed) (hc : c.IsClosed) : (b.add c).IsClosed := by
  refine ⟨fun d hd => ?_, hb.frames⟩
  rcases List.mem_cons.mp hd with rfl | hd
  · exact hc
  · exact hb.current d hd

theorem openGroup (hb : b.IsClosed) (opener : Opener) (opened : Span) :
    (b.openGroup opener opened).IsClosed := by
  refine ⟨fun d hd => absurd hd List.not_mem_nil, fun f hf => ?_⟩
  rcases List.mem_cons.mp hf with rfl | hf
  · exact hb.current
  · exact hb.frames f hf

theorem close (hb : b.IsClosed) (bracket : Bracket) (span : Span) :
    (b.close bracket span).IsClosed := by
  unfold Builder.close
  split
  next => exact hb.add (.token _)
  next f fs hframes =>
    split
    next =>
      refine ⟨fun c hc => ?_, fun g hg => hb.frames g (hframes ▸ List.mem_cons_of_mem f hg)⟩
      rcases List.mem_cons.mp hc with rfl | hc
      · exact .group fun c hc => hb.current c (List.mem_reverse.mp hc)
      · exact hb.frames f (hframes ▸ List.mem_cons_self) c hc
    next => exact hb.add (.token _)

theorem step (hb : b.IsClosed) (t : Token) : (b.step t).IsClosed := by
  unfold Builder.step
  split
  next => exact hb.openGroup _ _
  next => exact hb.openGroup _ _
  next => exact hb.close _ _
  next => exact hb.add (.token t)

theorem foldl (hb : b.IsClosed) (ts : List Token) : (ts.foldl Builder.step b).IsClosed := by
  induction ts generalizing b with
  | nil => exact hb
  | cons t ts ih => exact ih (hb.step t)

end Builder.IsClosed

/-- If no group is left open at the end, every group is closed. -/
theorem Component.isClosed_ofTokens {stop : Nat} {ts : List Token} (h : (ofTokens stop ts).2 = []) :
    ∀ c ∈ (ofTokens stop ts).1, c.IsClosed := by
  have hempty : Builder.empty.IsClosed :=
    ⟨fun _ hc => absurd hc List.not_mem_nil, fun _ hf => absurd hf List.not_mem_nil⟩
  intro c hc
  simp only [ofTokens, Builder.finish] at h hc
  rw [h, Builder.finishFrom] at hc
  exact (hempty.foldl ts).current c (List.mem_reverse.mp hc)

/-! ## Parts of a source -/

/-- The component is part of what a source is read as: its tokens follow each other there, and it is
closed. -/
structure Source.Holds (s : Source) (c : Component) : Prop where
  tokens : c.tokens <:+: s.keptTokens
  closed : c.IsClosed

namespace Component

/-- The tokens of a component follow each other among those of a list. -/
theorem tokens_infix_listTokens {c : Component} {cs : List Component} (h : c ∈ cs) :
    c.tokens <:+: listTokens cs := by
  rw [listTokens_eq_flatMap, List.flatMap]
  exact List.infix_of_mem_flatten (List.mem_map_of_mem h)

theorem isInfix_listTokens_children (c : Component) : listTokens c.children <:+: c.tokens := by
  cases c with
  | token t =>
    rw [children, listTokens]
    exact List.nil_infix
  | group opener opened cs ending =>
    simp only [children, tokens]
    exact ⟨[_], _, rfl⟩

end Component

namespace Source

variable {s : Source}

/-- The components of a text without errors are parts of it. -/
theorem holds_of_components {parsed : Parsed (List Component)} (h : s.components = .ok parsed)
    (herrors : parsed.errors = []) : ∀ c ∈ parsed.value, s.Holds c := by
  obtain ⟨-, hvalue, hopen⟩ := components_eq_ok h herrors
  intro c hc
  rw [hvalue] at hc
  refine ⟨?_, Component.isClosed_ofTokens hopen c hc⟩
  have htokens := Component.tokens_infix_listTokens hc
  rwa [Component.listTokens_ofTokens] at htokens

/-- What is inside a part is a part. -/
theorem Holds.of_mem_children {c d : Component} (h : s.Holds c) (hd : d ∈ c.children) :
    s.Holds d :=
  ⟨(Component.tokens_infix_listTokens hd).trans
    ((Component.isInfix_listTokens_children c).trans h.tokens), h.closed.of_mem_children hd⟩

end Source

/-! ## Lexemes without comments -/

/-- The tokens of lexemes without comments. -/
def keptTokensOf (ls : List Lexeme) : List Token :=
  (ls.map (·.token)).filter fun t => !t.kind.isComment

theorem keptTokensOf_append (ls ls' : List Lexeme) :
    keptTokensOf (ls ++ ls') = keptTokensOf ls ++ keptTokensOf ls' := by
  rw [keptTokensOf, List.map_append, List.filter_append, keptTokensOf, keptTokensOf]

theorem keptTokensOf_eq_nil_iff {ls : List Lexeme} :
    keptTokensOf ls = [] ↔ ∀ l ∈ ls, l.token.kind.isComment = true := by
  simp [keptTokensOf]

/-- Lexemes are cut where their tokens without comments are cut. -/
theorem exists_append_of_keptTokensOf {ls : List Lexeme} {ts us : List Token}
    (h : keptTokensOf ls = ts ++ us) :
    ∃ front back, ls = front ++ back ∧ keptTokensOf front = ts ∧ keptTokensOf back = us := by
  obtain ⟨ts', us', hmap, hts, hus⟩ := List.filter_eq_append_iff.mp h
  obtain ⟨front, back, hls, rfl, rfl⟩ := List.map_eq_append_iff.mp hmap
  exact ⟨front, back, hls, hts, hus⟩

theorem exists_cons_of_keptTokensOf {ls : List Lexeme} {t : Token} {ts : List Token}
    (h : keptTokensOf ls = t :: ts) :
    ∃ comments l back, ls = comments ++ l :: back ∧
      (∀ k ∈ comments, k.token.kind.isComment = true) ∧ l.token = t ∧
      t.kind.isComment = false ∧ keptTokensOf back = ts := by
  obtain ⟨comments, ts', hmap, hcomments, ht, hts⟩ := List.filter_eq_cons_iff.mp h
  obtain ⟨comments, rest, rfl, rfl, hrest⟩ := List.map_eq_append_iff.mp hmap
  obtain ⟨l, back, rfl, hl, rfl⟩ := List.map_eq_cons_iff.mp hrest
  exact ⟨comments, l, back, rfl, by simpa using hcomments, hl, by simpa using ht, hts⟩

/-! ## Kinds of tokens -/

/-- The kinds of the tokens that a scanner finds in a text, without comments. -/
def keptKinds (scan : Scanner) (cs : List Char) : List TokenKind :=
  ((lexemesFrom scan 0 cs).map (·.token.kind)).filter fun k => !k.isComment

/-- Comments are left out before or after the kinds are looked at. -/
theorem filter_map_kind (ls : List Lexeme) :
    ((ls.map (·.token.kind)).filter fun k => !k.isComment) =
      ((ls.map (·.token)).filter fun t => !t.kind.isComment).map (·.kind) := by
  rw [List.filter_map, List.filter_map, List.map_map]
  rfl

/-- Where a text starts makes no difference to the kinds of its tokens. -/
theorem map_kind_lexemesFrom (scan : Scanner) (start start' : Nat) (cs : List Char) :
    (lexemesFrom scan start cs).map (·.token.kind) =
      (lexemesFrom scan start' cs).map (·.token.kind) := by
  induction hn : cs.length using Nat.strongRecOn generalizing cs start start' with
  | ind n ih =>
    cases cs with
    | nil => rw [lexemesFrom_nil, lexemesFrom_nil]
    | cons c cs =>
      have hshorter : (cs.drop (scan c cs).extra).length < n := by
        rw [← hn, List.length_drop, List.length_cons]
        omega
      rw [lexemesFrom_cons, lexemesFrom_cons, List.map_cons, List.map_cons]
      rw [ih _ hshorter _ _ _ rfl]

/-- The last token of a text ends where the text ends, or behind. -/
theorem length_le_stop_of_lexemesFrom {scan : Scanner} {start : Nat} {cs : List Char}
    {before : List Lexeme} {l : Lexeme} (h : lexemesFrom scan start cs = before ++ [l]) :
    start + cs.length ≤ l.token.stop := by
  induction before generalizing start cs with
  | nil =>
    cases cs with
    | nil => exact absurd h (by simp)
    | cons c cs =>
      rw [lexemesFrom_cons, List.nil_append] at h
      obtain ⟨rfl, hrest⟩ := List.cons.inj h
      have hover : (cs.drop (scan c cs).extra).length = 0 := by
        cases hdrop : cs.drop (scan c cs).extra with
        | nil => rfl
        | cons d ds =>
          rw [hdrop, lexemesFrom_cons] at hrest
          exact absurd hrest (List.cons_ne_nil _ _)
      rw [List.length_drop] at hover
      simp only [Token.stop, List.length_cons]
      omega
  | cons k before ih =>
    cases cs with
    | nil => exact absurd h (by simp)
    | cons c cs =>
      rw [lexemesFrom_cons, List.cons_append] at h
      have hstop := ih (List.cons.inj h).2
      rw [List.length_drop] at hstop
      rw [List.length_cons]
      omega

/-! ## The text of a group -/

namespace Source

variable {s : Source}

/-- Tokens that follow each other, comments left out, come from lexemes that follow each other. -/
theorem exists_lexemes_of_infix {first last : Token} {inner : List Token}
    (h : first :: (inner ++ [last]) <:+: s.keptTokens) :
    ∃ before middle after, ∃ f l : Lexeme, s.lexemes = before ++ f :: (middle ++ l :: after) ∧
      f.token = first ∧ l.token = last ∧ keptTokensOf middle = inner := by
  obtain ⟨as, bs, hkept⟩ := h
  have hsplit : keptTokensOf s.lexemes = as ++ (first :: (inner ++ (last :: bs))) := by
    rw [keptTokensOf, ← keptTokens, ← hkept]
    simp
  -- Comments go with the part before them.
  obtain ⟨before, rest, hlexemes, -, hrest⟩ := exists_append_of_keptTokensOf hsplit
  obtain ⟨comments, f, rest, rfl, -, hf, -, hrest⟩ := exists_cons_of_keptTokensOf hrest
  obtain ⟨middle, rest, rfl, hmiddle, hrest⟩ := exists_append_of_keptTokensOf hrest
  obtain ⟨comments', l, after, rfl, hcomments', hl, -, -⟩ := exists_cons_of_keptTokensOf hrest
  refine ⟨before ++ comments, middle ++ comments', after, f, l, by simp [hlexemes], hf, hl, ?_⟩
  rw [keptTokensOf_append, hmiddle, keptTokensOf_eq_nil_iff.mpr hcomments', List.append_nil]

/-- Lexemes that follow each other in a text without problems are those of the stretch from the
first of them to the last. -/
theorem lexemesFrom_sliceChars (hsound : ∀ l ∈ s.lexemes, l.problem = none)
    {before run after : List Lexeme} {f l : Lexeme} (h : s.lexemes = before ++ (run ++ after))
    (hf : run.head? = some f) (hl : run.getLast? = some l) :
    lexemesFrom scanToken f.token.start (s.sliceChars f.token.start l.token.stop) = run := by
  obtain ⟨more, rfl⟩ := List.head?_eq_some_iff.mp hf
  obtain ⟨init, hinit⟩ := List.getLast?_eq_some_iff.mp hl
  have hbefore : ∀ k ∈ before, k.problem = none := by
    intro k hk
    refine hsound k ?_
    rw [h]
    exact List.mem_append_left _ hk
  obtain ⟨as, xs, hchars, -, -, hxs⟩ := exists_isCut h hbefore
  rw [Nat.zero_add] at hxs
  have hstart : f.token.start = as.length := by
    cases xs with
    | nil => exact absurd hxs (by simp)
    | cons x xs =>
      rw [lexemesFrom_cons] at hxs
      rw [← (List.cons.inj hxs).1]
      rfl
  have hslice : s.sliceChars f.token.start l.token.stop = xs.take (l.token.stop - as.length) := by
    rw [sliceChars, hchars, hstart, List.drop_left]
  rw [hslice, hstart]
  cases after with
  | nil =>
    -- Nothing comes after the stretch, which so goes on to the end of the text.
    have hrun : lexemesFrom scanToken as.length xs = (f :: more) ++ [] := hxs
    rw [List.append_nil] at hrun
    have hstop := length_le_stop_of_lexemesFrom (hrun.trans hinit)
    rwa [List.take_of_length_le (by omega)]
  | cons k after =>
    have hinside : ∀ k ∈ f :: more, k.problem = none := by
      intro k hk
      refine hsound k ?_
      rw [h]
      exact List.mem_append_right _ (List.mem_append_left _ hk)
    have hxs' : lexemesFrom scanToken as.length xs = (f :: more) ++ k :: after := hxs
    obtain ⟨ms, ys, rfl, hcut, hms, -⟩ := exists_isCut hxs' hinside
    have hlast : lexemesFrom scanToken as.length ms = init ++ [l] := hms.trans hinit
    have hmem : l ∈ lexemesFrom scanToken as.length ms := by
      rw [hlast]
      exact List.mem_append_right _ (List.mem_singleton_self l)
    have hstop : l.token.stop = as.length + ms.length :=
      le_antisymm (hcut.stop_le hmem) (length_le_stop_of_lexemesFrom hlast)
    rw [hstop, Nat.add_sub_cancel_left, List.take_left, hms]

/-- **The text of a group is read as the tokens of the group.** -/
theorem Holds.kinds_group {opener : Opener} {opened span : Span} {cs : List Component}
    (hsound : ∀ l ∈ s.lexemes, l.problem = none)
    (h : s.Holds (.group opener opened cs (.closed span))) :
    keptKinds scanToken (s.sliceChars opened.start span.stop) =
      (Component.group opener opened cs (.closed span)).tokens.map (·.kind) := by
  have htokens := h.tokens
  simp only [Component.tokens] at htokens
  obtain ⟨before, middle, after, f, l, hlexemes, hf, hl, hmiddle⟩ := exists_lexemes_of_infix htokens
  have hrun : s.lexemes = before ++ ((f :: (middle ++ [l])) ++ after) := by
    rw [hlexemes]
    simp
  have hlast : ((f :: middle) ++ [l]).getLast? = some l := List.getLast?_concat
  have hslice := lexemesFrom_sliceChars hsound hrun rfl hlast
  rw [hf, hl] at hslice
  have hnone : f.token.kind.isComment = false ∧ l.token.kind.isComment = false := by
    rw [hf, hl]
    cases opener <;> exact ⟨rfl, rfl⟩
  simp only [Token.start, Token.stop] at hslice
  rw [keptKinds, map_kind_lexemesFrom scanToken 0 opened.start, hslice]
  rw [List.map_cons, List.map_append, List.filter_cons_of_pos (by simp [hnone.1]),
    List.filter_append, filter_map_kind, ← keptTokensOf, hmiddle]
  simp [Component.tokens, TokenKind.isComment, hf, hl]

end Source

end Styling
