import Styling.Proofs.Syntax.Seams
import Styling.Proofs.Value.Running
import Styling.Proofs.Variable.Prefix

/-!
# What a pass does to tokens

A pass over a text with `var()` calls works on characters: it puts the text of each replacement
where the call stood.  Read as tokens, the result should be the tokens of the text with those of
each outermost call replaced by those of its replacement.  This is so where the pieces meet at
seams, and need not be so elsewhere: a sign before a call and the digits of its replacement become
one number, and the name of a replacement with a parenthesis behind the call becomes a function.

* `Splice.pieces` are the pieces that a pass puts together, `Component.listSplicedKinds` the tokens
  that they should come to.
* `Replaces` relates the lexemes of a text, what is replaced in it and the tokens that should come
  out; `Component.replaces_of_listSplices` reads it off the components.
* `keptKinds_of_substitute` is the statement about a pass, `keptKinds_substitute_merged` shows that
  it needs the seams.
-/

namespace Styling

/-! ## Pieces -/

namespace Splice

/-- The pieces that a text with replacements is put together from: stretches of the text, which
starts at offset `start`, with the replacements between them. -/
def pieces (start : Nat) (text : List Char) : List Splice → List (List Char)
  | [] => [text]
  | s :: ss =>
    text.take (s.span.start - start) :: s.replacement.toList ::
      pieces s.span.stop (text.drop (s.span.stop - start)) ss

theorem flatten_pieces (start : Nat) (text : List Char) (ss : List Splice) :
    (pieces start text ss).flatten = render start text ss := by
  induction ss generalizing start text with
  | nil => simp [pieces, render]
  | cons s ss ih => simp [pieces, render, ih]

/-- What stands before all replacements is part of the first piece. -/
theorem exists_pieces_append {as : List Char} (cs : List Char) {start : Nat} {ss : List Splice}
    (h : ∀ s ∈ ss.head?, start + as.length ≤ s.span.start ∧ s.span.start ≤ s.span.stop) :
    ∃ first more, first <+: cs ∧ pieces (start + as.length) cs ss = first :: more ∧
      pieces start (as ++ cs) ss = (as ++ first) :: more := by
  cases ss with
  | nil => exact ⟨cs, [], List.prefix_rfl, rfl, rfl⟩
  | cons s ss =>
    obtain ⟨hstart, hstop⟩ := h s rfl
    refine ⟨cs.take (s.span.start - (start + as.length)), _, List.take_prefix _ _, rfl, ?_⟩
    have htake : s.span.start - start = as.length + (s.span.start - (start + as.length)) := by
      omega
    have hdrop : s.span.stop - start = as.length + (s.span.stop - (start + as.length)) := by
      omega
    rw [pieces, htake, hdrop, List.take_length_add_append, List.drop_length_add_append]

end Splice

/-! ## The tokens that should come out -/

/-- The kind of the token that ends a group, if there is one. -/
def Ending.kinds (opener : Opener) : Ending → List TokenKind
  | closed _ => [.closing opener.bracketKind]
  | unclosed _ => []

namespace Component

mutual

/-- The kinds of the tokens of a component, with those of each outermost `var()` call replaced by
those of its replacement, read on its own. -/
def splicedKinds (source : Source) (vars : Variables) : Component → List TokenKind
  | token t => [t.kind]
  | group opener _ cs ending =>
    if opener.isFunction "var" then
      match varReplacement source vars (ending.stop - 1) cs with
      | .ok replacement => keptKinds scanToken (Source.ofString replacement).chars
      | .error _ => []
    else
      opener.tokenKind :: (listSplicedKinds source vars cs ++ ending.kinds opener)

/-- The kinds of the tokens of a list of components, with those of each outermost `var()` call
replaced by those of its replacement, read on its own. -/
def listSplicedKinds (source : Source) (vars : Variables) : List Component → List TokenKind
  | [] => []
  | c :: cs => c.splicedKinds source vars ++ listSplicedKinds source vars cs

end

end Component

/-! ## Lexemes and replacements -/

/-- The lexemes of a text, the stretches of it that are replaced, and the kinds of the tokens that
should come out. -/
inductive Replaces : List Lexeme → List Splice → List TokenKind → Prop
  | nil : Replaces [] [] []
  | comment {l : Lexeme} {ls : List Lexeme} {ss : List Splice} {kinds : List TokenKind}
    (isComment : l.token.kind.isComment = true) (rest : Replaces ls ss kinds) :
    Replaces (l :: ls) ss kinds
  | token {l : Lexeme} {ls : List Lexeme} {ss : List Splice} {kinds : List TokenKind}
    (isComment : l.token.kind.isComment = false) (rest : Replaces ls ss kinds) :
    Replaces (l :: ls) ss (l.token.kind :: kinds)
  | call {first last : Lexeme} {call ls : List Lexeme} {s : Splice} {ss : List Splice}
    {kinds : List TokenKind} (head : call.head? = some first) (getLast : call.getLast? = some last)
    (start : s.span.start = first.token.start) (stop : s.span.stop = last.token.stop)
    (rest : Replaces ls ss kinds) :
    Replaces (call ++ ls) (s :: ss)
      (keptKinds scanToken (Source.ofString s.replacement).chars ++ kinds)

namespace Replaces

variable {ls ls' : List Lexeme} {ss ss' : List Splice} {kinds kinds' : List TokenKind}

theorem append (h : Replaces ls ss kinds) (h' : Replaces ls' ss' kinds') :
    Replaces (ls ++ ls') (ss ++ ss') (kinds ++ kinds') := by
  induction h with
  | nil => exact h'
  | comment isComment rest ih => exact .comment isComment ih
  | token isComment rest ih => exact .token isComment ih
  | call head getLast start stop rest ih =>
    rw [List.append_assoc, List.append_assoc]
    exact .call head getLast start stop ih

theorem comments_append {comments : List Lexeme}
    (hcomments : ∀ l ∈ comments, l.token.kind.isComment = true) (h : Replaces ls ss kinds) :
    Replaces (comments ++ ls) ss kinds := by
  induction comments with
  | nil => exact h
  | cons l comments ih =>
    obtain ⟨hl, hcomments⟩ := List.forall_mem_cons.mp hcomments
    exact .comment hl (ih hcomments)

theorem of_keptTokensOf_nil (h : keptTokensOf ls = []) : Replaces ls [] [] := by
  rw [← List.append_nil ls]
  exact comments_append (keptTokensOf_eq_nil_iff.mp h) .nil

/-- A token that is kept, with the comments around it. -/
theorem of_keptTokensOf_singleton {t : Token} (h : keptTokensOf ls = [t]) :
    Replaces ls [] [t.kind] := by
  obtain ⟨comments, l, back, rfl, hcomments, rfl, hl, hback⟩ := exists_cons_of_keptTokensOf h
  exact comments_append hcomments (.token hl (of_keptTokensOf_nil hback))

end Replaces

namespace Component

variable {source : Source} {vars : Variables}

mutual

/-- What is replaced in a component is the stretches of its outermost calls. -/
theorem replaces_of_splices {c : Component} (hc : c.IsClosed) {ss : List Splice}
    (h : c.splices source vars = .ok ss) {ls : List Lexeme} (hls : keptTokensOf ls = c.tokens) :
    Replaces ls ss (c.splicedKinds source vars) := by
  cases c with
  | token t =>
    rw [splices] at h
    split at h
    next => exact absurd h (by simp)
    next =>
      obtain rfl := Except.ok.inj h
      rw [tokens] at hls
      rw [splicedKinds]
      exact .of_keptTokensOf_singleton hls
  | group opener opened cs ending =>
    cases hc with
    | @group _ _ span _ inside =>
      simp only [tokens] at hls
      obtain ⟨comments, f, back, rfl, hcomments, hf, hopener, hback⟩ :=
        exists_cons_of_keptTokensOf hls
      obtain ⟨inner, tail, rfl, hinner, htail⟩ := exists_append_of_keptTokensOf hback
      rw [splices] at h
      rw [splicedKinds]
      refine .comments_append hcomments ?_
      by_cases hvar : opener.isFunction "var" = true
      · rw [if_pos hvar] at h ⊢
        -- The call goes from its first lexeme to its last, with the comments that are inside.
        obtain ⟨comments', l, after, rfl, -, hl, -, hafter⟩ := exists_cons_of_keptTokensOf htail
        cases hreplacement : varReplacement source vars ((Ending.closed span).stop - 1) cs with
        | error e =>
          rw [hreplacement] at h
          exact absurd h (by simp)
        | ok replacement =>
          rw [hreplacement] at h
          obtain rfl := Except.ok.inj h
          have hcall : Replaces ((f :: (inner ++ comments') ++ [l]) ++ after)
              [⟨⟨opened.start, (Ending.closed span).stop⟩, replacement⟩]
              (keptKinds scanToken (Source.ofString replacement).chars ++ []) :=
            .call rfl List.getLast?_concat (by rw [hf]; rfl) (by rw [hl]; rfl)
              (.of_keptTokensOf_nil hafter)
          simpa using hcall
      · rw [if_neg hvar] at h ⊢
        have hkind : f.token.kind = opener.tokenKind := by rw [hf]
        have htokens := (replaces_of_listSplices inside h hinner).append
          (.of_keptTokensOf_singleton htail)
        rw [List.append_nil] at htokens
        rw [← hkind]
        exact .token (hkind ▸ hopener) htokens

theorem replaces_of_listSplices {cs : List Component} (hcs : ∀ c ∈ cs, c.IsClosed)
    {ss : List Splice} (h : listSplices source vars cs = .ok ss) {ls : List Lexeme}
    (hls : keptTokensOf ls = listTokens cs) : Replaces ls ss (listSplicedKinds source vars cs) := by
  cases cs with
  | nil =>
    rw [listSplices] at h
    obtain rfl := Except.ok.inj h
    rw [listTokens] at hls
    rw [listSplicedKinds]
    exact .of_keptTokensOf_nil hls
  | cons c cs =>
    obtain ⟨hc, hcs⟩ := List.forall_mem_cons.mp hcs
    rw [listTokens] at hls
    obtain ⟨front, back, rfl, hfront, hback⟩ := exists_append_of_keptTokensOf hls
    rw [listSplices] at h
    rw [listSplicedKinds]
    split at h
    next => exact absurd h (by simp)
    next first hfirst =>
      split at h
      next => exact absurd h (by simp)
      next rest hrest =>
        obtain rfl := Except.ok.inj h
        exact (replaces_of_splices hc hfirst hfront).append
          (replaces_of_listSplices hcs hrest hback)

end

end Component

/-! ## The tokens of the pieces -/

/-- A text of lexemes starts with the text of the first of them. -/
theorem exists_of_lexemesFrom_eq_cons {start : Nat} {cs : List Char} {l : Lexeme}
    {ls : List Lexeme} (h : lexemesFrom scanToken start cs = l :: ls) :
    ∃ c as rest, cs = c :: (as ++ rest) ∧ as.length = (scanToken c (as ++ rest)).extra ∧
      l = ⟨⟨(scanToken c (as ++ rest)).kind, ⟨start, start + as.length + 1⟩⟩,
        (scanToken c (as ++ rest)).problem⟩ ∧
      lexemesFrom scanToken (start + as.length + 1) rest = ls := by
  cases cs with
  | nil => exact absurd h (by simp)
  | cons c cs =>
    rw [lexemesFrom_cons] at h
    obtain ⟨hl, hls⟩ := List.cons.inj h
    have hlength : (cs.take (scanToken c cs).extra).length = (scanToken c cs).extra :=
      List.length_take_of_le (isBounded_scanToken c cs)
    refine ⟨c, cs.take (scanToken c cs).extra, cs.drop (scanToken c cs).extra, ?_⟩
    rw [List.take_append_drop, hlength]
    exact ⟨rfl, rfl, hl.symm, hls⟩

/-- Reading goes on behind a run of lexemes where the last of them ends. -/
theorem lexemesFrom_drop {start : Nat} {cs : List Char} {run ls : List Lexeme} {last : Lexeme}
    (h : lexemesFrom scanToken start cs = run ++ ls) (hlast : run.getLast? = some last) :
    lexemesFrom scanToken last.token.stop (cs.drop (last.token.stop - start)) = ls := by
  induction run generalizing start cs with
  | nil => exact absurd hlast (by simp)
  | cons l run ih =>
    obtain ⟨c, as, rest, rfl, -, rfl, hrest⟩ := exists_of_lexemesFrom_eq_cons h
    cases run with
    | nil =>
      obtain rfl := Option.some_inj.mp hlast
      have hstop : start + as.length + 1 - start = as.length + 1 := by omega
      simpa [Token.stop, hstop] using hrest
    | cons k run =>
      rw [List.getLast?_cons_cons] at hlast
      have hle : start + as.length + 1 ≤ last.token.stop := by
        have hmem : last ∈ lexemesFrom scanToken (start + as.length + 1) rest := by
          rw [hrest]
          exact List.mem_append_left _ (List.mem_of_getLast? hlast)
        have hbehind := le_start_of_mem_lexemesFrom hmem
        omega
      have hdrop : last.token.stop - start =
          as.length + 1 + (last.token.stop - (start + as.length + 1)) := by omega
      rw [hdrop, ← List.cons_append, ← List.length_cons (a := c), List.drop_length_add_append]
      exact ih hrest hlast

/-- A token stays what it is if the text is cut off somewhere behind it. -/
theorem keptKinds_cons {c : Char} {as cs first : List Char} (hfirst : first <+: cs)
    (hall : as.length = (scanToken c (as ++ cs)).extra)
    (hproblem : (scanToken c (as ++ cs)).problem = none) :
    keptKinds scanToken (c :: (as ++ first)) =
      ([(scanToken c (as ++ cs)).kind].filter fun k => !k.isComment) ++
        keptKinds scanToken first := by
  obtain ⟨more, rfl⟩ := hfirst
  have hlocal := isLocal_scanToken c (as ++ first) more (by
    rw [List.append_assoc, ← hall, List.length_append]
    exact Nat.le_add_right ..) (by rw [List.append_assoc]; exact hproblem)
  rw [List.append_assoc] at hlocal
  rw [hlocal] at hall
  rw [hlocal, keptKinds, lexemesFrom_cons, ← hall, List.drop_left, List.map_cons,
    ← List.singleton_append, List.filter_append, map_kind_lexemesFrom scanToken _ 0]
  rfl

namespace Replaces

variable {ls : List Lexeme} {ss : List Splice} {kinds : List TokenKind} {start : Nat}
  {cs : List Char}

/-- What is replaced first stands in the text. -/
theorem head?_span (h : Replaces ls ss kinds) (hls : lexemesFrom scanToken start cs = ls) :
    ∀ s ∈ ss.head?, start ≤ s.span.start ∧ s.span.start ≤ s.span.stop := by
  induction h generalizing start cs with
  | nil => exact fun s hs => absurd hs (by simp)
  | comment isComment rest ih | token isComment rest ih =>
    obtain ⟨c, as, back, rfl, -, -, hback⟩ := exists_of_lexemesFrom_eq_cons hls
    intro s hs
    have hspan := ih hback s hs
    omega
  | @call first last call ls s ss kinds head getLast hstart hstop rest ih =>
    intro s' hs'
    obtain rfl := Option.some_inj.mp hs'
    have hmem : last ∈ lexemesFrom scanToken start cs :=
      hls ▸ List.mem_append_left _ (List.mem_of_getLast? getLast)
    have hlast := le_start_of_mem_lexemesFrom hmem
    obtain ⟨more, rfl⟩ := List.head?_eq_some_iff.mp head
    obtain ⟨c, as, back, -, -, rfl, -⟩ := exists_of_lexemesFrom_eq_cons hls
    simp only [Token.start, Token.stop] at hstart hstop hlast
    omega

/-- A lexeme in front of a text, whose tokens are already known, goes with the first piece. -/
theorem piecewiseKinds_lexeme {l : Lexeme} (h : Replaces ls ss kinds)
    (hls : lexemesFrom scanToken start cs = l :: ls) (hl : l.problem = none)
    (hnormal : ∀ c ∈ cs, Source.IsNormal c)
    (hrest : ∀ {start cs}, lexemesFrom scanToken start cs = ls → (∀ c ∈ cs, Source.IsNormal c) →
      piecewiseKinds (Splice.pieces start cs ss) = kinds) :
    piecewiseKinds (Splice.pieces start cs ss) =
      ([l.token.kind].filter fun k => !k.isComment) ++ kinds := by
  obtain ⟨c, as, back, rfl, hall, rfl, hback⟩ := exists_of_lexemesFrom_eq_cons hls
  have hnormalBack : ∀ d ∈ back, Source.IsNormal d := fun d hd =>
    hnormal d (List.mem_cons_of_mem c (List.mem_append_right as hd))
  have hspan : ∀ s ∈ ss.head?,
      start + (c :: as).length ≤ s.span.start ∧ s.span.start ≤ s.span.stop := h.head?_span hback
  obtain ⟨first, more, hfirst, hpieces, hwhole⟩ := Splice.exists_pieces_append back hspan
  have hnormalFirst : ∀ d ∈ first, Source.IsNormal d := fun d hd => hnormalBack d (hfirst.subset hd)
  have hnormalWhole : ∀ d ∈ c :: (as ++ first), Source.IsNormal d := by
    intro d hd
    rcases List.mem_append.mp (show d ∈ (c :: as) ++ first from hd) with hd | hd
    · exact hnormal d (List.mem_append_left back hd)
    · exact hnormalFirst d hd
  have hkinds := hrest hback hnormalBack
  rw [List.cons_append] at hwhole
  rw [show start + as.length + 1 = start + (c :: as).length from rfl, hpieces,
    piecewiseKinds_cons, Source.normalize_eq_self hnormalFirst] at hkinds
  rw [hwhole, piecewiseKinds_cons, List.cons_append,
    Source.normalize_eq_self hnormalWhole, keptKinds_cons hfirst hall hl, List.append_assoc, hkinds]

/-- **The tokens of the pieces, each read on its own,** are the tokens that should come out. -/
theorem piecewiseKinds_eq (h : Replaces ls ss kinds) (hls : lexemesFrom scanToken start cs = ls)
    (hsound : ∀ l ∈ ls, l.problem = none) (hnormal : ∀ c ∈ cs, Source.IsNormal c) :
    piecewiseKinds (Splice.pieces start cs ss) = kinds := by
  induction h generalizing start cs with
  | nil =>
    cases cs with
    | nil => simp [Splice.pieces, piecewiseKinds]
    | cons c cs =>
      rw [lexemesFrom_cons] at hls
      exact absurd hls (List.cons_ne_nil _ _)
  | comment isComment rest ih =>
    obtain ⟨hl, hsound⟩ := List.forall_mem_cons.mp hsound
    rw [rest.piecewiseKinds_lexeme hls hl hnormal fun hls => ih hls hsound,
      List.filter_cons_of_neg (by simp [isComment])]
    rfl
  | token isComment rest ih =>
    obtain ⟨hl, hsound⟩ := List.forall_mem_cons.mp hsound
    rw [rest.piecewiseKinds_lexeme hls hl hnormal fun hls => ih hls hsound,
      List.filter_cons_of_pos (by simp [isComment])]
    rfl
  | @call first last call ls s ss kinds head getLast hstart hstop rest ih =>
    have hback := lexemesFrom_drop hls getLast
    have hfirst : s.span.start = start := by
      obtain ⟨more, rfl⟩ := List.head?_eq_some_iff.mp head
      obtain ⟨c, as, back, -, -, rfl, -⟩ := exists_of_lexemesFrom_eq_cons hls
      exact hstart
    rw [← hstop] at hback
    have hkinds := ih hback (fun l hl => hsound l (List.mem_append_right _ hl))
      fun c hc => hnormal c (List.mem_of_mem_drop hc)
    rw [Splice.pieces, piecewiseKinds_cons, piecewiseKinds_cons, hkinds, hfirst, Nat.sub_self,
      List.take_zero, keptKinds_nil, List.nil_append]
    rfl

end Replaces

/-! ## A pass -/

/-- **A pass replaces calls by tokens where its pieces meet at seams.**  A pass that succeeds puts
together the stretches of the text around the outermost `var()` calls and the replacements of these
calls.  If nothing lies across the places where they meet, the tokens of the new text are those of
the old one with those of each call replaced by those of its replacement. -/
theorem keptKinds_of_substitute {text expanded : String} {vars : Variables} {count : Nat}
    (h : substitute text vars = .ok (.ok (expanded, count))) :
    ∃ cs ss, (Source.ofString text).components = .ok ⟨cs, []⟩ ∧
      Component.listSplices (.ofString text) vars cs = .ok ss ∧
      expanded.toList = (Splice.pieces 0 (Source.ofString text).chars ss).flatten ∧
      (MeetAtSeams (Splice.pieces 0 (Source.ofString text).chars ss) →
        keptKinds scanToken (Source.ofString expanded).chars =
          Component.listSplicedKinds (.ofString text) vars cs) := by
  obtain ⟨⟨cs, errors⟩, ss, hparsed, rfl, hss, rfl, -⟩ := substitute_eq_ok h
  obtain ⟨hsound, -⟩ := Source.components_eq_ok hparsed rfl
  refine ⟨cs, ss, hparsed, hss, ?_, fun hseams => ?_⟩
  · rw [String.toList_ofList, Splice.flatten_pieces]
  have hclosed : ∀ c ∈ cs, c.IsClosed := fun c hc =>
    (Source.holds_of_components hparsed rfl c hc).closed
  have hreplaces : Replaces (Source.ofString text).lexemes ss _ :=
    Component.replaces_of_listSplices hclosed hss (Source.listTokens_of_components hparsed).symm
  rw [← hreplaces.piecewiseKinds_eq rfl hsound fun c => Source.isNormal_of_mem_normalize,
    ← keptKinds_flatten hseams, Splice.flatten_pieces, Source.ofString, String.toList_ofList]

/-- A name, a comment and a fallback take the place of two calls, one of them inside a function. -/
theorem keptKinds_of_substitute_separate :
    ∃ text vars expanded cs ss,
      text = "1px var(--w) f(var(--g,2 )/**/)" ∧
      vars = Variables.empty.child [("--w", "a/**/b")] ∧ expanded = "1px a/**/b f(2 /**/)" ∧
      substitute text vars = .ok (.ok (expanded, 2)) ∧
      (Source.ofString text).components = .ok ⟨cs, []⟩ ∧
      Component.listSplices (.ofString text) vars cs = .ok ss ∧
      MeetAtSeams (Splice.pieces 0 (Source.ofString text).chars ss) ∧
      keptKinds scanToken (Source.ofString expanded).chars =
        Component.listSplicedKinds (.ofString text) vars cs ∧
      (Component.listSplicedKinds (.ofString text) vars cs).map (·.raw) =
        ["1px", " ", "a", "b", " ", "f", "2", " ", ")"] := by
  let text := "1px var(--w) f(var(--g,2 )/**/)"
  let vars := Variables.empty.child [("--w", "a/**/b")]
  have hpass : ((substitute text vars).toOption.bind Except.toOption) =
      some ("1px a/**/b f(2 /**/)", 2) := by decide +kernel
  obtain ⟨result, hresult, hpass⟩ := Option.bind_eq_some_iff.mp hpass
  obtain rfl := eq_ok_of_toOption hpass
  have hsubstitute := eq_ok_of_toOption hresult
  obtain ⟨cs, ss, hcs, hss, -, hkinds⟩ := keptKinds_of_substitute hsubstitute
  have hseams : ((Source.ofString text).components.toOption.bind fun parsed =>
      (Component.listSplices (.ofString text) vars parsed.value).toOption.map fun ss =>
        (decide (MeetAtSeams (Splice.pieces 0 (Source.ofString text).chars ss)),
          (Component.listSplicedKinds (.ofString text) vars parsed.value).map (·.raw))) =
      some (true, ["1px", " ", "a", "b", " ", "f", "2", " ", ")"]) := by decide +kernel
  rw [hcs] at hseams
  simp only [Except.toOption, Option.bind_some, hss, Option.map_some, Option.some.injEq,
    Prod.mk.injEq, decide_eq_true_eq] at hseams
  exact ⟨text, vars, _, cs, ss, rfl, rfl, rfl, hsubstitute, hcs, hss, hseams.1, hkinds hseams.1,
    hseams.2⟩

/-- A sign in front of a call and the digits of its replacement become one number: without seams the
tokens are not those that should come out. -/
theorem keptKinds_substitute_merged :
    ∃ text vars expanded cs,
      text = "+var(--x)" ∧ vars = Variables.empty.child [("--x", "5")] ∧ expanded = "+5" ∧
      substitute text vars = .ok (.ok (expanded, 1)) ∧
      (Source.ofString text).components = .ok ⟨cs, []⟩ ∧
      keptKinds scanToken (Source.ofString expanded).chars ≠
        Component.listSplicedKinds (.ofString text) vars cs ∧
      (keptKinds scanToken (Source.ofString expanded).chars).map (·.raw) = ["+5"] ∧
      (Component.listSplicedKinds (.ofString text) vars cs).map (·.raw) = ["+", "5"] := by
  let text := "+var(--x)"
  let vars := Variables.empty.child [("--x", "5")]
  have hpass : ((substitute text vars).toOption.bind Except.toOption) = some ("+5", 1) := by
    decide +kernel
  have hmerged : (keptKinds scanToken (Source.ofString "+5").chars).map (·.raw) = ["+5"] := by
    decide +kernel
  have hkinds : ((Source.ofString text).components.toOption.map fun parsed =>
      (parsed.errors.length,
        (Component.listSplicedKinds (.ofString text) vars parsed.value).map (·.raw))) =
      some (0, ["+", "5"]) := by decide +kernel
  obtain ⟨result, hresult, hpass⟩ := Option.bind_eq_some_iff.mp hpass
  obtain rfl := eq_ok_of_toOption hpass
  obtain ⟨⟨cs, errors⟩, hcs, hkinds⟩ := Option.map_eq_some_iff.mp hkinds
  simp only [Prod.mk.injEq, List.length_eq_zero_iff] at hkinds
  obtain ⟨rfl, hkinds⟩ := hkinds
  refine ⟨text, vars, _, cs, rfl, rfl, rfl, eq_ok_of_toOption hresult, eq_ok_of_toOption hcs,
    fun hsame => ?_, hmerged, hkinds⟩
  rw [← hsame, hmerged] at hkinds
  exact absurd hkinds (by decide)

end Styling
