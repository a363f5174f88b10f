import Styling.Proofs.Syntax.Locality

/-!
# Cutting a text between two tokens

If a text is cut between two of its tokens and something else is put behind the cut, the tokens
before the cut stay what they are, except that the last of them may go on beyond the cut.

* `IsCut` says that a text is cut between two tokens, and `lexemesFrom_append` that then the lexemes
  of the text are those of the two parts.
* `exists_isCut` cuts a text before one of its lexemes.
* `IsCut.exists_common` compares two texts with a common first part, where only the first of them is
  cut between two tokens.
* `Scans` lists the ways in which a token can start, so that what is said of all tokens is said of
  each of them.
* `IsCut.exists_common_blanks` is about texts where only whitespace may go on beyond the cut, and
  `isFunction_of_crosses` says that no function does if an identifier stood behind the cut.
-/

namespace Styling

theorem lexemesFrom_cons (scan : Scanner) (start : Nat) (c : Char) (cs : List Char) :
    lexemesFrom scan start (c :: cs) =
      ⟨⟨(scan c cs).kind, ⟨start, start + (scan c cs).extra + 1⟩⟩, (scan c cs).problem⟩ ::
        lexemesFrom scan (start + (scan c cs).extra + 1) (cs.drop (scan c cs).extra) := by
  rw [lexemesFrom]

@[simp] theorem lexemesFrom_nil (scan : Scanner) (start : Nat) :
    lexemesFrom scan start [] = [] := by
  rw [lexemesFrom]

/-- Lexemes lie behind the offset from which the text is read, and none is empty. -/
theorem le_start_of_mem_lexemesFrom {scan : Scanner} {start : Nat} {cs : List Char} {l : Lexeme}
    (h : l ∈ lexemesFrom scan start cs) :
    start ≤ l.token.start ∧ l.token.start < l.token.stop := by
  induction hn : cs.length using Nat.strongRecOn generalizing cs start with
  | ind n ih =>
    cases cs with
    | nil => simp at h
    | cons c cs =>
      rw [lexemesFrom_cons] at h
      rcases List.mem_cons.mp h with rfl | h
      · simp only [Token.start, Token.stop]
        omega
      · have hshorter : (cs.drop (scan c cs).extra).length < n := by
          rw [← hn, List.length_drop, List.length_cons]
          omega
        have hrest := ih _ hshorter h rfl
        omega

/-- A lexeme is what the scanner finds at some place of the text. -/
theorem exists_scan_of_mem_lexemesFrom {scan : Scanner} {start : Nat} {cs : List Char} {l : Lexeme}
    (h : l ∈ lexemesFrom scan start cs) :
    ∃ before c rest, cs = before ++ c :: rest ∧ l = ⟨⟨(scan c rest).kind, ⟨start + before.length,
      start + before.length + (scan c rest).extra + 1⟩⟩, (scan c rest).problem⟩ := by
  induction hn : cs.length using Nat.strongRecOn generalizing cs start with
  | ind n ih =>
    cases cs with
    | nil => simp at h
    | cons c cs =>
      rw [lexemesFrom_cons] at h
      rcases List.mem_cons.mp h with rfl | h
      · exact ⟨[], c, cs, rfl, rfl⟩
      · have hshorter : (cs.drop (scan c cs).extra).length < n := by
          rw [← hn, List.length_drop, List.length_cons]
          omega
        obtain ⟨before, d, rest, hdrop, rfl⟩ := ih _ hshorter h rfl
        -- Something is left behind the first token, so the token lies within the text.
        have hextra : (scan c cs).extra < cs.length := by
          by_contra hle
          rw [List.drop_eq_nil_of_le (Nat.le_of_not_lt hle)] at hdrop
          exact absurd hdrop (by simp)
        have hlength : (c :: (cs.take (scan c cs).extra ++ before)).length =
            (scan c cs).extra + 1 + before.length := by
          rw [List.length_cons, List.length_append, List.length_take, Nat.min_eq_left hextra.le]
          omega
        refine ⟨c :: (cs.take (scan c cs).extra ++ before), d, rest, ?_, ?_⟩
        · rw [List.cons_append, List.append_assoc, ← hdrop, List.take_append_drop]
        · rw [hlength, ← Nat.add_assoc, ← Nat.add_assoc]

/-- The tokens at the start of a text followed by `xs`, which are free of problems, do not go on
beyond the end of the text. -/
inductive IsCut (xs : List Char) : List Char → Prop
  | nil : IsCut xs []
  | cons {a : Char} {as : List Char} (extra : (scanToken a (as ++ xs)).extra ≤ as.length)
      (problem : (scanToken a (as ++ xs)).problem = none)
      (rest : IsCut xs (as.drop (scanToken a (as ++ xs)).extra)) : IsCut xs (a :: as)

/-- The lexemes of a text that is cut between two tokens are those of the two parts. -/
theorem lexemesFrom_append {as xs : List Char} (h : IsCut xs as) (start : Nat) :
    lexemesFrom scanToken start (as ++ xs) =
      lexemesFrom scanToken start as ++ lexemesFrom scanToken (start + as.length) xs := by
  induction h generalizing start with
  | nil => simp
  | @cons a as extra problem rest ih =>
    have hfirst := isLocal_scanToken a as xs extra problem
    have hdrop := List.length_drop (i := (scanToken a (as ++ xs)).extra) (l := as)
    rw [List.cons_append, lexemesFrom_cons, List.drop_append_of_le_length extra, ih,
      lexemesFrom_cons, ← hfirst, List.cons_append, hdrop, List.length_cons]
    rw [show start + (scanToken a (as ++ xs)).extra + 1 +
      (as.length - (scanToken a (as ++ xs)).extra) = start + (as.length + 1) by omega]

/-- A text is cut before any of its lexemes, if those before it are free of problems. -/
theorem exists_isCut {start : Nat} {cs : List Char} {before after : List Lexeme} {l : Lexeme}
    (h : lexemesFrom scanToken start cs = before ++ l :: after)
    (hsound : ∀ k ∈ before, k.problem = none) :
    ∃ as xs, cs = as ++ xs ∧ IsCut xs as ∧ lexemesFrom scanToken start as = before ∧
      lexemesFrom scanToken (start + as.length) xs = l :: after := by
  induction before generalizing start cs with
  | nil => exact ⟨[], cs, rfl, .nil, lexemesFrom_nil .., h⟩
  | cons k before ih =>
    cases cs with
    | nil => exact absurd h (by simp)
    | cons c cs =>
      rw [lexemesFrom_cons, List.cons_append] at h
      obtain ⟨hk, hrest⟩ := List.cons.inj h
      obtain ⟨as, xs, hcs, hcut, hbefore, hafter⟩ :=
        ih hrest fun k' hk' => hsound k' (List.mem_cons_of_mem k hk')
      -- The first token lies within the text, since a lexeme comes after it.
      have hlt : (scanToken c cs).extra < cs.length := by
        by_contra hle
        rw [List.drop_eq_nil_of_le (Nat.le_of_not_lt hle), lexemesFrom_nil] at hrest
        exact absurd hrest (by simp)
      have hsplit : cs = (cs.take (scanToken c cs).extra ++ as) ++ xs := by
        rw [List.append_assoc, ← hcs, List.take_append_drop]
      generalize hfirst : cs.take (scanToken c cs).extra = first at hsplit
      have hlength : first.length = (scanToken c cs).extra := by
        rw [← hfirst, List.length_take, Nat.min_eq_left hlt.le]
      rw [hsplit] at hk hlength hbefore hafter ⊢
      have hproblem : (scanToken c (first ++ as ++ xs)).problem = none := by
        have hnone := hsound k (List.mem_cons_self ..)
        rwa [← hk] at hnone
      have hextra : (scanToken c (first ++ as ++ xs)).extra ≤ (first ++ as).length := by
        rw [List.length_append, hlength]
        exact Nat.le_add_right _ _
      have hdrop : (first ++ as).drop (scanToken c (first ++ as ++ xs)).extra = as := by
        rw [← hlength, List.drop_left]
      have hlocal := isLocal_scanToken c (first ++ as) xs hextra hproblem
      refine ⟨c :: (first ++ as), xs, rfl, .cons hextra hproblem (hdrop.symm ▸ hcut), ?_, ?_⟩
      · rw [lexemesFrom_cons, ← hlocal, hdrop, hk, hbefore]
      · rw [← hafter, List.length_cons, List.length_append, hlength]
        congr 1
        omega

/-- Two texts have a first part in common, and the first of them is cut behind it.  Then they have
the same tokens up to the end of that part, or up to a token of the second text that goes on beyond
it. -/
theorem IsCut.exists_common {as xs : List Char} (h : IsCut xs as) (ys : List Char) (start : Nat)
    (hsound : ∀ l ∈ lexemesFrom scanToken start (as ++ ys), l.problem = none) :
    ∃ before middle bs, middle + bs.length = start + as.length ∧ IsCut xs bs ∧
      lexemesFrom scanToken start (as ++ ys) =
        before ++ lexemesFrom scanToken middle (bs ++ ys) ∧
      lexemesFrom scanToken start as = before ++ lexemesFrom scanToken middle bs ∧
      ∀ b bs', bs = b :: bs' → bs'.length < (scanToken b (bs' ++ ys)).extra := by
  induction h generalizing start with
  | nil => exact ⟨[], start, [], rfl, .nil, rfl, by simp, fun _ _ h => absurd h (by simp)⟩
  | @cons a as extra problem rest ih =>
    have hfirst := isLocal_scanToken a as xs extra problem
    by_cases hcross : (scanToken a (as ++ ys)).extra ≤ as.length
    · rw [List.cons_append, lexemesFrom_cons, List.drop_append_of_le_length hcross] at hsound
      have hproblem := hsound _ (List.mem_cons_self ..)
      have hsecond := isLocal_scanToken a as ys hcross hproblem
      rw [hsecond] at hcross hsound
      rw [hfirst] at extra ih
      obtain ⟨before, middle, bs, hmiddle, hcut, hys, has, hcrosses⟩ :=
        ih (start + (scanToken a as).extra + 1) fun l hl => hsound l (List.mem_cons_of_mem _ hl)
      let first : Lexeme :=
        ⟨⟨(scanToken a as).kind, ⟨start, start + (scanToken a as).extra + 1⟩⟩,
          (scanToken a as).problem⟩
      refine ⟨first :: before, middle, bs, ?_, hcut, ?_, ?_, hcrosses⟩
      · rw [List.length_drop] at hmiddle
        rw [hmiddle, List.length_cons]
        omega
      · rw [List.cons_append, lexemesFrom_cons, hsecond, List.drop_append_of_le_length hcross, hys,
          List.cons_append]
      · rw [lexemesFrom_cons, has, List.cons_append]
    · refine ⟨[], start, a :: as, rfl, .cons extra problem rest, rfl, rfl, ?_⟩
      rintro b bs hbs
      obtain ⟨rfl, rfl⟩ := List.cons.inj hbs
      exact Nat.lt_of_not_le hcross

/-- The tokens before a cut end there at the latest. -/
theorem IsCut.stop_le {as xs : List Char} (h : IsCut xs as) {start : Nat} {l : Lexeme}
    (hl : l ∈ lexemesFrom scanToken start as) : l.token.stop ≤ start + as.length := by
  induction h generalizing start with
  | nil => simp at hl
  | @cons a as extra problem rest ih =>
    have hfirst := isLocal_scanToken a as xs extra problem
    rw [hfirst] at extra ih
    rw [lexemesFrom_cons] at hl
    rw [List.length_cons]
    rcases List.mem_cons.mp hl with rfl | hl
    · simp only [Token.stop]
      omega
    · have hstop := ih hl
      rw [List.length_drop] at hstop
      omega

/-! ## What kinds are scanned -/

section

variable {test : TokenKind → Bool}

/-- What starts with a quote is a string, whole or broken. -/
theorem test_scanQuoted (hstring : ∀ text, test (.string text) = false)
    (hbroken : ∀ text, test (.badString text) = false) (c : Char) (cs : List Char) :
    test (scanQuoted c cs).kind = false := by
  simp only [scanQuoted]
  split
  · exact hstring _
  · exact hbroken _
  · exact hstring _

/-- What starts with a hash sign is a hash or a mark. -/
theorem test_scanHash (hhash : ∀ name isIdent, test (.hash name isIdent) = false)
    (hmark : ∀ text, test (.delim text) = false) (cs : List Char) :
    test (scanHash cs).kind = false := by
  simp only [scanHash]
  split
  · exact hhash _ _
  · exact hmark _

/-- What starts with a numeral is a number, a percentage or a dimension. -/
theorem test_scanNumeric (hnumber : ∀ n, test (.number n) = false)
    (hpercentage : ∀ n, test (.percentage n) = false)
    (hdimension : ∀ n unit, test (.dimension n unit) = false) (cs : List Char) :
    test (scanNumeric cs).kind = false := by
  simp only [scanNumeric]
  split_ifs
  · exact hdimension _ _
  · exact hpercentage _
  · exact hnumber _

/-- What starts with an identifier is an identifier or a function. -/
theorem test_scanIdentLike (hident : ∀ name, test (.ident name) = false)
    (hfunction : ∀ name, test (.function name) = false) (cs : List Char) :
    test (scanIdentLike cs).kind = false := by
  simp only [scanIdentLike]
  split
  · exact hfunction _
  · exact hident _

end

/-- What starts at a character, for each way in which a token can start. -/
inductive Scans (c : Char) (cs : List Char) : Scanned → Prop
  | comment (opened : c = '/' ∧ cs.head? = some '*') :
    Scans c cs ⟨.comment (String.ofList (c :: cs.take ((scanComment (cs.drop 1)).1 + 1))),
      (scanComment (cs.drop 1)).1 + 1,
      if (scanComment (cs.drop 1)).2 then none else some .commentNotClosed⟩
  | quoted (quote : c = '\"' ∨ c = '\'') : Scans c cs (scanQuoted c cs)
  | hash (sign : c = '#') : Scans c cs (scanHash cs)
  | numeric (starts : startsNumber (c :: cs) = true) : Scans c cs (scanNumeric (c :: cs))
  | commentClose (mark : c = '-' ∧ cs.take 2 = ['-', '>']) : Scans c cs (.plain .commentClose 2)
  | commentOpen (mark : c = '<' ∧ cs.take 3 = ['!', '-', '-']) :
    Scans c cs (.plain .commentOpen 3)
  | atKeyword (starts : c = '@' ∧ startsIdent cs = true) :
    Scans c cs (.plain (.atKeyword (String.ofList (scanIdent cs).1)) (scanIdent cs).2)
  | identLike (starts : startsIdent (c :: cs) = true)
    (unmarked : ¬ (c = '-' ∧ cs.take 2 = ['-', '>'])) : Scans c cs (scanIdentLike (c :: cs))
  | backslash (char : c = '\\') :
    Scans c cs ⟨.delim (String.singleton c), 0, some .invalidBackslash⟩
  | space (blank : isSpace c = true) :
    Scans c cs (.plain (.whitespace (String.ofList (c :: cs.takeWhile isSpace)))
      (cs.takeWhile isSpace).length)
  | opening {b : Bracket} (char : c = b.opening) : Scans c cs (.single (.opening b))
  | closing {b : Bracket} (char : c = b.closing) : Scans c cs (.single (.closing b))
  | comma (char : c = ',') : Scans c cs (.single .comma)
  | colon (char : c = ':') : Scans c cs (.single .colon)
  | semicolon (char : c = ';') : Scans c cs (.single .semicolon)
  | mark : Scans c cs (.mark c)

/-- The scanner of the style language starts a token in one of these ways. -/
theorem scans_scanToken (c : Char) (cs : List Char) : Scans c cs (scanToken c cs) := by
  unfold scanToken
  refine iteInduction .comment fun _ => ?_
  refine iteInduction .quoted fun _ => ?_
  refine iteInduction .hash fun _ => ?_
  refine iteInduction .numeric fun _ => ?_
  refine iteInduction .commentClose fun hclose => ?_
  refine iteInduction .commentOpen fun _ => ?_
  refine iteInduction .atKeyword fun _ => ?_
  refine iteInduction (.identLike · hclose) fun _ => ?_
  refine iteInduction .backslash fun _ => ?_
  refine iteInduction .space fun _ => ?_
  refine iteInduction (.opening (b := .round)) fun _ => ?_
  refine iteInduction (.closing (b := .round)) fun _ => ?_
  refine iteInduction (.opening (b := .square)) fun _ => ?_
  refine iteInduction (.closing (b := .square)) fun _ => ?_
  refine iteInduction (.opening (b := .curly)) fun _ => ?_
  refine iteInduction (.closing (b := .curly)) fun _ => ?_
  refine iteInduction .comma fun _ => ?_
  refine iteInduction .colon fun _ => ?_
  exact iteInduction .semicolon fun _ => .mark

/-! ## Whitespace across a cut -/

/-- A token that is whitespace starts with whitespace. -/
theorem isSpace_of_isWhitespace {c : Char} {cs : List Char}
    (h : (scanToken c cs).kind.isWhitespace = true) : isSpace c = true := by
  have hscan := scans_scanToken c cs
  generalize scanToken c cs = s at h hscan
  have hother : s.kind.isWhitespace = false → isSpace c = true :=
    fun hfalse => absurd (hfalse.symm.trans h) Bool.false_ne_true
  cases hscan with
  | space blank => exact blank
  | quoted quote => exact hother (test_scanQuoted (fun _ => rfl) (fun _ => rfl) c cs)
  | hash sign => exact hother (test_scanHash (fun _ _ => rfl) (fun _ => rfl) cs)
  | numeric starts =>
    exact hother (test_scanNumeric (fun _ => rfl) (fun _ => rfl) (fun _ _ => rfl) (c :: cs))
  | identLike starts unmarked =>
    exact hother (test_scanIdentLike (fun _ => rfl) (fun _ => rfl) (c :: cs))
  | _ => exact hother rfl

theorem startsNumber_cons (a : Char) (cs : List Char) :
    startsNumber (a :: cs) =
      if a = '+' ∨ a = '-' then startsUnsigned cs else startsUnsigned (a :: cs) := by
  rw [startsNumber]

theorem scanToken_of_isSpace {c : Char} (h : isSpace c = true) (cs : List Char) :
    scanToken c cs = .plain (.whitespace (String.ofList (c :: cs.takeWhile isSpace)))
      (cs.takeWhile isSpace).length := by
  have hchars : c = '\t' ∨ c = '\n' ∨ c = ' ' := by
    simpa [isSpace, or_assoc] using h
  have hnumber : startsNumber (c :: cs) = false := by
    rw [startsNumber_cons, NumeralParts.startsUnsigned_cons]
    rcases hchars with rfl | rfl | rfl <;> rfl
  have hident : startsIdent (c :: cs) = false := by
    rw [startsIdent_cons]
    rcases hchars with rfl | rfl | rfl <;> rfl
  have hnone : c ≠ '/' ∧ c ≠ '\"' ∧ c ≠ '\'' ∧ c ≠ '#' ∧ c ≠ '-' ∧ c ≠ '<' ∧ c ≠ '@' ∧
      c ≠ '\\' := by
    rcases hchars with rfl | rfl | rfl <;> decide
  obtain ⟨h₁, h₂, h₃, h₄, h₅, h₆, h₇, h₈⟩ := hnone
  simp only [scanToken, h₁, h₂, h₃, h₄, h₅, h₆, h₇, h₈, hnumber, hident, h, false_and, or_self,
    if_false, if_true, Bool.false_eq_true]

/-- If whitespace goes on beyond a cut, there is nothing else before the cut. -/
theorem lexemesFrom_of_crosses_isWhitespace {b : Char} {bs ys : List Char} (middle : Nat)
    (hkind : (scanToken b (bs ++ ys)).kind.isWhitespace = true)
    (hcross : bs.length < (scanToken b (bs ++ ys)).extra) :
    ∃ w, lexemesFrom scanToken middle (b :: bs) = [w] ∧ w.token.kind.isWhitespace = true := by
  have hb := isSpace_of_isWhitespace hkind
  rw [scanToken_of_isSpace hb] at hcross
  have hall : bs.takeWhile isSpace = bs := by
    rw [List.takeWhile_append] at hcross
    by_contra hne
    rw [if_neg (fun hlength => hne ((List.takeWhile_prefix _).eq_of_length hlength))] at hcross
    exact absurd (List.takeWhile_sublist _).length_le (Nat.not_le_of_lt hcross)
  have hdrop : bs.drop bs.length = [] := List.drop_length
  rw [lexemesFrom_cons, scanToken_of_isSpace hb, hall]
  simp only [Scanned.plain, hdrop, lexemesFrom_nil]
  exact ⟨_, rfl, rfl⟩

/-- Two texts have a first part in common, the first of them is cut behind it, and no token of the
second goes on beyond it, unless it is whitespace.  Then they have the same tokens up to the end of
that part, or up to the whitespace there. -/
theorem IsCut.exists_common_blanks {as xs : List Char} (h : IsCut xs as) {ys : List Char}
    {start : Nat} (hsound : ∀ l ∈ lexemesFrom scanToken start (as ++ ys), l.problem = none)
    (hseam : ∀ l ∈ lexemesFrom scanToken start (as ++ ys), l.token.start < start + as.length →
      start + as.length < l.token.stop → l.token.kind.isWhitespace = true) :
    ∃ common blanks after, lexemesFrom scanToken start as = common ++ blanks ∧
      lexemesFrom scanToken start (as ++ ys) = common ++ after ∧
      ∀ w ∈ blanks, w.token.kind.isWhitespace = true := by
  obtain ⟨common, middle, bs, hmiddle, -, hys, has, hcross⟩ := h.exists_common ys start hsound
  refine ⟨common, lexemesFrom scanToken middle bs, _, has, hys, fun w hw => ?_⟩
  cases bs with
  | nil => exact absurd hw (by simp)
  | cons b bs =>
    have hlt := hcross b bs rfl
    rw [List.length_cons] at hmiddle
    have hwhite : (scanToken b (bs ++ ys)).kind.isWhitespace = true := by
      rw [hys, List.cons_append, lexemesFrom_cons] at hseam
      refine hseam _ (List.mem_append_right _ List.mem_cons_self) ?_ ?_
      · simp only [Token.start]
        omega
      · simp only [Token.stop]
        omega
    obtain ⟨v, hv, hkind⟩ := lexemesFrom_of_crosses_isWhitespace middle hwhite hlt
    rw [hv] at hw
    rwa [List.mem_singleton.mp hw]

/-! ## Functions across a cut -/

/-- The kind is a function. -/
def TokenKind.isFunction : TokenKind → Bool
  | function _ => true
  | _ => false

/-- The kind is an identifier or a function. -/
def TokenKind.isIdentLike : TokenKind → Bool
  | ident _ | function _ => true
  | _ => false

theorem TokenKind.isIdentLike_of_isFunction {kind : TokenKind} (h : kind.isFunction = true) :
    kind.isIdentLike = true := by
  cases kind <;> first | rfl | exact absurd h Bool.false_ne_true

/-- What an identifier or a function starts with. -/
theorem startsIdent_of_isIdentLike {c : Char} {cs : List Char}
    (h : (scanToken c cs).kind.isIdentLike = true) :
    startsIdent (c :: cs) = true ∧ ¬ (c = '-' ∧ cs.take 2 = ['-', '>']) := by
  have hscan := scans_scanToken c cs
  generalize scanToken c cs = s at h hscan
  have hother : s.kind.isIdentLike = false →
      startsIdent (c :: cs) = true ∧ ¬ (c = '-' ∧ cs.take 2 = ['-', '>']) :=
    fun hfalse => absurd (hfalse.symm.trans h) Bool.false_ne_true
  cases hscan with
  | identLike starts unmarked => exact ⟨starts, unmarked⟩
  | quoted quote => exact hother (test_scanQuoted (fun _ => rfl) (fun _ => rfl) c cs)
  | hash sign => exact hother (test_scanHash (fun _ _ => rfl) (fun _ => rfl) cs)
  | numeric starts =>
    exact hother (test_scanNumeric (fun _ => rfl) (fun _ => rfl) (fun _ _ => rfl) (c :: cs))
  | _ => exact hother rfl

/-- A letter is no digit and no point. -/
theorem not_isDigit_of_isIdentStart {c : Char} (h : isIdentStart c = true) :
    isDigit c = false ∧ c ≠ '.' := by
  have hc : 'a'.toNat ≤ c.toNat ∨ ('A'.toNat ≤ c.toNat ∧ c.toNat ≤ 'Z'.toNat) ∨ c = '_' := by
    simp only [isIdentStart, Bool.or_eq_true, Bool.and_eq_true, decide_eq_true_eq, beq_iff_eq,
      Char.le_def, UInt32.le_iff_toNat_le] at h
    rcases h with ((h | h) | h) | h
    · exact Or.inl h.1
    · exact Or.inr (Or.inl h)
    · exact Or.inl ((show 97 ≤ 128 by decide).trans h)
    · exact Or.inr (Or.inr h)
  constructor
  · simp only [isDigit, Bool.and_eq_false_iff, decide_eq_false_iff_not, Char.le_def,
      UInt32.le_iff_toNat_le]
    right
    rcases hc with h | h | rfl
    · exact fun h' => absurd (h.trans h') (by decide)
    · exact fun h' => absurd (h.1.trans h') (by decide)
    · decide
  · rintro rfl
    revert hc
    decide

/-- What an identifier starts with is no number. -/
theorem startsNumber_of_startsIdent {cs : List Char} (h : startsIdent cs = true) :
    startsNumber cs = false := by
  have hunsigned : ∀ (d : Char) (ds : List Char), isDigit d = false → d ≠ '.' →
      startsUnsigned (d :: ds) = false := by
    intro d ds hd hpoint
    simp [NumeralParts.startsUnsigned_cons, hd, hpoint]
  cases cs with
  | nil => exact absurd h (by simp [startsIdent])
  | cons c cs =>
    rw [startsIdent_cons] at h
    rw [startsNumber_cons]
    by_cases hminus : c = '-'
    · subst hminus
      rw [if_pos rfl] at h
      rw [if_pos (Or.inr rfl)]
      cases cs with
      | nil => rfl
      | cons d ds =>
        rcases Bool.or_eq_true_iff.mp h with h | h
        · rcases Bool.or_eq_true_iff.mp h with h | h
          · exact hunsigned d ds (not_isDigit_of_isIdentStart h).1 (not_isDigit_of_isIdentStart h).2
          · rw [beq_iff_eq.mp h]
            exact hunsigned '-' ds rfl (by decide)
        · have hd : d = '\\' := by
            cases ds with
            | nil => simp at h
            | cons e ds => exact beq_iff_eq.mp (Bool.and_eq_true_iff.mp
                (startsEscape_cons_cons d e ds ▸ h)).1
          rw [hd]
          exact hunsigned '\\' ds rfl (by decide)
    · rw [if_neg hminus] at h
      have hplus : ¬ (c = '+' ∨ c = '-') := by
        rintro (rfl | rfl)
        · rw [if_neg (by decide)] at h
          exact absurd h (by decide)
        · exact hminus rfl
      rw [if_neg hplus]
      by_cases hslash : c = '\\'
      · rw [hslash]
        exact hunsigned '\\' cs rfl (by decide)
      · rw [if_neg hslash] at h
        exact hunsigned c cs (not_isDigit_of_isIdentStart h).1 (not_isDigit_of_isIdentStart h).2

/-- Where an identifier starts and no end mark of a comment, an identifier or function is read. -/
theorem scanToken_of_startsIdent {c : Char} {cs : List Char} (h : startsIdent (c :: cs) = true)
    (hclose : ¬ (c = '-' ∧ cs.take 2 = ['-', '>'])) :
    scanToken c cs = scanIdentLike (c :: cs) := by
  have hmark : ∀ d : Char, d ≠ '-' → d ≠ '\\' → isIdentStart d = false → c ≠ d := by
    rintro d hminus hslash hd rfl
    rw [startsIdent_cons, if_neg hminus, if_neg hslash, hd] at h
    exact Bool.false_ne_true h
  have hnumber := startsNumber_of_startsIdent h
  have h₁ := hmark '/' (by decide) (by decide) rfl
  have h₂ := hmark '\"' (by decide) (by decide) rfl
  have h₃ := hmark '\'' (by decide) (by decide) rfl
  have h₄ := hmark '#' (by decide) (by decide) rfl
  have h₅ := hmark '<' (by decide) (by decide) rfl
  have h₆ := hmark '@' (by decide) (by decide) rfl
  simp only [scanToken, h₁, h₂, h₃, h₄, h₅, h₆, hnumber, h, hclose, false_and, or_self, if_false,
    if_true, Bool.false_eq_true]

/-- An escape that ends before the end of a text does not depend on what follows the text. -/
theorem scanEscape_append {as : List Char} (h : (scanEscape as).2 < as.length) (ys : List Char) :
    scanEscape (as ++ ys) = scanEscape as := by
  cases as with
  | nil => exact absurd h (by simp)
  | cons a as =>
    rw [List.cons_append, scanEscape, scanEscape] at *
    by_cases ha : isHexDigit a = true
    · simp only [if_pos ha] at h ⊢
      have hlt := (Nat.le_add_right _ _).trans_lt h
      have hdigits : ((a :: (as ++ ys)).take 6).takeWhile isHexDigit =
          ((a :: as).take 6).takeWhile isHexDigit := by
        rw [← List.cons_append, List.take_append, List.takeWhile_append]
        split
        next hall =>
          rw [List.length_take] at hall
          rw [show 6 - (a :: as).length = 0 by omega, List.take_zero, List.takeWhile_nil,
            List.append_nil]
          exact ((List.takeWhile_prefix _).eq_of_length (hall.trans List.length_take.symm)).symm
        next => rfl
      rw [hdigits, ← List.cons_append, List.drop_append_of_le_length hlt.le]
      cases hdrop : (a :: as).drop (((a :: as).take 6).takeWhile isHexDigit).length with
      | nil => exact absurd (List.drop_eq_nil_iff.mp hdrop) (Nat.not_le_of_lt hlt)
      | cons d ds => rfl
    · simp only [if_neg ha]

theorem startsEscape_of_ne {a : Char} (h : a ≠ '\\') (cs : List Char) :
    startsEscape (a :: cs) = false := by
  cases cs with
  | nil => exact startsEscape_singleton a
  | cons c cs => rw [startsEscape_cons_cons, beq_eq_false_iff_ne.mpr h, Bool.false_and]

section Behind

variable {xs : List Char} (hxs : startsIdent xs = true)

include hxs

/-- What starts an identifier can be escaped. -/
theorem startsEscape_slash : startsEscape ('\\' :: xs) = true := by
  cases xs with
  | nil => exact absurd hxs (by simp [startsIdent])
  | cons x xs =>
    have hx : x ≠ '\n' := by
      rintro rfl
      rw [startsIdent_cons, if_neg (by decide), if_neg (by decide)] at hxs
      exact absurd hxs (by decide)
    simp [startsEscape_cons_cons, hx]

theorem startsEscape_replace {a : Char} {as ys : List Char}
    (h : startsEscape (a :: (as ++ ys)) = true) : startsEscape (a :: (as ++ xs)) = true := by
  have ha : a = '\\' := by
    by_contra hne
    rw [startsEscape_of_ne hne] at h
    exact Bool.false_ne_true h
  cases as with
  | nil =>
    rw [ha]
    exact startsEscape_slash hxs
  | cons b as =>
    rw [List.cons_append, startsEscape_cons_cons] at *
    exact h

/-- An identifier that starts before a cut starts there also if an identifier stands behind the
cut. -/
theorem startsIdent_replace {a : Char} {as ys : List Char}
    (h : startsIdent (a :: (as ++ ys)) = true) : startsIdent (a :: (as ++ xs)) = true := by
  rw [startsIdent_cons] at *
  by_cases hminus : a = '-'
  · rw [if_pos hminus] at *
    cases as with
    | cons b as =>
      rcases Bool.or_eq_true_iff.mp h with h | h
      · exact Bool.or_eq_true_iff.mpr (Or.inl h)
      · exact Bool.or_eq_true_iff.mpr (Or.inr (startsEscape_replace hxs h))
    | nil =>
      cases xs with
      | nil => exact absurd hxs (by simp [startsIdent])
      | cons x xs =>
        rw [startsIdent_cons] at hxs
        by_cases hx : x = '-'
        · simp [hx]
        · rw [if_neg hx] at hxs
          by_cases hslash : x = '\\'
          · rw [if_pos hslash] at hxs
            exact Bool.or_eq_true_iff.mpr (Or.inr hxs)
          · rw [if_neg hslash] at hxs
            simp [hxs]
  · rw [if_neg hminus] at *
    by_cases hslash : a = '\\'
    · rw [if_pos hslash] at *
      exact startsEscape_replace hxs h
    · rw [if_neg hslash] at *
      exact h

/-- The end mark of a comment does not reach over a cut with an identifier behind it. -/
theorem take_replace {as : List Char} (h : (as ++ xs).take 2 = ['-', '>']) (ys : List Char) :
    (as ++ ys).take 2 = ['-', '>'] := by
  have hmark : ∀ zs : List Char, xs ≠ '>' :: zs ∧ xs ≠ '-' :: '>' :: zs := by
    intro zs
    constructor
    · rintro rfl
      rw [startsIdent_cons, if_neg (by decide), if_neg (by decide)] at hxs
      exact absurd hxs (by decide)
    · rintro rfl
      rw [startsIdent_cons, if_pos rfl, startsEscape_of_ne (by decide), Bool.or_false] at hxs
      exact absurd (show (isIdentStart '>' || '>' == '-') = true from hxs) (by decide)
  rcases as with _ | ⟨a, _ | ⟨b, as⟩⟩
  · rcases xs with _ | ⟨x, _ | ⟨y, xs⟩⟩
    · simp at h
    · simp at h
    · simp only [List.nil_append, List.take_succ_cons, List.take_zero, List.cons.injEq] at h
      exact absurd (by rw [h.1, h.2.1]) (hmark xs).2
  · rcases xs with _ | ⟨x, xs⟩
    · simp at h
    · simp only [List.cons_append, List.nil_append, List.take_succ_cons, List.take_zero,
        List.cons.injEq] at h
      exact absurd (by rw [h.2.1]) (hmark xs).1
  · exact h

/-- If an identifier stands behind a cut, it would go on with one that ends there. -/
theorem scanIdent_lt_of_startsIdent {as : List Char} (hle : (scanIdent (as ++ xs)).2 ≤ as.length) :
    (scanIdent (as ++ xs)).2 < as.length ∧ ∀ ys, scanIdent (as ++ ys) = scanIdent (as ++ xs) := by
  induction hn : as.length using Nat.strongRecOn generalizing as with
  | ind n ih =>
    cases as with
    | nil => exact absurd ((scanIdent_pos hxs).trans hle) (Nat.not_succ_le_zero 0)
    | cons a as =>
      rw [← hn]
      rw [List.cons_append, scanIdent_cons, List.length_cons] at hle
      simp only [List.cons_append, scanIdent_cons, List.length_cons]
      by_cases ha : isIdentChar a = true
      · simp only [if_pos ha] at hle ⊢
        obtain ⟨hlt, hsame⟩ := ih as.length (hn ▸ by simp) (Nat.le_of_add_le_add_right hle) rfl
        exact ⟨Nat.succ_lt_succ hlt, fun ys => by rw [hsame ys]⟩
      simp only [if_neg ha] at hle ⊢
      by_cases hescape : startsEscape (a :: (as ++ xs)) = true
      · have hne : as ++ xs ≠ [] := by
          intro h
          rw [h, startsEscape_singleton] at hescape
          exact Bool.false_ne_true hescape
        have hpos := scanEscape_pos hne
        simp only [if_pos hescape] at hle ⊢
        have hsize : (scanEscape (as ++ xs)).2 ≤ as.length := by omega
        have hchar := isLocal_scanEscape as xs hsize trivial
        rw [hchar] at hle hpos hsize ⊢
        rw [List.drop_append_of_le_length hsize] at hle ⊢
        have hdrop := List.length_drop (i := (scanEscape as).2) (l := as)
        rw [List.length_cons] at hn
        have hshorter : (as.drop (scanEscape as).2).length < n := by omega
        obtain ⟨hlt, hsame⟩ := @ih _ hshorter (as.drop (scanEscape as).2) (by omega) rfl
        have hend : (scanEscape as).2 < as.length := by omega
        refine ⟨by omega, fun ys => ?_⟩
        have hsame' : startsEscape (a :: (as ++ ys)) = startsEscape (a :: (as ++ xs)) := by
          have htwo : 2 ≤ (a :: as).length := by
            rw [List.length_cons]
            omega
          have hx := startsEscape_append (a :: as) xs htwo
          have hy := startsEscape_append (a :: as) ys htwo
          exact hy.trans hx.symm
        rw [hsame', hescape, if_pos rfl, scanEscape_append hend,
          List.drop_append_of_le_length hsize, hsame ys]
      · have hother : ∀ ys, ¬ startsEscape (a :: (as ++ ys)) = true :=
          fun ys h => hescape (startsEscape_replace hxs h)
        simp only [if_neg (hother _)]
        exact ⟨Nat.succ_pos _, fun _ => trivial⟩

end Behind

/-- If an identifier stands behind a cut and something else is put there, a token that goes on
beyond the cut is no function. -/
theorem isFunction_of_crosses {b : Char} {bs xs ys : List Char}
    (hxs : startsIdent xs = true) (hcut : (scanToken b (bs ++ xs)).extra ≤ bs.length)
    (hcross : bs.length < (scanToken b (bs ++ ys)).extra) :
    (scanToken b (bs ++ ys)).kind.isFunction = false := by
  by_contra hkind
  obtain ⟨hstart, hclose⟩ :=
    startsIdent_of_isIdentLike (TokenKind.isIdentLike_of_isFunction (Bool.not_eq_false _ ▸ hkind))
  have hstart' := startsIdent_replace hxs hstart
  have hclose' : ¬ (b = '-' ∧ (bs ++ xs).take 2 = ['-', '>']) :=
    fun h => hclose ⟨h.1, take_replace hxs h.2 ys⟩
  rw [scanToken_of_startsIdent hstart hclose] at hcross
  rw [scanToken_of_startsIdent hstart' hclose'] at hcut
  have hle := (scanIdent_le_scanIdentLike (b :: (bs ++ xs))).trans (Nat.succ_le_succ hcut)
  obtain ⟨hlt, hsame⟩ := @scanIdent_lt_of_startsIdent xs hxs (b :: bs) hle
  have hhead : ∀ zs, ((b :: bs ++ zs).drop (scanIdent (b :: bs ++ xs)).2).head? =
      ((b :: bs).drop (scanIdent (b :: bs ++ xs)).2).head? := by
    intro zs
    have hrest := List.length_drop (i := (scanIdent (b :: bs ++ xs)).2) (l := b :: bs)
    rw [List.drop_append_of_le_length hlt.le]
    exact (head?_of_append (by omega)).symm
  have hlike : scanIdentLike (b :: bs ++ ys) = scanIdentLike (b :: bs ++ xs) := by
    simp only [scanIdentLike, hsame ys, hhead ys, hhead xs]
  rw [← List.cons_append, hlike] at hcross
  exact absurd hcut (Nat.not_le_of_lt hcross)

end Styling
