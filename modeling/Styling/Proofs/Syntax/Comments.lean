import Styling.Proofs.Syntax.Seams
import Styling.Proofs.Syntax.Stopping

/-!
# Comments are transparent

A comment between two tokens changes neither of them.  A token looks at the text after it only to
find out whether it goes on, and the slash that a comment starts with is a character that no token
goes on with: only a string, a comment or an escape could, and a text without errors leaves none of
them open.  What follows the comment is read as before, since nothing is remembered from one token
to the next.

* `Dangles` is what a text must not end with, a backslash that escapes nothing, and
  `not_dangles_of_forall` says that a text without errors does not.
* `Stands` says that a token stays the same before a slash; `stands_scanToken` says it of every
  token, and `isCut_slash` of all tokens of a text.
* `lexemesFrom_comment` is about the comment, and `lexemesFrom_insert` puts the parts together.
* `Source.lex_insert_comment` is about the tokens of a source.
-/

namespace Styling

/-! ## Conditions -/

/-- A backslash at the end of a text, alone or after a hyphen.  It escapes nothing there, but it
would escape a character behind it. -/
def Dangles (cs : List Char) : Prop :=
  cs = ['\\'] ∨ cs = ['-', '\\']

section Conditions

variable {as : List Char} (ys : List Char)

theorem head?_append_slash_iff {d : Char} (hd : d ≠ '/') :
    (as ++ '/' :: ys).head? = some d ↔ as.head? = some d := by
  cases as with
  | nil => simp [Ne.symm hd]
  | cons a as => rfl

theorem any_head?_append_slash {p : Char → Bool} (hp : p '/' = false) :
    (as ++ '/' :: ys).head?.any p = as.head?.any p := by
  cases as with
  | nil => simpa using hp
  | cons a as => rfl

theorem take_append_slash_iff (ds : List Char) (hds : '/' ∉ ds) :
    (as ++ '/' :: ys).take ds.length = ds ↔ as.take ds.length = ds := by
  constructor
  · intro h
    rwa [List.take_append_of_le_length (le_length_of_take hds h)] at h
  · exact fun h => take_append_of_take _ h rfl

theorem startsEscape_append_slash (h : as ≠ ['\\']) :
    startsEscape (as ++ '/' :: ys) = startsEscape as := by
  rcases as with _ | ⟨a, _ | ⟨b, as⟩⟩
  · exact startsEscape_of_ne (by decide) ys
  · rw [startsEscape_singleton]
    exact startsEscape_of_ne (fun ha => h (by rw [ha])) _
  · simp only [List.cons_append, startsEscape_cons_cons]

theorem startsIdent_append_slash (h : ¬ Dangles as) :
    startsIdent (as ++ '/' :: ys) = startsIdent as := by
  have hslash : as ≠ ['\\'] := fun has => h (Or.inl has)
  cases as with
  | nil => rw [List.nil_append, startsIdent_cons]; rfl
  | cons a as =>
    have hescape := startsEscape_append_slash ys hslash
    rw [List.cons_append] at hescape
    rw [List.cons_append, startsIdent_cons, startsIdent_cons, hescape,
      any_head?_append_slash ys (by rfl)]
    by_cases ha : a = '-'
    · have hrest : as ≠ ['\\'] := fun has => h (Or.inr (by rw [ha, has]))
      rw [startsEscape_append_slash ys hrest]
    · rw [if_neg ha, if_neg ha]

/-- No numeral has a slash in it. -/
theorem isForeign_slash : NumeralParts.IsForeign '/' :=
  ⟨rfl, by decide, by decide, by decide⟩

end Conditions

/-! ## Parts of tokens -/

section Parts

variable {as : List Char}

/-- An identifier ends before a slash, unless the slash is escaped. -/
theorem scanIdent_append_slash (h : as.drop (scanIdent as).2 ≠ ['\\']) (ys : List Char) :
    scanIdent (as ++ '/' :: ys) = scanIdent as := by
  induction hn : as.length using Nat.strongRecOn generalizing as with
  | ind n ih =>
    cases as with
    | nil =>
      rw [List.nil_append, scanIdent_nil, scanIdent_cons, if_neg (by decide),
        startsEscape_of_ne (by decide)]
      rfl
    | cons a as =>
      rw [List.length_cons] at hn
      rw [List.cons_append, scanIdent_cons, scanIdent_cons]
      rw [scanIdent_cons] at h
      by_cases ha : isIdentChar a = true
      · rw [if_pos ha] at h
        rw [if_pos ha, if_pos ha, ih as.length (by omega) h rfl]
      rw [if_neg ha] at h
      rw [if_neg ha, if_neg ha]
      by_cases hescape : startsEscape (a :: as) = true
      · have hne : as ≠ [] := by
          rintro rfl
          exact absurd hescape (by simp)
        have hsame : startsEscape (a :: (as ++ '/' :: ys)) = true := by
          rw [← List.cons_append, startsEscape_append _ _ (two_le_of_startsEscape hescape), hescape]
        have hsize : (scanEscape as).2 ≤ as.length := isBounded_scanEscape as
        have hdrop := List.length_drop (i := (scanEscape as).2) (l := as)
        have hpos := scanEscape_pos hne
        rw [if_pos hescape] at h
        dsimp only at h
        rw [List.drop_succ_cons, Nat.add_comm, ← List.drop_drop] at h
        rw [if_pos hescape, if_pos hsame, scanEscape_stop hne rfl rfl,
          List.drop_append_of_le_length hsize, ih _ (by omega) h rfl]
      · rw [if_neg hescape] at h
        have hsame : startsEscape (a :: (as ++ '/' :: ys)) = startsEscape (a :: as) :=
          startsEscape_append_slash ys h
        rw [if_neg hescape, hsame, if_neg hescape]

/-- A string that is closed does not depend on what follows it. -/
theorem scanString_append {quote : Char} (h : (scanString quote as).ending = .quote)
    (ys : List Char) : scanString quote (as ++ ys) = scanString quote as := by
  induction hn : as.length using Nat.strongRecOn generalizing as with
  | ind n ih =>
    cases as with
    | nil => exact absurd h (by simp [scanString])
    | cons a as =>
      rw [List.length_cons] at hn
      rw [scanString_cons] at h
      rw [List.cons_append, scanString_cons, scanString_cons]
      by_cases hquote : a = quote
      · rw [if_pos hquote, if_pos hquote]
      rw [if_neg hquote] at h
      rw [if_neg hquote, if_neg hquote]
      by_cases hnewline : a = '\n'
      · rw [if_pos hnewline, if_pos hnewline]
      rw [if_neg hnewline] at h
      rw [if_neg hnewline, if_neg hnewline]
      by_cases hslash : a = '\\'
      · rw [if_pos hslash] at h
        rw [if_pos hslash, if_pos hslash]
        have hne : as.isEmpty = false := by
          by_contra hempty
          rw [Bool.not_eq_false] at hempty
          rw [if_pos hempty] at h
          exact absurd h (by simp)
        have hne' : (as ++ ys).isEmpty = false := by
          cases as with
          | nil => exact absurd hne (by simp)
          | cons b as => rfl
        have hpos : 1 ≤ as.length := List.length_pos_iff.mpr (List.isEmpty_eq_false_iff.mp hne)
        have hsame : startsEscape (a :: (as ++ ys)) = startsEscape (a :: as) :=
          startsEscape_append (a :: as) ys (Nat.succ_le_succ hpos)
        simp only [hne, hne', hsame, Bool.false_eq_true, if_false] at h ⊢
        by_cases hescape : startsEscape (a :: as) = true
        · rw [if_pos hescape] at h
          -- the closing quote stands behind the escape
          have hlt : (scanEscape as).2 < as.length := by
            by_contra hle
            rw [List.drop_eq_nil_of_le (Nat.le_of_not_lt hle)] at h
            exact absurd h (by simp [scanString, ScannedString.prepend])
          have hdrop := List.length_drop (i := (scanEscape as).2) (l := as)
          rw [if_pos hescape, if_pos hescape, scanEscape_append hlt,
            List.drop_append_of_le_length hlt.le, ih _ (by omega) h rfl]
        · rw [if_neg hescape] at h
          have hdrop := List.length_drop (i := 1) (l := as)
          rw [if_neg hescape, if_neg hescape, List.drop_append_of_le_length hpos,
            ih _ (by omega) h rfl]
      · rw [if_neg hslash] at h
        rw [if_neg hslash, if_neg hslash, ih as.length (by omega) h rfl]

/-- A comment that is closed does not depend on what follows it. -/
theorem scanComment_append (h : (scanComment as).2 = true) (ys : List Char) :
    scanComment (as ++ ys) = scanComment as := by
  induction as with
  | nil => exact absurd h (by simp [scanComment])
  | cons a as ih =>
    rw [scanComment_cons] at h
    rw [List.cons_append, scanComment_cons, scanComment_cons]
    by_cases hend : a = '*' ∧ as.head? = some '/'
    · rw [if_pos hend, if_pos ⟨hend.1, head?_append_of_head? ys hend.2⟩]
    · rw [if_neg hend] at h
      have hne : 1 ≤ as.length := by
        cases as with
        | nil => exact absurd h (by simp [scanComment])
        | cons b as => exact Nat.le_add_left 1 _
      have hhead : as.head? = (as ++ ys).head? := head?_of_append hne
      rw [← hhead, if_neg hend, if_neg hend, ih h]

end Parts

/-! ## Tokens -/

/-- What is read without problem, with no backslash dangling behind it, is read before a slash as
well. -/
def Stands (f : List Char → Scanned) (as : List Char) : Prop :=
  (f as).problem = none → ¬ Dangles (as.drop (f as).extra) → ∀ ys, f (as ++ '/' :: ys) = f as

namespace Stands

variable {f g : List Char → Scanned} {as : List Char}

/-- A choice by a condition that a slash does not change. -/
theorem ite {P : List Char → Prop} [DecidablePred P]
    (hP : (if P as then f as else g as).problem = none →
      ¬ Dangles (as.drop (if P as then f as else g as).extra) → ∀ ys, P (as ++ '/' :: ys) ↔ P as)
    (hf : P as → Stands f as) (hg : ¬ P as → Stands g as) :
    Stands (fun cs => if P cs then f cs else g cs) as := by
  intro hproblem hrest ys
  dsimp only at hproblem hrest ⊢
  have hsame := hP hproblem hrest ys
  by_cases h : P as
  · rw [if_pos h] at hproblem hrest
    rw [if_pos h, if_pos (hsame.mpr h)]
    exact hf h hproblem hrest ys
  · rw [if_neg h] at hproblem hrest
    rw [if_neg h, if_neg (mt hsame.mp h)]
    exact hg h hproblem hrest ys

/-- A choice that does not depend on the text. -/
theorem iteConst {p : Prop} [Decidable p] (hf : p → Stands f as) (hg : ¬ p → Stands g as) :
    Stands (fun cs => if p then f cs else g cs) as :=
  ite (fun _ _ _ => Iff.rfl) hf hg

/-- Nothing more is read. -/
theorem const (t : Scanned) : Stands (fun _ => t) as :=
  fun _ _ _ => rfl

end Stands

section Tokens

variable {c : Char} {as : List Char}

/-- A number with its unit or percent sign. -/
theorem stands_scanNumeric (h : startsNumber (c :: as) = true) :
    Stands (fun cs => scanNumeric (c :: cs)) as := by
  intro _ hrest ys
  have hextra := extra_scanNumeric h
  have hbehind : as.drop (scanNumeric (c :: as)).extra =
      (c :: as).drop ((scanNumeric (c :: as)).extra + 1) := rfl
  rw [hbehind, hextra] at hrest
  dsimp only at hrest ⊢
  rw [← List.cons_append]
  simp only [scanNumeric, NumeralParts.scan_stop isForeign_slash,
    List.drop_append_of_le_length (NumeralParts.isBounded_scan (c :: as))]
  generalize (NumeralParts.scan (c :: as)).chars.length = size at hrest ⊢
  by_cases hunit : startsIdent ((c :: as).drop size) = true
  · rw [if_pos hunit, ← List.drop_drop] at hrest
    rw [if_pos hunit, if_pos (startsIdent_append _ hunit),
      scanIdent_append_slash fun hslash => hrest (Or.inl hslash)]
  · rw [if_neg hunit] at hrest
    have hwhole : ¬ Dangles ((c :: as).drop size) := by
      by_cases hpercent : ((c :: as).drop size).head? = some '%'
      · rintro (hslash | hslash) <;> rw [hslash] at hpercent <;> exact absurd hpercent (by decide)
      · rwa [if_neg hpercent] at hrest
    simp only [startsIdent_append_slash ys hwhole, hunit, Bool.false_eq_true, if_false,
      head?_append_slash_iff ys (show '%' ≠ '/' by decide)]

/-- An identifier, with the parenthesis of a function. -/
theorem stands_scanIdentLike (h : startsIdent (c :: as) = true) :
    Stands (fun cs => scanIdentLike (c :: cs)) as := by
  intro _ hrest ys
  have hextra := extra_scanIdentLike h
  have hbehind : as.drop (scanIdentLike (c :: as)).extra =
      (c :: as).drop ((scanIdentLike (c :: as)).extra + 1) := rfl
  rw [hbehind, hextra] at hrest
  have hslash : (c :: as).drop (scanIdent (c :: as)).2 ≠ ['\\'] := by
    intro hslash
    rw [hslash, if_neg (by decide), hslash] at hrest
    exact hrest (Or.inl rfl)
  dsimp only
  rw [← List.cons_append]
  simp only [scanIdentLike, scanIdent_append_slash hslash,
    List.drop_append_of_le_length (isBounded_scanIdent (c :: as)),
    head?_append_slash_iff ys (show '(' ≠ '/' by decide)]

/-- A string that is closed. -/
theorem stands_scanQuoted (quote : Char) : Stands (scanQuoted quote) as := by
  intro hproblem _ ys
  have hclosed : (scanString quote as).ending = .quote := by
    rw [scanQuoted] at hproblem
    split at hproblem
    next hending => exact hending
    next => exact absurd hproblem (by simp)
    next => exact absurd hproblem (by simp)
  rw [scanQuoted, scanQuoted, scanString_append hclosed]

/-- A hash sign with its name. -/
theorem stands_scanHash : Stands scanHash as := by
  intro _ hrest ys
  have hslash : as ≠ ['\\'] := by
    rintro rfl
    exact hrest (Or.inl rfl)
  have hmark : as ≠ ['-', '\\'] := by
    rintro rfl
    exact hrest (Or.inl (by decide +kernel))
  have hname : startsIdent (as ++ '/' :: ys) = startsIdent as :=
    startsIdent_append_slash ys fun hdangles => hdangles.elim hslash hmark
  rw [scanHash] at hrest
  rw [scanHash, scanHash, any_head?_append_slash ys (by rfl), startsEscape_append_slash ys hslash,
    hname]
  by_cases h : (as.head?.any isIdentChar || startsEscape as) = true
  · rw [if_pos h] at hrest
    rw [if_pos h, if_pos h, scanIdent_append_slash fun hend => hrest (Or.inl hend)]
  · rw [if_neg h, if_neg h]

/-- A comment token that is closed. -/
theorem stands_commentToken (h : as.head? = some '*') :
    Stands (fun cs => ⟨.comment (String.ofList (c :: cs.take ((scanComment (cs.drop 1)).1 + 1))),
      (scanComment (cs.drop 1)).1 + 1,
      if (scanComment (cs.drop 1)).2 then none else some .commentNotClosed⟩) as := by
  intro hproblem _ ys
  dsimp only at hproblem ⊢
  have hclosed : (scanComment (as.drop 1)).2 = true := by
    by_contra hopen
    rw [if_neg hopen] at hproblem
    exact absurd hproblem (by simp)
  rw [List.drop_append_of_le_length (one_le_length_of_head? h), scanComment_append hclosed,
    List.take_append_of_le_length (extra_commentToken_le h)]

/-- **Every token that is read without problem is read before a slash as well**, if no backslash
dangles behind it. -/
theorem stands_scanToken (c : Char) (as : List Char) : Stands (scanToken c) as := by
  refine .ite (fun _ _ ys => ?_) (fun h => stands_commentToken h.2) fun _ => ?_
  · exact and_congr_right fun _ => head?_append_slash_iff ys (by decide)
  refine .iteConst (fun _ => stands_scanQuoted c) fun _ => ?_
  refine .iteConst (fun _ => stands_scanHash) fun _ => ?_
  refine .ite (fun _ _ ys => ?_) stands_scanNumeric fun _ => ?_
  · rw [← List.cons_append, NumeralParts.startsNumber_stop isForeign_slash]
  refine .ite (fun _ _ ys => ?_) (fun _ => .const _) fun _ => ?_
  · exact and_congr_right fun _ => take_append_slash_iff ys ['-', '>'] (by decide)
  refine .ite (fun _ _ ys => ?_) (fun _ => .const _) fun _ => ?_
  · exact and_congr_right fun _ => take_append_slash_iff ys ['!', '-', '-'] (by decide)
  refine .ite (fun _ hrest ys => ?_) (fun _ _ hrest ys => ?_) fun _ => ?_
  · -- an at sign before a dangling backslash is read alone
    refine and_congr_right fun hc => ?_
    subst hc
    rw [startsIdent_append_slash ys]
    rintro (rfl | rfl)
    · exact hrest (Or.inl (by decide))
    · exact hrest (Or.inr (by decide))
  · dsimp only
    rw [scanIdent_append_slash fun hslash => hrest (Or.inl hslash)]
  refine .ite (fun hproblem hrest ys => ?_) stands_scanIdentLike fun _ => ?_
  · -- a backslash that dangles is a problem itself, and a hyphen before one is read alone
    rw [← List.cons_append, startsIdent_append_slash ys]
    rintro (h | h)
    · obtain ⟨rfl, rfl⟩ := List.cons.inj h
      exact absurd hproblem (by decide)
    · obtain ⟨rfl, rfl⟩ := List.cons.inj h
      exact hrest (Or.inl (by decide))
  refine .iteConst (fun _ => .const _) fun _ => .iteConst (fun _ _ _ ys => ?_) fun _ => ?_
  · simp only [takeWhile_stop (p := isSpace) (c := '/') rfl]
  · exact fun _ _ _ => rfl

end Tokens

/-! ## Texts -/

/-- A text without errors leaves no backslash dangling. -/
theorem not_dangles_of_forall {start : Nat} {cs : List Char}
    (h : ∀ l ∈ lexemesFrom scanToken start cs, l.problem = none) : ¬ Dangles cs := by
  have hbackslash : (scanToken '\\' []).problem ≠ none := by decide
  rintro (rfl | rfl)
  · rw [lexemesFrom_cons] at h
    exact hbackslash (h _ List.mem_cons_self)
  · rw [lexemesFrom_cons, show (scanToken '-' ['\\']).extra = 0 by decide, List.drop_zero,
      lexemesFrom_cons] at h
    exact hbackslash (h _ (List.mem_cons_of_mem _ List.mem_cons_self))

/-- A slash cuts a text off behind its tokens, if they are free of problems. -/
theorem isCut_slash {start : Nat} {as : List Char}
    (h : ∀ l ∈ lexemesFrom scanToken start as, l.problem = none) (ys : List Char) :
    IsCut ('/' :: ys) as := by
  induction start, as using lexemesFrom.induct scanToken with
  | case1 start => exact .nil
  | case2 start a as token stop ih =>
    rw [lexemesFrom_cons] at h
    obtain ⟨hfirst, hrest⟩ := List.forall_mem_cons.mp h
    have hsame := stands_scanToken a as hfirst (not_dangles_of_forall hrest) ys
    refine .cons ?_ ?_ ?_
    · rw [hsame]
      exact isBounded_scanToken a as
    · rw [hsame]
      exact hfirst
    · rw [hsame]
      exact ih hrest

/-- **The tokens of a text without errors are the same before a slash.** -/
theorem lexemesFrom_append_slash {start : Nat} {as : List Char}
    (h : ∀ l ∈ lexemesFrom scanToken start as, l.problem = none) (ys : List Char) :
    lexemesFrom scanToken start (as ++ '/' :: ys) =
      lexemesFrom scanToken start as ++ lexemesFrom scanToken (start + as.length) ('/' :: ys) :=
  lexemesFrom_append (isCut_slash h ys) start

/-! ## Comments -/

/-- The text of a comment with the given body. -/
def commentChars (body : List Char) : List Char :=
  '/' :: '*' :: (body ++ ['*', '/'])

/-- A comment ends with the first end mark. -/
theorem scanComment_of_notInfix {body : List Char} (h : ¬ ['*', '/'] <:+: body)
    (rest : List Char) : scanComment (body ++ '*' :: '/' :: rest) = (body.length + 2, true) := by
  induction body with
  | nil => rfl
  | cons b body ih =>
    rw [List.infix_cons_iff, not_or] at h
    have hend : ¬ (b = '*' ∧ (body ++ '*' :: '/' :: rest).head? = some '/') := by
      rintro ⟨rfl, hhead⟩
      cases body with
      | nil => exact absurd hhead (by simp)
      | cons d body =>
        obtain rfl : d = '/' := Option.some_inj.mp hhead
        exact h.1 ⟨body, rfl⟩
    rw [List.cons_append, scanComment_cons, if_neg hend, ih h.2, List.length_cons]

/-- **A comment is one token**, whatever follows it. -/
theorem lexemesFrom_comment {body : List Char} (h : ¬ ['*', '/'] <:+: body) (start : Nat)
    (back : List Char) :
    lexemesFrom scanToken start (commentChars body ++ back) =
      ⟨⟨.comment (String.ofList (commentChars body)),
          ⟨start, start + (commentChars body).length⟩⟩, none⟩ ::
        lexemesFrom scanToken (start + (commentChars body).length) back := by
  let inside := '*' :: (body ++ ['*', '/'])
  have hlength : inside.length = body.length + 3 := by simp [inside]
  have htoken : scanToken '/' (inside ++ back) =
      .plain (.comment (String.ofList (commentChars body))) inside.length := by
    have hscan : scanComment ((inside ++ back).drop 1) = (body.length + 2, true) := by
      simp only [inside, List.cons_append, List.drop_succ_cons, List.drop_zero,
        List.append_assoc]
      exact scanComment_of_notInfix h back
    have hopened : '/' = '/' ∧ (inside ++ back).head? = some '*' := ⟨rfl, rfl⟩
    rw [scanToken, if_pos hopened]
    simp only [hscan, if_true]
    rw [← hlength, List.take_left]
    rfl
  have hchars : commentChars body ++ back = '/' :: (inside ++ back) := rfl
  have hsize : (commentChars body).length = inside.length + 1 := rfl
  rw [hchars, lexemesFrom_cons, htoken, hsize]
  simp only [Scanned.plain, List.drop_left, Nat.add_assoc]

/-- **Lexemes with a comment between them.** -/
theorem lexemesFrom_insert {front back body : List Char}
    (hsound : ∀ l ∈ lexemesFrom scanToken 0 (front ++ back), l.problem = none)
    (hcut : ∀ l ∈ lexemesFrom scanToken 0 (front ++ back),
      l.token.stop ≤ front.length ∨ front.length ≤ l.token.start)
    (hbody : ¬ ['*', '/'] <:+: body) :
    lexemesFrom scanToken 0 (front ++ back) =
        lexemesFrom scanToken 0 front ++ lexemesFrom scanToken front.length back ∧
      lexemesFrom scanToken 0 (front ++ (commentChars body ++ back)) =
        lexemesFrom scanToken 0 front ++
          ⟨⟨.comment (String.ofList (commentChars body)),
            ⟨front.length, front.length + (commentChars body).length⟩⟩, none⟩ ::
          (lexemesFrom scanToken front.length back).map
            (Lexeme.shift (commentChars body).length) := by
  have hsplit : lexemesFrom scanToken 0 (front ++ back) =
      lexemesFrom scanToken 0 front ++ lexemesFrom scanToken front.length back := by
    have hreach : ∀ l ∈ lexemesFrom scanToken 0 (front ++ back),
        l.problemOffset ≤ 0 + front.length ∨ 0 + front.length ≤ l.token.start := fun l hl => by
      rw [Lexeme.problemOffset, hsound l hl, if_neg (by simp), Nat.zero_add]
      exact hcut l hl
    have happend := lexemesFrom_append_of_forall hreach
    rwa [Nat.zero_add] at happend
  refine ⟨hsplit, ?_⟩
  have hfront : ∀ l ∈ lexemesFrom scanToken 0 front, l.problem = none := fun l hl =>
    hsound l (by rw [hsplit]; exact List.mem_append_left _ hl)
  have hslash := lexemesFrom_append_slash hfront ('*' :: (body ++ ['*', '/']) ++ back)
  rw [Nat.zero_add] at hslash
  have hcomment := lexemesFrom_comment hbody front.length back
  rw [← lexemesFrom_shift]
  exact hslash.trans (congrArg (lexemesFrom scanToken 0 front ++ ·) hcomment)

/-! ## Sources -/

namespace Source

/-- Only a newline or a replacement character can be new at the start of a normalized text. -/
theorem head?_of_head?_normalize {c : Char} {cs : List Char} (hc : c ≠ '\n' ∧ c ≠ replacementChar)
    (h : (normalize cs).head? = some c) : cs.head? = some c := by
  unfold normalize at h
  split at h
  next => exact absurd h (by simp)
  next => exact absurd (Option.some_inj.mp h).symm hc.1
  next d cs hd =>
    have hhead := Option.some_inj.mp h
    split at hhead
    · exact absurd hhead.symm hc.1
    · split at hhead
      · exact absurd hhead.symm hc.2
      · exact congrArg some hhead

/-- Normalization makes no end mark of a comment. -/
theorem infix_of_infix_normalize {cs : List Char} (h : ['*', '/'] <:+: normalize cs) :
    ['*', '/'] <:+: cs := by
  have hchars : ('*' ≠ '\n' ∧ '*' ≠ replacementChar) ∧ '/' ≠ '\n' ∧ '/' ≠ replacementChar := by
    decide
  fun_induction normalize cs with
  | case1 => exact h
  | case2 cs ih =>
    rcases List.infix_cons_iff.mp h with h | h
    · exact absurd (List.cons_prefix_cons.mp h).1 (by decide)
    · exact (ih h).trans ((List.suffix_cons _ _).trans (List.suffix_cons _ _)).isInfix
  | case3 d cs hd ih =>
    rcases List.infix_cons_iff.mp h with h | h
    · obtain ⟨hstar, hslash⟩ := List.cons_prefix_cons.mp h
      have hstar' : (d :: cs).head? = some '*' := by
        refine head?_of_head?_normalize hchars.1 ?_
        rw [normalize.eq_3 d cs hd, ← hstar]
        rfl
      obtain ⟨rest, hrest⟩ := hslash
      have hslash' : cs.head? = some '/' :=
        head?_of_head?_normalize hchars.2 (by rw [← hrest]; rfl)
      obtain ⟨rest', rfl⟩ := List.head?_eq_some_iff.mp hslash'
      obtain rfl := Option.some_inj.mp hstar'
      exact ⟨[], rest', rfl⟩
    · exact (ih h).trans (List.suffix_cons _ _).isInfix

theorem normalize_commentChars (body : List Char) :
    normalize (commentChars body) = commentChars (normalize body) := by
  have hends : ∀ cs : List Char, commentChars cs = ['/', '*'] ++ (cs ++ ['*', '/']) := fun _ => rfl
  have hbody : normalize (body ++ ['*', '/']) = normalize body ++ normalize ['*', '/'] :=
    normalize_append fun _ => by decide
  rw [hends, hends, normalize_append fun h => absurd h (by decide), hbody]
  rfl

theorem toList_comment (body : String) :
    ("/*" ++ body ++ "*/").toList = commentChars body.toList := by
  rw [String.toList_append, String.toList_append]
  rfl

theorem chars_ofString_comment (body : String) :
    (ofString ("/*" ++ body ++ "*/")).chars = commentChars (ofString body).chars := by
  rw [ofString, toList_comment, normalize_commentChars]
  rfl

/-- A comment is normalized on its own. -/
theorem chars_ofString_insert (front body back : String) :
    (ofString (front ++ ("/*" ++ body ++ "*/") ++ back)).chars =
      (ofString front).chars ++ (commentChars (ofString body).chars ++ (ofString back).chars) := by
  have hlast : (commentChars body.toList).getLast? = some '/' := by
    rw [commentChars, ← List.cons_append, ← List.cons_append, List.getLast?_append]
    rfl
  rw [ofString, String.toList_append, String.toList_append, toList_comment, List.append_assoc,
    normalize_append fun _ => by simp [commentChars],
    normalize_append fun h => absurd (hlast.symm.trans h) (by decide), normalize_commentChars]
  rfl

/-- A text that is read without errors has lexemes without problems, none of them oversized. -/
theorem lex_eq_ok_sound_iff {s : Source} {lexed : Lexed} :
    s.lex = .ok lexed ∧ lexed.errors = [] ↔
      (∀ l ∈ s.lexemes, l.problem = none ∧ l.token.kind.isOversized = false) ∧
        lexed = ⟨s.lexemes.map (·.token), []⟩ := by
  have herror : s.lexemes.filterMap (·.error? s) = [] ↔ ∀ l ∈ s.lexemes, l.problem = none := by
    simp [Lexeme.error?]
  have hany : (s.lexemes.any fun l => l.token.kind.isOversized) = false ↔
      ∀ l ∈ s.lexemes, l.token.kind.isOversized = false := by
    simp
  have hlex : s.lex = if s.lexemes.any fun l => l.token.kind.isOversized then .error .digitLimit
      else .ok ⟨s.lexemes.map (·.token), s.lexemes.filterMap (·.error? s)⟩ := rfl
  rw [hlex]
  constructor
  · rintro ⟨h, hnone⟩
    split at h
    next => exact absurd h (by simp)
    next hsmall =>
      obtain rfl := Except.ok.inj h
      exact ⟨fun l hl => ⟨herror.mp hnone l hl, hany.mp (Bool.eq_false_iff.mpr hsmall) l hl⟩,
        by rw [show s.lexemes.filterMap (·.error? s) = [] from hnone]⟩
  · rintro ⟨h, rfl⟩
    rw [hany.mpr fun l hl => (h l hl).2, herror.mpr fun l hl => (h l hl).1]
    exact ⟨rfl, rfl⟩

end Source

/-- The token further on if it lies behind an offset. -/
def Token.shiftFrom (offset k : Nat) (t : Token) : Token :=
  if offset ≤ t.start then t.shift k else t

/-- What is kept of lexemes with a comment between them is what is kept without it, the tokens
behind it further on. -/
theorem filter_isComment_insert {front back : List Lexeme} {comment : Lexeme} {n k : Nat}
    (hcomment : comment.token.kind.isComment = true) (hfront : ∀ l ∈ front, l.token.start < n)
    (hback : ∀ l ∈ back, n ≤ l.token.start) :
    ((front ++ comment :: back.map (Lexeme.shift k)).map (·.token)).filter
        (fun t => !t.kind.isComment) =
      (((front ++ back).map (·.token)).filter fun t => !t.kind.isComment).map
        (Token.shiftFrom n k) := by
  have hdropped : ∀ ts : List Token, (comment.token :: ts).filter (fun t => !t.kind.isComment) =
      ts.filter fun t => !t.kind.isComment := fun ts =>
    List.filter_cons_of_neg (by rw [hcomment]; exact Bool.false_ne_true)
  have hbefore : ∀ t ∈ (front.map (·.token)).filter (fun t => !t.kind.isComment),
      Token.shiftFrom n k t = t := by
    intro t ht
    obtain ⟨l, hl, rfl⟩ := List.mem_map.mp (List.mem_filter.mp ht).1
    exact if_neg (Nat.not_le_of_lt (hfront l hl))
  have hbehind : ∀ t ∈ (back.map (·.token)).filter (fun t => !t.kind.isComment),
      Token.shiftFrom n k t = t.shift k := by
    intro t ht
    obtain ⟨l, hl, rfl⟩ := List.mem_map.mp (List.mem_filter.mp ht).1
    exact if_pos (hback l hl)
  rw [List.map_append, List.map_cons, List.filter_append, hdropped,
    Lexeme.filter_isComment_shift, List.map_append, List.filter_append, List.map_append,
    List.map_congr_left hbefore, List.map_id', List.map_congr_left hbehind]

namespace Source

/-- **Comments are transparent.**  If a text is read without errors, and a comment is put between
two of its tokens, or before the first or behind the last, then the whole is read without errors, and
has the same tokens, those behind the comment further on by its length.  Offsets count a line end of
two characters as one, so no token starts between the two. -/
theorem lex_insert_comment {front back body : String} {lexed : Lexed}
    (hlex : (ofString (front ++ back)).lex = .ok lexed) (hsound : lexed.errors = [])
    (hline : front.toList.getLast? = some '\r' → back.toList.head? ≠ some '\n')
    (hcut : ∀ t ∈ lexed.tokens,
      t.stop ≤ (ofString front).length ∨ (ofString front).length ≤ t.start)
    (hbody : ¬ ['*', '/'] <:+: body.toList) :
    ∃ commented, (ofString (front ++ ("/*" ++ body ++ "*/") ++ back)).lex = .ok commented ∧
      commented.errors = [] ∧
      commented.kept = lexed.kept.map
        (.shiftFrom (ofString front).length (ofString ("/*" ++ body ++ "*/")).length) := by
  obtain ⟨hall, rfl⟩ := lex_eq_ok_sound_iff.mp ⟨hlex, hsound⟩
  have hchars : (ofString (front ++ back)).chars =
      (ofString front).chars ++ (ofString back).chars := by
    rw [ofString, String.toList_append, normalize_append hline]
    rfl
  have hlexemes : (ofString (front ++ back)).lexemes =
      lexemesFrom scanToken 0 ((ofString front).chars ++ (ofString back).chars) := by
    rw [lexemes, lexemesBy, hchars]
  rw [hlexemes] at hall hcut ⊢
  obtain ⟨hjoined, hcommented⟩ := lexemesFrom_insert (fun l hl => (hall l hl).1)
    (fun l hl => hcut l.token (List.mem_map_of_mem hl)) (mt infix_of_infix_normalize hbody)
  have hlexemes' : (ofString (front ++ ("/*" ++ body ++ "*/") ++ back)).lexemes = _ :=
    (congrArg (lexemesFrom scanToken 0) (chars_ofString_insert front body back)).trans hcommented
  rw [hjoined] at hall ⊢
  obtain ⟨hbefore, hbehind⟩ := List.forall_mem_append.mp hall
  refine ⟨_, (lex_eq_ok_sound_iff.mpr ⟨fun l hl => ?_, rfl⟩).1, rfl, ?_⟩
  · rw [hlexemes'] at hl
    rcases List.mem_append.mp hl with hl | hl
    · exact hbefore l hl
    · rcases List.mem_cons.mp hl with rfl | hl
      · exact ⟨rfl, rfl⟩
      · obtain ⟨m, hm, rfl⟩ := List.mem_map.mp hl
        exact hbehind m hm
  · rw [Lexed.kept, Lexed.kept, hlexemes', length, length, chars_ofString_comment]
    refine filter_isComment_insert rfl (fun l hl => ?_) fun l hl => ?_
    · obtain ⟨first, c, rest, hfirst, rfl⟩ := exists_scan_of_mem_lexemesFrom hl
      rw [hfirst, List.length_append, List.length_cons]
      simp only [Token.start]
      omega
    · exact (le_start_of_mem_lexemesFrom hl).1

/-- Behind an escape and a slash, before the end mark of old comments and a unit that could be the
mark of an exponent. -/
theorem lex_insert_comment_slash :
    ∃ lexed commented, (ofString ("'*/'\\26 /" ++ "-->\r\n1e")).lex = .ok lexed ∧
      lexed.errors = [] ∧ (∀ t ∈ lexed.tokens, t.stop ≤ 9 ∨ 9 ≤ t.start) ∧
      (ofString ("'*/'\\26 /" ++ ("/*" ++ "/*\r*" ++ "*/") ++ "-->\r\n1e")).lex = .ok commented ∧
      commented.errors = [] ∧ commented.kept = lexed.kept.map (.shiftFrom 9 8) := by
  have hall : ∀ l ∈ (ofString ("'*/'\\26 /" ++ "-->\r\n1e")).lexemes,
      l.problem = none ∧ l.token.kind.isOversized = false := by decide +kernel
  obtain ⟨hlex, hsound⟩ := lex_eq_ok_sound_iff.mpr ⟨hall, rfl⟩
  have hcut : ∀ t ∈ (ofString ("'*/'\\26 /" ++ "-->\r\n1e")).lexemes.map (·.token),
      t.stop ≤ 9 ∨ 9 ≤ t.start := by decide +kernel
  have hlength : (ofString "'*/'\\26 /").length = 9 := by decide +kernel
  have hcomment : (ofString ("/*" ++ "/*\r*" ++ "*/")).length = 8 := by decide +kernel
  have hinsert := lex_insert_comment hlex hsound (fun h => absurd h (by decide +kernel))
    (by rw [hlength]; exact hcut) (show ¬ ['*', '/'] <:+: "/*\r*".toList by decide +kernel)
  rw [hlength, hcomment] at hinsert
  obtain ⟨commented, hcommented, hnone, hkept⟩ := hinsert
  exact ⟨_, commented, hlex, hsound, hcut, hcommented, hnone, hkept⟩

end Source

end Styling
