import Styling.Proofs.Syntax.Cutting

/-!
# Tokens tile their text

A scanner steps over the characters of a token and never over the end of the text: escapes that are
cut off, strings and comments that are never closed, and marks of several characters all stop there
at the latest.  So the tokens of a text, comments included, lie side by side from its first
character to its last.

* `IsBounded` says of a function that reads a first part of a text that the part lies within the
  text.  A numeral is more, a first part of the text: `NumeralParts.isPrefix_chars`.
* `isBounded_scanToken` is the property of the scanner of the style language; `extra_scanNumeric`
  and `extra_scanIdentLike` say that it takes back no character it has not read.
* `Token.Tile` says that tokens lie side by side, and `tile_lexemesFrom` that those of any bounded
  scanner do.
* `Source.exists_lex_tile` is about texts without oversized integers.
-/

namespace Styling

/-- What `f` reads of a text lies within the text. -/
def IsBounded {ρ : Type} (size : ρ → Nat) (f : List Char → ρ) : Prop :=
  ∀ cs : List Char, size (f cs) ≤ cs.length

namespace IsBounded

variable {ρ : Type} {size : ρ → Nat} {f g : List Char → ρ}

/-- A choice by a condition. -/
theorem ite {P : List Char → Prop} [DecidablePred P] (hf : ∀ cs, P cs → size (f cs) ≤ cs.length)
    (hg : IsBounded size g) : IsBounded size fun cs => if P cs then f cs else g cs := by
  intro cs
  by_cases h : P cs
  · simp only [if_pos h]
    exact hf cs h
  · simp only [if_neg h]
    exact hg cs

/-- One character alone. -/
theorem single (kind : List Char → TokenKind) :
    IsBounded Scanned.extra fun cs => .single (kind cs) :=
  fun _ => Nat.zero_le _

/-- A first character is known to belong to the token. -/
theorem tail {h : List Char → Scanned}
    (hf : ∀ cs : List Char, cs ≠ [] → (h cs).extra + 1 ≤ cs.length) (c : Char) :
    IsBounded Scanned.extra fun cs => h (c :: cs) :=
  fun cs => Nat.le_of_succ_le_succ (hf (c :: cs) (List.cons_ne_nil c cs))

end IsBounded

/-- A function stays within the text if each of its steps does. -/
theorem IsStepwise.isBounded {ρ : Type} {size : ρ → Nat} {step : List Char → ScanStep ρ}
    {f : List Char → ρ} (h : IsStepwise size step f) (hstep : IsBounded (ScanStep.size size) step) :
    IsBounded size f := by
  intro cs
  induction hn : cs.length using Nat.strongRecOn generalizing cs with
  | ind n ih =>
    have hfirst := hstep cs
    rw [h.eq_finish cs]
    cases hs : step cs with
    | done r =>
      rw [hs] at hfirst
      exact hfirst.trans hn.le
    | more k put =>
      obtain ⟨hpos, hsize⟩ := h.more hs
      rw [hs, ScanStep.size] at hfirst
      have hdrop := List.length_drop (i := k) (l := cs)
      have hrest := ih (cs.drop k).length (by omega) _ rfl
      rw [ScanStep.finish, hsize]
      omega

/-! ## First parts of a text -/

theorem isBounded_takeWhile (p : Char → Bool) : IsBounded List.length (List.takeWhile p) :=
  fun _ => (List.takeWhile_sublist p).length_le

/-- A first part and a first part of what stands behind it. -/
theorem isPrefix_append_of_drop {as bs cs : List Char} (ha : as <+: cs)
    (hb : bs <+: cs.drop as.length) : as ++ bs <+: cs := by
  obtain ⟨rest, rfl⟩ := ha
  rw [List.drop_left] at hb
  exact (List.prefix_append_right_inj as).mpr hb

/-- A text that starts with a character. -/
theorem isPrefix_of_head? {c : Char} {cs : List Char} (h : cs.head? = some c) : [c] <+: cs := by
  obtain ⟨rest, rfl⟩ := List.head?_eq_some_iff.mp h
  exact List.prefix_append [c] rest

theorem one_le_length_of_head? {c : Char} {cs : List Char} (h : cs.head? = some c) :
    1 ≤ cs.length :=
  (isPrefix_of_head? h).length_le

/-- A text that starts with several characters. -/
theorem isPrefix_of_take {cs ds : List Char} {n : Nat} (h : cs.take n = ds) : ds <+: cs :=
  h ▸ List.take_prefix n cs

/-! ## Numbers -/

namespace NumeralParts

theorem isPrefix_scanSign (cs : List Char) : scanSign cs <+: cs := by
  cases cs with
  | nil => exact List.nil_prefix
  | cons c cs =>
    rw [scanSign]
    split
    · exact List.prefix_append [c] cs
    · exact List.nil_prefix

theorem isPrefix_scanFraction (cs : List Char) : scanFraction cs <+: cs := by
  cases cs with
  | nil => exact List.nil_prefix
  | cons c cs =>
    rw [scanFraction_cons]
    split
    · exact List.cons_prefix_cons.mpr ⟨rfl, List.takeWhile_prefix isDigit⟩
    · exact List.nil_prefix

theorem isPrefix_scanExponent (cs : List Char) : scanExponent cs <+: cs := by
  cases cs with
  | nil => exact List.nil_prefix
  | cons c cs =>
    simp only [scanExponent]
    split
    · exact List.cons_prefix_cons.mpr
        ⟨rfl, isPrefix_append_of_drop (isPrefix_scanSign cs) (List.takeWhile_prefix isDigit)⟩
    · exact List.nil_prefix

/-- A numeral is a first part of the text that it is read from. -/
theorem isPrefix_chars (cs : List Char) : (scan cs).chars <+: cs := by
  simp only [scan, chars, List.append_assoc]
  refine isPrefix_append_of_drop (isPrefix_scanSign cs) ?_
  refine isPrefix_append_of_drop (List.takeWhile_prefix isDigit) ?_
  exact isPrefix_append_of_drop (isPrefix_scanFraction _) (isPrefix_scanExponent _)

theorem isBounded_scan : IsBounded (fun p => p.chars.length) scan :=
  fun cs => (isPrefix_chars cs).length_le

end NumeralParts

/-! ## Identifiers, strings and comments -/

/-- An escape that the text ends in is cut off there. -/
theorem isBounded_scanEscape : IsBounded (·.2) scanEscape := by
  intro cs
  cases cs with
  | nil => exact le_rfl
  | cons c cs =>
    rw [scanEscape]
    by_cases hc : isHexDigit c = true
    · simp only [if_pos hc]
      have hdigits := isBounded_takeWhile isHexDigit ((c :: cs).take 6)
      rw [List.length_take] at hdigits
      have hdrop := List.length_drop (i := (((c :: cs).take 6).takeWhile isHexDigit).length)
        (l := c :: cs)
      -- A space is counted only if there is one after the digits.
      split
      next d ds hds =>
        rw [hds, List.length_cons] at hdrop
        split <;> omega
      next => omega
    · simp only [if_neg hc]
      exact Nat.le_add_left 1 cs.length

theorem isBounded_scanIdent : IsBounded (·.2) scanIdent := by
  refine isStepwise_scanIdent.isBounded fun cs => ?_
  cases cs with
  | nil => exact le_rfl
  | cons c cs =>
    rw [identStep]
    split_ifs
    · exact Nat.le_add_left 1 cs.length
    · exact Nat.succ_le_succ (isBounded_scanEscape cs)
    · exact Nat.zero_le _

theorem isBounded_scanString (quote : Char) : IsBounded ScannedString.size (scanString quote) := by
  refine (isStepwise_scanString quote fun _ _ _ => rfl).isBounded fun cs => ?_
  cases cs with
  | nil => exact le_rfl
  | cons c cs =>
    rw [stringStep]
    split_ifs with hquote hnewline hslash hempty hescape
    · exact Nat.le_add_left 1 cs.length
    · exact Nat.zero_le _
    · exact Nat.le_add_left 1 cs.length
    · exact Nat.succ_le_succ (isBounded_scanEscape cs)
    · have hne : cs ≠ [] := fun h => hempty (List.isEmpty_iff.mpr h)
      exact Nat.succ_le_succ (List.length_pos_iff.mpr hne)
    · exact Nat.le_add_left 1 cs.length

theorem isBounded_scanComment : IsBounded (·.1) scanComment := by
  refine isStepwise_scanComment.isBounded fun cs => ?_
  cases cs with
  | nil => exact le_rfl
  | cons c cs =>
    rw [commentStep]
    split_ifs with hend
    · exact Nat.succ_le_succ (one_le_length_of_head? hend.2)
    · exact Nat.le_add_left 1 cs.length

/-! ## Tokens -/

/-- A number with its unit or percent sign. -/
theorem extra_scanNumeric_lt {cs : List Char} (h : cs ≠ []) :
    (scanNumeric cs).extra + 1 ≤ cs.length := by
  have hpos := List.length_pos_iff.mpr h
  have hsize := NumeralParts.isBounded_scan cs
  have hrest := List.length_drop (i := (NumeralParts.scan cs).chars.length) (l := cs)
  have hunit := isBounded_scanIdent (cs.drop (NumeralParts.scan cs).chars.length)
  dsimp only at hsize hunit
  simp only [scanNumeric]
  split_ifs with hident hpercent
  · simp only [Scanned.plain]
    omega
  · have hsign := one_le_length_of_head? hpercent
    simp only [Scanned.plain]
    omega
  · simp only [Scanned.plain]
    omega

/-- An identifier, with the parenthesis of a function. -/
theorem extra_scanIdentLike_lt {cs : List Char} (h : cs ≠ []) :
    (scanIdentLike cs).extra + 1 ≤ cs.length := by
  have hpos := List.length_pos_iff.mpr h
  have hrest := List.length_drop (i := (scanIdent cs).2) (l := cs)
  have hname := isBounded_scanIdent cs
  dsimp only at hname
  simp only [scanIdentLike]
  split_ifs with hopen
  · have hround := one_le_length_of_head? hopen
    simp only [Scanned.plain]
    omega
  · simp only [Scanned.plain]
    omega

/-- A string, closed or not. -/
theorem isBounded_scanQuoted (quote : Char) : IsBounded Scanned.extra (scanQuoted quote) := by
  intro cs
  simp only [scanQuoted]
  split <;> exact isBounded_scanString quote cs

/-- A hash sign with its name. -/
theorem isBounded_scanHash : IsBounded Scanned.extra scanHash :=
  .ite (fun cs _ => isBounded_scanIdent cs) (.single _)

/-- A comment, closed or not. -/
theorem extra_commentToken_le {cs : List Char} (h : cs.head? = some '*') :
    (scanComment (cs.drop 1)).1 + 1 ≤ cs.length := by
  have hstar := one_le_length_of_head? h
  have hdrop := List.length_drop (i := 1) (l := cs)
  have hbody := isBounded_scanComment (cs.drop 1)
  dsimp only at hbody
  omega

/-- A token lies within its text. -/
theorem isBounded_scanToken (c : Char) : IsBounded Scanned.extra (scanToken c) := by
  refine .ite (fun cs h => extra_commentToken_le h.2) ?_
  refine .ite (fun cs _ => isBounded_scanQuoted c cs) ?_
  refine .ite (fun cs _ => isBounded_scanHash cs) ?_
  refine .ite (fun cs _ => IsBounded.tail (fun _ => extra_scanNumeric_lt) c cs) ?_
  refine .ite (fun cs h => (isPrefix_of_take h.2).length_le) ?_
  refine .ite (fun cs h => (isPrefix_of_take h.2).length_le) ?_
  refine .ite (fun cs _ => isBounded_scanIdent cs) ?_
  refine .ite (fun cs _ => IsBounded.tail (fun _ => extra_scanIdentLike_lt) c cs) ?_
  refine .ite (fun cs _ => Nat.zero_le _) ?_
  refine .ite (fun cs _ => isBounded_takeWhile isSpace cs) ?_
  intro cs
  split_ifs <;> exact Nat.zero_le _

/-! ## Progress -/

/-- Where a number starts, something is read. -/
theorem NumeralParts.one_le_length_chars {cs : List Char} (h : startsNumber cs = true) :
    1 ≤ (scan cs).chars.length := by
  rw [startsNumber_eq, Bool.not_eq_true', Bool.and_eq_false_iff] at h
  simp only [chars, List.length_append]
  rcases h with h | h
  · have hwhole := List.length_pos_iff.mpr (List.isEmpty_eq_false_iff.mp h)
    omega
  · have hfraction := List.length_pos_iff.mpr (List.isEmpty_eq_false_iff.mp h)
    omega

/-- Where a number starts, its token has just the characters that were read: the subtraction in
`scanNumeric` takes back a character that is there. -/
theorem extra_scanNumeric {cs : List Char} (h : startsNumber cs = true) :
    (scanNumeric cs).extra + 1 =
      let size := (NumeralParts.scan cs).chars.length
      let rest := cs.drop size
      if startsIdent rest then size + (scanIdent rest).2
      else if rest.head? = some '%' then size + 1 else size := by
  have hpos := NumeralParts.one_le_length_chars h
  simp only [scanNumeric]
  split_ifs <;> simp only [Scanned.plain] <;> omega

/-- Where an identifier starts, its token has just the characters that were read, and the
parenthesis of a function. -/
theorem extra_scanIdentLike {cs : List Char} (h : startsIdent cs = true) :
    (scanIdentLike cs).extra + 1 =
      if (cs.drop (scanIdent cs).2).head? = some '(' then (scanIdent cs).2 + 1
      else (scanIdent cs).2 := by
  have hpos := scanIdent_pos h
  simp only [scanIdentLike]
  split_ifs <;> simp only [Scanned.plain]
  omega

/-! ## Tilings -/

namespace Token

/-- The tokens lie side by side from offset `start` to offset `stop`, and none of them is empty. -/
def Tile (start stop : Nat) : List Token → Prop
  | [] => start = stop
  | t :: ts => t.start = start ∧ t.start < t.stop ∧ Tile t.stop stop ts

instance decidableTile : ∀ (start stop : Nat) (ts : List Token), Decidable (Tile start stop ts)
  | start, stop, [] => inferInstanceAs (Decidable (start = stop))
  | start, stop, t :: ts =>
    have := decidableTile t.stop stop ts
    inferInstanceAs (Decidable (t.start = start ∧ t.start < t.stop ∧ Tile t.stop stop ts))

example : Tile 0 3 [⟨.ident "a", ⟨0, 1⟩⟩, ⟨.comment "//", ⟨1, 3⟩⟩] := by decide

end Token

/-- A scanner whose tokens lie within the text cuts it into tokens that lie side by side. -/
theorem tile_lexemesFrom {scan : Scanner} (h : ∀ c, IsBounded Scanned.extra (scan c)) (start : Nat)
    (cs : List Char) :
    Token.Tile start (start + cs.length) ((lexemesFrom scan start cs).map (·.token)) := by
  induction hn : cs.length using Nat.strongRecOn generalizing cs start with
  | ind n ih =>
    cases cs with
    | nil =>
      rw [lexemesFrom_nil]
      exact (congrArg (start + ·) hn).trans rfl
    | cons c cs =>
      have hextra := h c cs
      have hdrop := List.length_drop (i := (scan c cs).extra) (l := cs)
      rw [List.length_cons] at hn
      have hrest := ih (cs.drop (scan c cs).extra).length (by omega)
        (start + (scan c cs).extra + 1) _ rfl
      have hstop : start + (scan c cs).extra + 1 + (cs.drop (scan c cs).extra).length =
          start + n := by omega
      rw [hstop] at hrest
      rw [lexemesFrom_cons, List.map_cons]
      refine ⟨rfl, ?_, hrest⟩
      simp only [Token.start, Token.stop]
      omega

namespace Source

/-- The tokens of a text lie side by side. -/
theorem tile_lexemes (s : Source) : Token.Tile 0 s.length (s.lexemes.map (·.token)) := by
  have htile := tile_lexemesFrom isBounded_scanToken 0 s.chars
  rwa [Nat.zero_add] at htile

/-- A text without oversized integers is read, and its tokens are those of its lexemes. -/
theorem exists_lex_of_notOversized {s : Source}
    (h : ∀ l ∈ s.lexemes, l.token.kind.isOversized = false) :
    ∃ lexed, s.lex = .ok lexed ∧ lexed.tokens = s.lexemes.map (·.token) := by
  have hnone : (s.lexemesBy scanToken).any (fun l => l.token.kind.isOversized) = false :=
    List.any_eq_false.mpr fun l hl => by rw [h l hl]; exact Bool.false_ne_true
  refine ⟨_, if_neg ?_, rfl⟩
  rw [hnone]
  exact Bool.false_ne_true

/-- What is read from a text are the tokens of its lexemes and the errors of those with a problem. -/
theorem lex_eq_ok {s : Source} {lexed : Lexed} (h : s.lex = .ok lexed) :
    lexed.tokens = s.lexemes.map (·.token) ∧ lexed.errors = s.lexemes.filterMap (·.error? s) := by
  rw [lex, lexBy] at h
  split at h
  next => exact absurd h (by simp)
  next =>
    obtain rfl := Except.ok.inj h
    exact ⟨rfl, rfl⟩

/-- **A text without oversized integers is read, and its tokens, comments included, tile it.** -/
theorem exists_lex_tile (text : String)
    (h : ∀ l ∈ (ofString text).lexemes, l.token.kind.isOversized = false) :
    ∃ lexed, (ofString text).lex = .ok lexed ∧
      Token.Tile 0 (ofString text).length lexed.tokens := by
  obtain ⟨lexed, hlex, htokens⟩ := exists_lex_of_notOversized h
  refine ⟨lexed, hlex, ?_⟩
  rw [htokens]
  exact tile_lexemes _

/-- A text that ends in a string that is never closed, with a backslash before its end. -/
theorem exists_lex_tile_cut_off :
    (∀ l ∈ (ofString "-1.5e3px/**/#b \"a\\").lexemes, l.token.kind.isOversized = false) ∧
      ∃ lexed, (ofString "-1.5e3px/**/#b \"a\\").lex = .ok lexed ∧
        Token.Tile 0 (ofString "-1.5e3px/**/#b \"a\\").length lexed.tokens := by
  have hsmall : ∀ l ∈ (ofString "-1.5e3px/**/#b \"a\\").lexemes,
      l.token.kind.isOversized = false := by decide +kernel
  exact ⟨hsmall, exists_lex_tile _ hsmall⟩

end Source

end Styling
