import Mathlib
import Styling.Proofs.Syntax.Names
import Styling.Proofs.Syntax.Tiling

/-!
# Tokens spell their text

A token keeps what stands between the marks of its kind: a name without its hash sign, at sign or
parenthesis, a percentage without its sign.  The text of the token puts the marks back.  Only
escapes and strings are kept in another form than they are written in, so in a text without
backslashes and quotes each token has the text that it was read from, and all of them one after the
other are the text.

* `Scanned.Spells` says that a token has the text that was read; `spells_scanToken` says so of the
  scanner of the style language.
* `NumeralParts.isPrefix_chars` and `scanIdent_of_not_mem` say what a numeral and a name are.
* `Token.Tile.flatMap_sliceChars` puts tokens that lie side by side together.
* `Source.join_text_tokens` is about texts.
-/

namespace Styling

/-- A character that starts neither an escape nor a string. -/
def IsLiteralChar (c : Char) : Prop :=
  c ≠ '\\' ∧ c ≠ '\"' ∧ c ≠ '\''

/-- What was scanned at the start of a text is written as it was read. -/
def Scanned.Spells (cs : List Char) (s : Scanned) : Prop :=
  s.kind.text.toList = cs.take (s.extra + 1)

/-- A first part of the text that is as long as what was read. -/
theorem Scanned.spells_of_isPrefix {s : Scanned} {cs as : List Char} (hread : as <+: cs)
    (htext : s.kind.text.toList = as) (hlength : s.extra + 1 = as.length) : s.Spells cs := by
  rw [Spells, htext, hlength]
  exact List.prefix_iff_eq_take.mp hread

/-! ## Names -/

/-- Without escapes a name is a first part of the text that it is read from. -/
theorem isPrefix_scanIdent {cs : List Char} (h : '\\' ∉ cs) :
    (scanIdent cs).1 <+: cs ∧ (scanIdent cs).2 = (scanIdent cs).1.length := by
  rw [scanIdent_of_not_mem h]
  exact ⟨List.takeWhile_prefix isIdentChar, rfl⟩

/-! ## Tokens -/

section

variable {c : Char} {cs : List Char}

/-- A token of a single character. -/
theorem spells_single {kind : TokenKind} {mark : Char} (hc : c = mark)
    (htext : kind.text = String.singleton mark) : (Scanned.single kind).Spells (c :: cs) := by
  subst hc
  refine Scanned.spells_of_isPrefix (List.prefix_append [c] cs) ?_ rfl
  exact (congrArg String.toList htext).trans (String.toList_singleton c)

/-- A first character and what belongs to it. -/
theorem spells_plain {kind : TokenKind} {n : Nat} {as : List Char} (hread : as <+: cs)
    (htext : kind.text.toList = c :: as) (hlength : n = as.length) :
    (Scanned.plain kind n).Spells (c :: cs) :=
  Scanned.spells_of_isPrefix (List.cons_prefix_cons.mpr ⟨rfl, hread⟩) htext
    (congrArg (· + 1) hlength)

/-- A mark and the name behind it. -/
theorem spells_marked (kind : String → TokenKind) {mark : String} (hmark : mark.toList = [c])
    (htext : ∀ name, (kind name).text = mark ++ name) (hslash : '\\' ∉ cs) :
    (Scanned.plain (kind (String.ofList (scanIdent cs).1)) (scanIdent cs).2).Spells (c :: cs) := by
  obtain ⟨hname, hlength⟩ := isPrefix_scanIdent hslash
  refine spells_plain hname ?_ hlength
  rw [htext, String.toList_append, hmark, String.toList_ofList, List.singleton_append]

/-- A number with its unit or percent sign. -/
theorem spells_scanNumeric (hslash : '\\' ∉ cs) (hnumber : startsNumber cs = true) :
    (scanNumeric cs).Spells cs := by
  have hextra := extra_scanNumeric hnumber
  have hparts := NumeralParts.isPrefix_chars cs
  simp only [scanNumeric] at hextra ⊢
  split_ifs at hextra ⊢ with hunit hpercent
  · obtain ⟨hname, hlength⟩ := isPrefix_scanIdent (mt (List.mem_of_mem_drop ·) hslash)
    refine Scanned.spells_of_isPrefix (isPrefix_append_of_drop hparts hname) ?_ ?_
    · simp [Scanned.plain, TokenKind.text, TokenKind.raw, Numeral.ofParts]
    · rw [hextra, List.length_append, hlength]
  · refine Scanned.spells_of_isPrefix
      (isPrefix_append_of_drop hparts (isPrefix_of_head? hpercent)) ?_ ?_
    · simp [Scanned.plain, TokenKind.text, Numeral.ofParts]
    · rw [hextra, List.length_append, List.length_singleton]
  · refine Scanned.spells_of_isPrefix hparts ?_ hextra
    simp [Scanned.plain, TokenKind.text, TokenKind.raw, Numeral.ofParts]

/-- An identifier, with the parenthesis of a function. -/
theorem spells_scanIdentLike (hslash : '\\' ∉ cs) (hstarts : startsIdent cs = true) :
    (scanIdentLike cs).Spells cs := by
  have hextra := extra_scanIdentLike hstarts
  obtain ⟨hname, hlength⟩ := isPrefix_scanIdent hslash
  simp only [scanIdentLike] at hextra ⊢
  split_ifs at hextra ⊢ with hopen
  · rw [hlength] at hopen
    refine Scanned.spells_of_isPrefix
      (isPrefix_append_of_drop hname (isPrefix_of_head? hopen)) ?_ ?_
    · simp [Scanned.plain, TokenKind.text]
    · rw [hextra, List.length_append, List.length_singleton, hlength]
  · refine Scanned.spells_of_isPrefix hname ?_ (hextra.trans hlength)
    simp [Scanned.plain, TokenKind.text, TokenKind.raw]

/-- **Without escapes and quotes a token has the text that it is read from.** -/
theorem spells_scanToken (h : ∀ d ∈ c :: cs, IsLiteralChar d) :
    (scanToken c cs).Spells (c :: cs) := by
  have hslash : '\\' ∉ c :: cs := fun hmem => (h _ hmem).1 rfl
  have hbehind : '\\' ∉ cs := mt (List.mem_cons_of_mem c) hslash
  obtain ⟨hc, hdouble, hsingle⟩ := h c List.mem_cons_self
  have hscan := scans_scanToken c cs
  generalize scanToken c cs = s at hscan
  cases hscan with
  | comment opened => simp [Scanned.Spells, TokenKind.text, TokenKind.raw]
  | quoted quote => exact absurd quote (not_or.mpr ⟨hdouble, hsingle⟩)
  | hash sign =>
    subst sign
    exact iteInduction (fun _ => spells_marked (.hash · _) rfl (fun _ => rfl) hbehind)
      fun _ => spells_single rfl rfl
  | numeric starts => exact spells_scanNumeric hslash starts
  | commentClose mark => exact spells_plain (isPrefix_of_take mark.2) (by rw [mark.1]; rfl) rfl
  | commentOpen mark => exact spells_plain (isPrefix_of_take mark.2) (by rw [mark.1]; rfl) rfl
  | atKeyword starts =>
    obtain rfl := starts.1
    exact spells_marked .atKeyword rfl (fun _ => rfl) hbehind
  | identLike starts unmarked => exact spells_scanIdentLike hslash starts
  | backslash char => exact absurd char hc
  | space blank =>
    exact spells_plain (List.takeWhile_prefix isSpace) String.toList_ofList rfl
  | opening char | closing char | comma char | colon char | semicolon char =>
    exact spells_single char rfl
  | mark => exact spells_single rfl rfl

end

/-! ## Texts -/

namespace Token

/-- Tokens that lie side by side leave nothing out. -/
theorem Tile.le {start stop : Nat} {ts : List Token} (h : Tile start stop ts) : start ≤ stop := by
  induction ts generalizing start with
  | nil => exact le_of_eq h
  | cons t ts ih =>
    obtain ⟨rfl, hpos, hrest⟩ := h
    exact hpos.le.trans (ih hrest)

/-- The texts of tokens that lie side by side are together the text from the first to the last. -/
theorem Tile.flatMap_sliceChars {start stop : Nat} {ts : List Token} (h : Tile start stop ts)
    (s : Source) :
    ts.flatMap (fun t => s.sliceChars t.start t.stop) = s.sliceChars start stop := by
  induction ts generalizing start with
  | nil =>
    obtain rfl : start = stop := h
    simp [Source.sliceChars]
  | cons t ts ih =>
    obtain ⟨rfl, hpos, hrest⟩ := h
    rw [List.flatMap_cons, ih hrest]
    have hsum : stop - t.start = (t.stop - t.start) + (stop - t.stop) := by
      have hle := hrest.le
      omega
    have hdrop : t.start + (t.stop - t.start) = t.stop := by omega
    simp only [Source.sliceChars]
    rw [hsum, List.take_add, List.drop_drop, hdrop]

end Token

namespace Source

/-- A token of a text without escapes and quotes has the text that it was read from. -/
theorem text_eq_slice {s : Source} (h : ∀ c ∈ s.chars, IsLiteralChar c) {l : Lexeme}
    (hl : l ∈ s.lexemes) : l.token.kind.text = s.slice l.token.start l.token.stop := by
  obtain ⟨before, c, rest, hchars, rfl⟩ := exists_scan_of_mem_lexemesFrom hl
  have hspells : (scanToken c rest).Spells (c :: rest) :=
    spells_scanToken fun d hd => h d (hchars ▸ List.mem_append_right before hd)
  rw [Scanned.Spells] at hspells
  rw [← String.ofList_toList (s := (scanToken c rest).kind.text), hspells]
  simp only [slice, sliceChars, Token.start, Token.stop, Nat.zero_add]
  rw [hchars, List.drop_left]
  congr 2
  omega

/-- **Nothing is lost in reading tokens from a text without escapes and quotes.**  The texts of its
tokens, comments included, are together the normalized text, and each of them is what stands at the
span of its token. -/
theorem join_text_tokens {text : String} (hliteral : ∀ c ∈ text.toList, IsLiteralChar c)
    {lexed : Lexed} (h : (ofString text).lex = .ok lexed) :
    String.join (lexed.tokens.map fun t => t.kind.text) = (ofString text).text ∧
      ∀ t ∈ lexed.tokens, t.kind.text = (ofString text).slice t.start t.stop := by
  have hchars : ∀ c ∈ (ofString text).chars, IsLiteralChar c := by
    intro c hc
    rcases mem_of_mem_normalize hc with hc | rfl | rfl
    · exact hliteral c hc
    · exact ⟨by decide, by decide, by decide⟩
    · exact ⟨by decide, by decide, by decide⟩
  have hcut : ∀ t ∈ lexed.tokens, t.kind.text = (ofString text).slice t.start t.stop := by
    intro t ht
    rw [(lex_eq_ok h).1] at ht
    obtain ⟨l, hl, rfl⟩ := List.mem_map.mp ht
    exact text_eq_slice hchars hl
  have htile : Token.Tile 0 (ofString text).length lexed.tokens := by
    rw [(lex_eq_ok h).1]
    exact tile_lexemes (ofString text)
  refine ⟨?_, hcut⟩
  rw [List.map_congr_left hcut, ← String.toList_inj, String.toList_join, List.flatMap_map]
  simp only [slice, String.toList_ofList]
  rw [htile.flatMap_sliceChars, sliceChars_zero_length, Source.text, String.toList_ofList]

/-- A text with a token of nearly every kind, in which a line end is normalized. -/
theorem join_text_tokens_kinds :
    (∀ c ∈ "a/**/#b 1.5e3px @c\r\nf(<!-- +5% -->".toList, IsLiteralChar c) ∧
      ∃ lexed, (ofString "a/**/#b 1.5e3px @c\r\nf(<!-- +5% -->").lex = .ok lexed ∧
        String.join (lexed.tokens.map fun t => t.kind.text) =
          (ofString "a/**/#b 1.5e3px @c\r\nf(<!-- +5% -->").text ∧
        ∀ t ∈ lexed.tokens, t.kind.text =
          (ofString "a/**/#b 1.5e3px @c\r\nf(<!-- +5% -->").slice t.start t.stop := by
  have hliteral : ∀ c ∈ "a/**/#b 1.5e3px @c\r\nf(<!-- +5% -->".toList, IsLiteralChar c := by
    simp [IsLiteralChar]
  obtain ⟨lexed, hlex, -⟩ := exists_lex_of_notOversized
    (s := ofString "a/**/#b 1.5e3px @c\r\nf(<!-- +5% -->") (by decide +kernel)
  exact ⟨hliteral, lexed, hlex, join_text_tokens hliteral hlex⟩

end Source

end Styling
