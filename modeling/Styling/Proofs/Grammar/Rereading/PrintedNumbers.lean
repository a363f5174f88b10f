import Styling.Proofs.Grammar.Rereading.Leaf

/-!
# Printed numbers are read whole

A number in a style is printed in three ways: as the digits of an integer, with a point, or with an
exponent.  A unit, a percent sign or nothing follows it, and the `e` of `em` is not taken for the
mark of an exponent.  Either way the lexer reads one token from the whole text, and its value is the
number rounded to six places.

* `NumberSuffix` is what may follow a printed number, and `NumberSuffix.kind` the kind of the token.
* `NumberSuffix.isWord_written` says that the text is one word.
* `lex_styleNumber` puts it together with what is printed of a number.
-/

namespace Styling

/-- What follows a number that is printed in a style. -/
inductive NumberSuffix
  | bare
  | length (unit : LengthUnit)
  | stretch
  | percent
  | degrees
  deriving DecidableEq, Repr

namespace NumberSuffix

/-- The suffix as it is printed. -/
def text : NumberSuffix → String
  | bare => ""
  | length unit => unit.text
  | stretch => "s"
  | percent => "%"
  | degrees => "deg"

/-- The kind of token that a number with the suffix is. -/
def kind (n : Numeral) : NumberSuffix → TokenKind
  | bare => .number n
  | length unit => .dimension n unit.text
  | stretch => .dimension n "s"
  | percent => .percentage n
  | degrees => .dimension n "deg"

/-- A number with the suffix as a word. -/
def written (p : NumeralParts) (suffix : NumberSuffix) : Written :=
  .token (p.chars ++ suffix.text.toList) (suffix.kind (.ofParts p))

variable {p : NumeralParts}

/-- **A number with any suffix is one word.** -/
theorem isWord_written (h : p.IsPlain) (hsmall : (Numeral.ofParts p).isOversized = false)
    (suffix : NumberSuffix) : (suffix.written p).IsWord := by
  cases suffix with
  | bare =>
    have hword := Written.isWord_number h hsmall
    rwa [Written.number, ← List.append_nil p.chars] at hword
  | percent => exact Written.isWord_percentage h hsmall
  | length unit =>
    have hword := Written.isWord_dimension unit.text.toList h hsmall (Grammar.isName_unit unit)
      (Grammar.endsNumeral_unit unit)
    rwa [Written.dimension, String.ofList_toList] at hword
  | stretch =>
    exact Written.isWord_dimension ['s'] h hsmall (by decide) fun rest =>
      .cons rfl (by decide) (by decide)
  | degrees =>
    exact Written.isWord_dimension ['d', 'e', 'g'] h hsmall (by decide) fun rest =>
      .cons rfl (by decide) (by decide)

end NumberSuffix

/-- **A printed number is read whole.**  Whatever finite number is printed, and whatever suffix
follows it, the text is one token from its start to its end, whose value is the number rounded to
six places, up to the sign of a zero. -/
theorem lex_styleNumber {x : Float} (h : x.isFinite = true) (suffix : NumberSuffix) :
    ∃ text n y, styleNumber x = .ok text ∧
      (Source.ofString (text ++ suffix.text)).lex =
        .ok ⟨[⟨suffix.kind n, ⟨0, (text ++ suffix.text).length⟩⟩], []⟩ ∧
      n.raw = text ∧ n.toFloat = .ok y ∧ (y == Binary64.roundPlaces 6 x) = true := by
  obtain ⟨q, y, hq, hy, hround⟩ := exists_shown (Binary64.isFinite_roundPlaces h 6)
  obtain ⟨p, hp, rfl⟩ := exists_shows hq
  refine ⟨_, .ofParts p, y, hp.text, ?_, rfl, hy, hround⟩
  have hword := suffix.isWord_written hp.plain hp.small
  have hlex := hword.phrase.lex
  have htext : String.ofList p.chars ++ suffix.text =
      String.ofList (Written.listChars [suffix.written p]) := by
    rw [Written.listChars_singleton, NumberSuffix.written, Written.chars, String.ofList_append,
      String.ofList_toList]
  have hlength : (String.ofList p.chars ++ suffix.text).length =
      (p.chars ++ suffix.text.toList).length := by
    rw [String.length_append, String.length_ofList, List.length_append, String.length_toList]
  rw [htext, hlex, ← htext, hlength]
  simp only [NumberSuffix.written, Written.listComponents, Written.component,
    Component.listTokens, Component.tokens, Nat.zero_add, List.append_nil]

/-- A number that is printed with an exponent, before a unit that starts with the mark of one. -/
theorem lex_styleNumber_exponent :
    (-2e-6 : Float).isFinite = true ∧ styleNumber (-2e-6) = .ok "-2e-06" ∧
      ∃ n y, (Source.ofString "-2e-06em").lex = .ok ⟨[⟨.dimension n "em", ⟨0, 8⟩⟩], []⟩ ∧
        n.raw = "-2e-06" ∧ n.toFloat = .ok y ∧ (y == Binary64.roundPlaces 6 (-2e-6)) = true := by
  have hfinite : (-2e-6 : Float).isFinite = true := by decide +kernel
  have hprinted : styleNumber (-2e-6) = .ok "-2e-06" := by decide +kernel
  obtain ⟨text, n, y, htext, hread⟩ := lex_styleNumber hfinite (.length .em)
  obtain rfl := Except.ok.inj (hprinted.symm.trans htext)
  exact ⟨hfinite, hprinted, n, y, hread⟩

end Styling
