import Styling.Text.CaseTable

/-!
# Lowercase text

Keywords, property names, units and function names are compared in lowercase.  The comparison uses
the full lowercase mapping of Unicode and not only its ASCII part, so a kelvin sign spells a `k`.

* `lowercase` maps a text; it is the identity on text that has no uppercase letter.
* A capital sigma becomes a final sigma at the end of a word and a plain sigma elsewhere, so the
  mapping of a character may depend on its neighbours.
-/

namespace Styling.Text

/-- Whether a code point lies in one of the closed ranges. -/
def inRanges (ranges : List (Nat × Nat)) (c : Char) : Bool :=
  ranges.any fun r => r.1 ≤ c.toNat && c.toNat ≤ r.2

/-- The lowercase form of a character, apart from its context. -/
def lowercaseChar (c : Char) : List Char :=
  if c.toNat < 0x80 then [c.toLower]
  else if c.toNat = 0x130 then ['i', Char.ofNat 0x307]
  else
    match lowercaseRuns.find? fun r =>
        r.1 ≤ c.toNat && c.toNat ≤ r.2.1 && (c.toNat - r.1) % r.2.2.1 == 0 with
    | some r => [Char.ofNat (c.toNat + r.2.2.2).toNat]
    | none => [c]

/-- The first character that is not skipped is a cased letter. -/
def meetsCasedLetter (cs : List Char) : Bool :=
  match cs.dropWhile (inRanges caseIgnorableRanges) with
  | [] => false
  | c :: _ => inRanges casedRanges c

/-- The form a capital sigma takes between the (reversed) text before it and the text after it. -/
def lowercaseSigma (before after : List Char) : Char :=
  if meetsCasedLetter before && !meetsCasedLetter after then Char.ofNat 0x3C2 else Char.ofNat 0x3C3

/-- Lowercase a text, given the reversed text that stands before it. -/
def lowercaseFrom (before : List Char) : List Char → List Char
  | [] => []
  | c :: cs =>
    (if c.toNat = 0x3A3 then [lowercaseSigma before cs] else lowercaseChar c) ++
      lowercaseFrom (c :: before) cs

/-- Lowercase every letter of a text. -/
def lowercase (s : String) : String :=
  String.ofList (lowercaseFrom [] s.toList)

/-- Lowercase the ASCII letters of a text and keep every other character. -/
def lowercaseAscii (s : String) : String :=
  String.ofList (s.toList.map Char.toLower)

end Styling.Text
