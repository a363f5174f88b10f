/-!
# Blank characters and line ends

Two sets of characters matter when text is shown or kept: the characters that `trim` removes from
both ends of a text, and the characters at which `firstLine` ends a line.  Neither set is the
whitespace of the style language, which is tab, newline and space alone.
-/

namespace Styling.Text

/-- The characters `trim` removes. -/
def isBlank (c : Char) : Bool :=
  let n := c.toNat
  (0x09 ≤ n && n ≤ 0x0D) || (0x1C ≤ n && n ≤ 0x20) || n == 0x85 || n == 0xA0 || n == 0x1680 ||
    (0x2000 ≤ n && n ≤ 0x200A) || n == 0x2028 || n == 0x2029 || n == 0x202F || n == 0x205F ||
    n == 0x3000

/-- The characters that end a line. -/
def isLineEnd (c : Char) : Bool :=
  let n := c.toNat
  (0x0A ≤ n && n ≤ 0x0D) || (0x1C ≤ n && n ≤ 0x1E) || n == 0x85 || n == 0x2028 || n == 0x2029

/-- The characters without the blanks before the first and after the last character that is none. -/
def trimChars (cs : List Char) : List Char :=
  ((cs.dropWhile isBlank).reverse.dropWhile isBlank).reverse

/-- Remove the blanks at both ends of a text. -/
def trim (s : String) : String :=
  String.ofList (trimChars s.toList)

/-- The text before the first line end. -/
def firstLine (s : String) : String :=
  String.ofList (s.toList.takeWhile fun c => !isLineEnd c)

end Styling.Text
