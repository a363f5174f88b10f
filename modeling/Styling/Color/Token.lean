import Styling.Syntax.Lexeme

/-!
# Tokens of written colors

Text that should be a color is cut into tokens by a scanner of its own.  It knows two forms that the
style language reads as several tokens: the address `url(...)` without quotes, and a range of code
points such as `u+20-7f`.  Neither is part of a color, so both are kept as marks; but the digits in
them are no numbers, and a parenthesis or quote in an address opens nothing.

* `codeRangeSize` measures a range of code points and `addressSize` an address.
* `scanColorToken` is the scanner.
-/

namespace Styling

/-- The number of hexadecimal digits at the start of a text, at most six. -/
def codePointSize (cs : List Char) : Nat :=
  ((cs.take 6).takeWhile isHexDigit).length

/-- A range of code points starts here: a letter `u`, a plus sign, and a hexadecimal digit or a
question mark. -/
def startsCodeRange : Char → List Char → Bool
  | c, '+' :: d :: _ => (c == 'u' || c == 'U') && (isHexDigit d || d == '?')
  | _, _ => false

/-- The number of characters of a range of code points after its plus sign: up to six digits and
question marks, or two code points with a hyphen between them. -/
def codeRangeSize (cs : List Char) : Nat :=
  let digits := codePointSize cs
  let marks := (((cs.take 6).drop digits).takeWhile (· == '?')).length
  if marks = 0 then
    match cs.drop digits with
    | '-' :: last => if codePointSize last = 0 then digits else digits + 1 + codePointSize last
    | _ => digits
  else digits + marks

/-- The number of characters of the rest of a malformed address, closing parenthesis included. -/
def malformedAddressSize : List Char → Nat
  | [] => 0
  | '\\' :: ')' :: cs => malformedAddressSize cs + 2
  | ')' :: _ => 1
  | _ :: cs => malformedAddressSize cs + 1

/-- The number of characters of an address after whitespace in it: nothing but the closing
parenthesis may follow. -/
def addressEndSize (cs : List Char) : Nat :=
  let blanks := (cs.takeWhile isSpace).length
  match cs.drop blanks with
  | [] => blanks
  | ')' :: _ => blanks + 1
  | rest => blanks + malformedAddressSize rest

/-- A character that opens a string. -/
def isQuote (c : Char) : Bool :=
  c == '\"' || c == '\''

/-- A character that may not stand in an address. -/
def spoilsAddress (c : Char) : Bool :=
  let n := c.toNat
  isQuote c || c == '(' || n ≤ 0x08 || n == 0x0B || (0x0E ≤ n && n ≤ 0x1F) || n == 0x7F

/-- The number of characters of an address from its first character to its closing parenthesis. -/
def addressSize : List Char → Nat
  | [] => 0
  | c :: cs =>
    if c = ')' then 1
    else if isSpace c then addressEndSize cs + 1
    else if startsEscape (c :: cs) then
      let size := (scanEscape cs).2
      addressSize (cs.drop size) + size + 1
    else if spoilsAddress c then malformedAddressSize cs + 1
    else addressSize cs + 1
termination_by cs => cs.length
decreasing_by all_goals simp only [List.length_drop, List.length_cons]; omega

/-- The number of characters of an address after its opening parenthesis, unless a quote starts
it. -/
def openedAddressSize? (cs : List Char) : Option Nat :=
  let blanks := (cs.takeWhile isSpace).length
  let inside := cs.drop blanks
  if inside.head?.any isQuote then none else some (blanks + addressSize inside)

/-- The number of characters of the address at the start of a text, if one stands there. -/
def addressSize? (cs : List Char) : Option Nat :=
  let name := scanIdent cs
  match cs.drop name.2 with
  | '(' :: inside =>
    if startsIdent cs && Text.lowercaseAscii (String.ofList name.1) == "url" then
      (openedAddressSize? inside).map (name.2 + 1 + ·)
    else none
  | _ => none

/-- What starts at a character of a text that should be a color. -/
def scanColorToken : Scanner := fun c cs =>
  let marked := fun extra => Scanned.plain (.delim (String.ofList (c :: cs.take extra))) extra
  if startsCodeRange c cs then marked (codeRangeSize (cs.drop 1) + 1)
  else
    match addressSize? (c :: cs) with
    | some size => marked (size - 1)
    | none => scanToken c cs

end Styling
