import Styling.Syntax.Problem
import Styling.Syntax.Token

/-!
# From text to tokens

The text is cut into tokens from left to right.  `scanToken` looks at a character and the text after
it and tells the kind of token that starts there and how many further characters belong to it, so
each step makes progress and the spans of successive tokens touch.

* The scanners `scanEscape`, `scanIdent`, `scanString` and `scanComment` tell what they read and how
  many characters that took.
* A `Scanner` tells what starts at a character; `scanToken` is the one of the style language.
* `lexemesFrom` cuts a whole text with a scanner; a `Lexeme` is a token with the problem noticed in
  it, if any.
* `Source.lex` gives the tokens and the errors of a source, or a fault if an integer is too long.
-/

namespace Styling

/-- A letter, an underscore or any character above ASCII. -/
def isIdentStart (c : Char) : Bool :=
  ('a' ≤ c && c ≤ 'z') || ('A' ≤ c && c ≤ 'Z') || 0x80 ≤ c.toNat || c == '_'

/-- A character that may stand inside an identifier. -/
def isIdentChar (c : Char) : Bool :=
  isIdentStart c || isDigit c || c == '-'

/-- The whitespace of the style language. -/
def isSpace (c : Char) : Bool :=
  c == '\t' || c == '\n' || c == ' '

/-- A hexadecimal digit. -/
def isHexDigit (c : Char) : Bool :=
  isDigit c || ('a' ≤ c && c ≤ 'f') || ('A' ≤ c && c ≤ 'F')

/-- A backslash that escapes the character after it. -/
def startsEscape : List Char → Bool
  | '\\' :: c :: _ => c != '\n'
  | _ => false

/-- An identifier starts here. -/
def startsIdent : List Char → Bool
  | [] => false
  | c :: cs =>
    if c = '-' then
      match cs with
      | [] => false
      | d :: ds => isIdentStart d || d == '-' || startsEscape (d :: ds)
    else if c = '\\' then startsEscape (c :: cs)
    else isIdentStart c

/-- Digits, possibly after a point, start here. -/
def startsUnsigned : List Char → Bool
  | '.' :: c :: _ => isDigit c
  | c :: _ => isDigit c
  | [] => false

/-- A number starts here. -/
def startsNumber : List Char → Bool
  | [] => false
  | c :: cs => if c = '+' ∨ c = '-' then startsUnsigned cs else startsUnsigned (c :: cs)

/-- The character with a code point, if there is one that may stand in a text. -/
def escapedChar (code : Nat) : Char :=
  if code = 0 ∨ 0x10FFFF < code ∨ (0xD800 ≤ code ∧ code ≤ 0xDFFF) then replacementChar
  else Char.ofNat code

/-- The character escaped by a backslash before the given text, and how many characters spell it: up
to six hexadecimal digits with one optional space after them, or any other single character. -/
def scanEscape (cs : List Char) : Char × Nat :=
  match cs with
  | [] => (replacementChar, 0)
  | c :: _ =>
    if isHexDigit c then
      let digits := (cs.take 6).takeWhile isHexDigit
      let space := match cs.drop digits.length with
        | d :: _ => if isSpace d then 1 else 0
        | [] => 0
      (escapedChar (digitsValue 16 digits), digits.length + space)
    else (c, 1)

/-- The identifier characters at the start of a text with escapes resolved, and how many characters
spell them. -/
def scanIdent : List Char → List Char × Nat
  | [] => ([], 0)
  | c :: cs =>
    if isIdentChar c then
      let r := scanIdent cs
      (c :: r.1, r.2 + 1)
    else if startsEscape (c :: cs) then
      let e := scanEscape cs
      let r := scanIdent (cs.drop e.2)
      (e.1 :: r.1, r.2 + e.2 + 1)
    else ([], 0)
termination_by cs => cs.length
decreasing_by all_goals simp only [List.length_drop, List.length_cons]; omega

/-- How a string ends. -/
inductive StringEnding
  /-- The closing quote was read. -/
  | quote
  /-- A newline stands before the closing quote. -/
  | newline
  /-- The text is over. -/
  | endOfText
  deriving DecidableEq, Repr

/-- A string after its opening quote: its content with escapes resolved, the number of characters
that spell it and its end. -/
structure ScannedString where
  content : List Char
  size : Nat
  ending : StringEnding
  deriving DecidableEq, Repr

/-- Put further content in front of a string. -/
def ScannedString.prepend (content : List Char) (size : Nat) (s : ScannedString) : ScannedString :=
  ⟨content ++ s.content, size + s.size, s.ending⟩

/-- The string at the start of a text, after its opening quote.  An escaped newline
joins two lines. -/
def scanString (quote : Char) : List Char → ScannedString
  | [] => ⟨[], 0, .endOfText⟩
  | c :: cs =>
    if c = quote then ⟨[], 1, .quote⟩
    else if c = '\n' then ⟨[], 0, .newline⟩
    else if c = '\\' then
      if cs.isEmpty then ⟨[], 1, .endOfText⟩
      else if startsEscape (c :: cs) then
        let e := scanEscape cs
        (scanString quote (cs.drop e.2)).prepend [e.1] (e.2 + 1)
      else (scanString quote (cs.drop 1)).prepend [] 2
    else (scanString quote cs).prepend [c] 1
termination_by cs => cs.length
decreasing_by all_goals simp only [List.length_drop, List.length_cons]; omega

/-- The number of characters up to and including the end mark of a comment, and whether
it is there. -/
def scanComment : List Char → Nat × Bool
  | [] => (0, false)
  | '*' :: '/' :: _ => (2, true)
  | _ :: cs => ((scanComment cs).1 + 1, (scanComment cs).2)

/-- What starts at a character: a kind of token, the number of characters after the first that
belong to it, and the problem noticed in it. -/
structure Scanned where
  kind : TokenKind
  extra : Nat
  problem : Option SyntaxProblem
  deriving Repr

namespace Scanned

/-- A token without problem that takes `extra` characters after the first. -/
def plain (kind : TokenKind) (extra : Nat) : Scanned := ⟨kind, extra, none⟩

/-- A token of a single character. -/
def single (kind : TokenKind) : Scanned := plain kind 0

/-- The character alone as a mark. -/
def mark (c : Char) : Scanned := single (.delim (String.singleton c))

end Scanned

/-- A rule that tells what starts at a character that has a text after it. -/
abbrev Scanner := Char → List Char → Scanned

/-- A number and the unit or percent sign after it. -/
def scanNumeric (cs : List Char) : Scanned :=
  let parts := NumeralParts.scan cs
  let numeral := Numeral.ofParts parts
  let size := parts.chars.length
  let rest := cs.drop size
  if startsIdent rest then
    let unit := scanIdent rest
    .plain (.dimension numeral (String.ofList unit.1)) (size + unit.2 - 1)
  else if rest.head? = some '%' then .plain (.percentage numeral) size
  else .plain (.number numeral) (size - 1)

/-- An identifier, or a function if a parenthesis follows it. -/
def scanIdentLike (cs : List Char) : Scanned :=
  let ident := scanIdent cs
  let name := String.ofList ident.1
  if (cs.drop ident.2).head? = some '(' then .plain (.function name) ident.2
  else .plain (.ident name) (ident.2 - 1)

/-- A string whose opening quote is the first character. -/
def scanQuoted (quote : Char) (cs : List Char) : Scanned :=
  let s := scanString quote cs
  let content := String.ofList s.content
  match s.ending with
  | .quote => ⟨.string content, s.size, none⟩
  | .newline => ⟨.badString content, s.size, some .stringBroken⟩
  | .endOfText => ⟨.string content, s.size, some .stringNotClosed⟩

/-- A hash sign and the name after it. -/
def scanHash (cs : List Char) : Scanned :=
  if (cs.head?.any isIdentChar) || startsEscape cs then
    let name := scanIdent cs
    .plain (.hash (String.ofList name.1) (startsIdent cs)) name.2
  else .mark '#'

/-- What starts at a character in the style language. -/
def scanToken : Scanner := fun c cs =>
  if c = '/' ∧ cs.head? = some '*' then
    let body := scanComment (cs.drop 1)
    let content := String.ofList (c :: cs.take (body.1 + 1))
    ⟨.comment content, body.1 + 1, if body.2 then none else some .commentNotClosed⟩
  else if c = '\"' ∨ c = '\'' then scanQuoted c cs
  else if c = '#' then scanHash cs
  else if startsNumber (c :: cs) then scanNumeric (c :: cs)
  else if c = '-' ∧ cs.take 2 = ['-', '>'] then .plain .commentClose 2
  else if c = '<' ∧ cs.take 3 = ['!', '-', '-'] then .plain .commentOpen 3
  else if c = '@' ∧ startsIdent cs then
    let name := scanIdent cs
    .plain (.atKeyword (String.ofList name.1)) name.2
  else if startsIdent (c :: cs) then scanIdentLike (c :: cs)
  else if c = '\\' then ⟨.delim (String.singleton c), 0, some .invalidBackslash⟩
  else if isSpace c then
    let more := cs.takeWhile isSpace
    .plain (.whitespace (String.ofList (c :: more))) more.length
  else if c = '(' then .single (.opening .round)
  else if c = ')' then .single (.closing .round)
  else if c = '[' then .single (.opening .square)
  else if c = ']' then .single (.closing .square)
  else if c = '\x7b' then .single (.opening .curly)
  else if c = '\x7d' then .single (.closing .curly)
  else if c = ',' then .single .comma
  else if c = ':' then .single .colon
  else if c = ';' then .single .semicolon
  else .mark c

/-- A token and the problem noticed in it. -/
structure Lexeme where
  token : Token
  problem : Option SyntaxProblem
  deriving Repr

namespace Lexeme

/-- The offset at which a problem is reported: a broken string after the newline that breaks it, any
other token at its end. -/
def problemOffset (l : Lexeme) : Nat :=
  if l.problem = some .stringBroken then l.token.stop + 1 else l.token.stop

/-- The error of a lexeme, if it has a problem. -/
def error? (source : Source) (l : Lexeme) : Option SyntaxError :=
  l.problem.map fun p => .ofOffset source p l.problemOffset

end Lexeme

/-- Cut a text that stands at offset `start` into lexemes. -/
def lexemesFrom (scan : Scanner) (start : Nat) : List Char → List Lexeme
  | [] => []
  | c :: cs =>
    let s := scan c cs
    let stop := start + s.extra + 1
    ⟨⟨s.kind, ⟨start, stop⟩⟩, s.problem⟩ :: lexemesFrom scan stop (cs.drop s.extra)
termination_by cs => cs.length
decreasing_by simp only [List.length_drop, List.length_cons]; omega

/-- The tokens of a text, comments included, and its errors. -/
structure Lexed where
  tokens : List Token
  errors : List SyntaxError
  deriving Repr

namespace Lexed

/-- The tokens that are no comments. -/
def kept (l : Lexed) : List Token :=
  l.tokens.filter fun t => !t.kind.isComment

end Lexed

namespace Source

/-- The lexemes that a scanner finds in a source. -/
def lexemesBy (s : Source) (scan : Scanner) : List Lexeme :=
  lexemesFrom scan 0 s.chars

/-- The tokens and errors that a scanner finds in a source; an integer with too many digits is
a fault. -/
def lexBy (s : Source) (scan : Scanner) : Except Fault Lexed :=
  let lexemes := s.lexemesBy scan
  if lexemes.any fun l => l.token.kind.isOversized then .error .digitLimit
  else .ok ⟨lexemes.map (·.token), lexemes.filterMap (·.error? s)⟩

/-- The lexemes of a source in the style language. -/
def lexemes (s : Source) : List Lexeme := s.lexemesBy scanToken

/-- The tokens and errors of a source in the style language. -/
def lex (s : Source) : Except Fault Lexed := s.lexBy scanToken

end Source

end Styling
