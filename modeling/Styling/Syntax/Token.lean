import Styling.Text.Lowercase
import Styling.Text.Quoted
import Styling.Number.Numeral

/-!
# Tokens

A token is a kind together with the span of source text it was read from, so that every value can be
shown in its author's spelling.

* `TokenKind` lists the kinds; names and strings are kept with their escapes resolved.
* `TokenKind.raw` is the text a token stands for, `TokenKind.text` the text with the marks that
  belong to its kind, and `TokenKind.display` its description.
-/

namespace Styling

/-- The three kinds of brackets. -/
inductive Bracket
  | round
  | square
  | curly
  deriving DecidableEq, Repr

namespace Bracket

/-- The opening character. -/
def opening : Bracket → Char
  | round => '('
  | square => '['
  | curly => '\x7b'

/-- The closing character. -/
def closing : Bracket → Char
  | round => ')'
  | square => ']'
  | curly => '\x7d'

/-- The name of the kind of bracket in descriptions. -/
def label : Bracket → String
  | round => "Parantheses"
  | square => "SquareBracket"
  | curly => "CurlyBracket"

end Bracket

/-- The kinds of tokens. -/
inductive TokenKind
  | ident (name : String)
  | function (name : String)
  | atKeyword (name : String)
  | hash (name : String) (isId : Bool)
  | string (content : String)
  | badString (content : String)
  | delim (mark : String)
  | colon
  | semicolon
  | comma
  | opening (bracket : Bracket)
  | closing (bracket : Bracket)
  | number (value : Numeral)
  | percentage (value : Numeral)
  | dimension (value : Numeral) (unit : String)
  | comment (content : String)
  | whitespace (content : String)
  | commentOpen
  | commentClose
  deriving Repr

namespace TokenKind

/-- The text a token stands for, without the marks of its kind. -/
def raw : TokenKind → String
  | ident name | function name | atKeyword name | hash name _ => name
  | string content | badString content => content
  | delim mark => mark
  | colon => ":"
  | semicolon => ";"
  | comma => ","
  | opening b => String.singleton b.opening
  | closing b => String.singleton b.closing
  | number n | percentage n => n.raw
  | dimension n unit => n.raw ++ unit
  | comment content | whitespace content => content
  | commentOpen => "<!--"
  | commentClose => "-->"

/-- The text of a token with the marks of its kind. -/
def text : TokenKind → String
  | function name => name ++ "("
  | atKeyword name => "@" ++ name
  | hash name _ => "#" ++ name
  | string content => Text.quoted content
  | percentage n => n.raw ++ "%"
  | kind => kind.raw

/-- The name of the kind in descriptions. -/
def label : TokenKind → String
  | ident _ => "Ident"
  | function _ => "Function"
  | atKeyword _ => "AtKeyword"
  | hash _ _ => "Hash"
  | string _ => "String"
  | badString _ => "BadString"
  | delim _ => "Delim"
  | colon => "Colon"
  | semicolon => "Semicolon"
  | comma => "Comma"
  | opening b => "L" ++ b.label
  | closing b => "R" ++ b.label
  | number _ => "Number"
  | percentage _ => "Percentage"
  | dimension _ _ => "Dimension"
  | comment _ => "Comment"
  | whitespace _ => "Whitespace"
  | commentOpen => "CDO"
  | commentClose => "CDC"

/-- The description of a token. -/
def display (kind : TokenKind) : String :=
  kind.label ++ "(" ++ Text.quoted kind.raw ++ ")"

/-- The token is whitespace. -/
def isWhitespace : TokenKind → Bool
  | whitespace _ => true
  | _ => false

/-- The token is a comment. -/
def isComment : TokenKind → Bool
  | comment _ => true
  | _ => false

/-- The token is a comma. -/
def isComma : TokenKind → Bool
  | comma => true
  | _ => false

/-- The token is a semicolon. -/
def isSemicolon : TokenKind → Bool
  | semicolon => true
  | _ => false

/-- The token is the given mark. -/
def isDelim (mark : String) : TokenKind → Bool
  | delim m => m == mark
  | _ => false

/-- The token is an identifier that spells a lowercase keyword. -/
def isKeyword (keyword : String) : TokenKind → Bool
  | ident name => Text.lowercase name == keyword
  | _ => false

/-- The token is an integer with more digits than are accepted. -/
def isOversized : TokenKind → Bool
  | number n | percentage n | dimension n _ => n.isOversized
  | _ => false

/-- The mark of a single character; a longer text is none. -/
def delim? (mark : String) : Option TokenKind :=
  if mark.toList.length ≤ 1 then some (delim mark) else none

/-- Why a text of several characters is no mark. -/
def delimTooLong : String := "Delimiters may only be one codepoint long"

end TokenKind

/-- A stretch of source text. -/
structure Span where
  start : Nat
  stop : Nat
  deriving DecidableEq, Repr, Inhabited

/-- A token and the span it was read from. -/
structure Token where
  kind : TokenKind
  span : Span
  deriving Repr

namespace Token

/-- The offset of the first character. -/
def start (t : Token) : Nat := t.span.start

/-- The offset after the last character. -/
def stop (t : Token) : Nat := t.span.stop

end Token

end Styling
