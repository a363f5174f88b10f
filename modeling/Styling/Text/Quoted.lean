/-!
# Quoted text

The display form of a text inside a description of tokens, components and rules: the text between
quotes, with tabs and newlines written as escapes.  Single quotes are used unless the text holds a
single quote and no double quote.
-/

namespace Styling.Text

/-- One character of a text that stands between two `quote` characters. -/
def quotedChar (quote c : Char) : List Char :=
  if c == quote || c == '\\' then ['\\', c]
  else if c == '\t' then ['\\', 't']
  else if c == '\n' then ['\\', 'n']
  else if c == '\r' then ['\\', 'r']
  else [c]

/-- The quote that surrounds a text in its display form. -/
def quoteFor (cs : List Char) : Char :=
  if cs.contains '\'' && !cs.contains '\"' then '\"' else '\''

/-- The display form of a text. -/
def quoted (s : String) : String :=
  let q := quoteFor s.toList
  String.ofList (q :: (s.toList.flatMap (quotedChar q) ++ [q]))

/-- The display form of a list whose entries are already displayed. -/
def bracketed (entries : List String) : String :=
  "[" ++ String.intercalate ", " entries ++ "]"

end Styling.Text
