import Styling.Text.Blank
import Styling.Text.Encoding
import Styling.Variable.Event

/-!
# Decoding a style sheet

The encoding of a sheet is UTF-8 if it starts with a byte order mark, otherwise the one that a
leading charset rule names, otherwise a fallback.  A charset rule is ASCII, so one that names UTF-16
is taken to mean UTF-8.  The rule itself is left out of the text.
-/

namespace Styling

/-- A label that names no text encoding was to be used. -/
inductive DecodeError
  | noTextEncoding (label : String)
  deriving DecidableEq, Repr

namespace Decoding

/-- The byte order mark of UTF-8. -/
def byteOrderMark : List Nat := [0xEF, 0xBB, 0xBF]

/-- How a charset rule starts. -/
def charsetStart : List Char := "@charset \"".toList

/-- How a charset rule ends. -/
def charsetEnd : List Char := "\";".toList

/-- A byte that may stand in the label of a charset rule. -/
def isLabelByte (b : Nat) : Bool := 0x20 ≤ b && b < 0x80 && b != 0x22

/-- The label of the charset rule that bytes start with. -/
def charsetLabel? (bytes : List Nat) : Option String :=
  let codes := fun (cs : List Char) => cs.map Char.toNat
  if (codes charsetStart).isPrefixOf bytes then
    let rest := bytes.drop charsetStart.length
    let label := rest.takeWhile isLabelByte
    if (codes charsetEnd).isPrefixOf (rest.drop label.length) then
      some ((Text.trim (String.ofList (label.map Char.ofNat))).map Char.toLower)
    else none
  else none

/-- Leave out the charset rule that a text starts with. -/
def withoutCharset (cs : List Char) : List Char :=
  if charsetStart.isPrefixOf cs then
    let rest := (cs.drop charsetStart.length).dropWhile (· != '\"')
    if charsetEnd.isPrefixOf rest then rest.drop charsetEnd.length else cs
  else cs

/-- The encoding of the charset rule that bytes start with; without one, or with an unknown label,
the encoding of a fallback label. -/
def encoding (bytes : List Nat) (fallback : String) : Traced DecodeError Encoding := do
  let usual : Traced DecodeError Encoding :=
    match Encoding.ofLabel? fallback with
    | some e => pure e
    | none => Traced.ofExcept (.error (.noTextEncoding fallback))
  match charsetLabel? bytes with
  | none => usual
  | some label =>
    match Encoding.ofLabel? label with
    | some e => return if e.isUtf16 then .utf8 else e
    | none =>
      Traced.report (.charsetUnknown label fallback)
      if "utf-16".toList.isPrefixOf fallback.toList then return .utf8 else usual

/-- Decode the bytes of a sheet.  No bytes give the empty text whatever the fallback label is, since
no encoding is needed for them. -/
def decode (bytes : List Nat) (fallback : String) : Traced DecodeError String := do
  if bytes.isEmpty then return ""
  if byteOrderMark.isPrefixOf bytes then
    return String.ofList (Encoding.decodeUtf8 (bytes.drop byteOrderMark.length))
  let e ← encoding bytes fallback
  match e.decode? bytes with
  | some cs => return String.ofList (withoutCharset cs)
  | none => Traced.ofExcept (.error (.noTextEncoding fallback))

end Decoding

end Styling
