import Styling.Text.Source

/-!
# Text encodings

Bytes are decoded without ever failing: what is broken becomes the replacement character.

* `Encoding.ofLabel?` finds the encoding of a label.  Labels are compared without regard to case,
  and any run of characters that are neither letters, digits nor points counts as one underscore.
* `Encoding.decode` decodes bytes.  In UTF-8 each longest sequence that could start a character is
  replaced as one; in the single-byte encodings each byte without a character is.
-/

namespace Styling

/-- The order of the two bytes of a UTF-16 unit; `marked` reads a byte order mark. -/
inductive ByteOrder
  | marked
  | little
  | big
  deriving DecidableEq, Repr

/-- The encodings that have a label. -/
inductive Encoding
  | utf8
  | ascii
  | latin1
  | latin9
  | windows1252
  | utf16 (order : ByteOrder)
  /-- A known transformation of bytes that gives no text. -/
  | hexadecimal
  deriving DecidableEq, Repr

namespace Encoding

/-- The encoding is a form of UTF-16. -/
def isUtf16 : Encoding → Bool
  | utf16 _ => true
  | _ => false

/-- The labels of each encoding in their normal form. -/
def labels : List (Encoding × List String) :=
  [(utf8, ["utf_8", "u8", "utf", "utf8", "utf8_ucs2", "utf8_ucs4", "cp65001"]),
    (ascii, ["ascii", "646", "ansi_x3.4_1968", "ansi_x3_4_1968", "ansi_x3.4_1986", "cp367",
      "csascii", "ibm367", "iso646_us", "iso_646.irv_1991", "iso_ir_6", "us", "us_ascii"]),
    (latin1, ["latin_1", "8859", "cp819", "csisolatin1", "ibm819", "iso8859", "iso8859_1",
      "iso_8859_1", "iso_8859_1_1987", "iso_ir_100", "l1", "latin", "latin1"]),
    (latin9, ["iso8859_15", "iso_8859_15", "l9", "latin9"]),
    (windows1252, ["cp1252", "1252", "windows_1252"]),
    (utf16 .marked, ["utf_16", "u16", "utf16"]),
    (utf16 .little, ["utf_16_le", "unicodelittleunmarked", "utf_16le"]),
    (utf16 .big, ["utf_16_be", "unicodebigunmarked", "utf_16be"]),
    (hexadecimal, ["hex_codec", "hex"])]

/-- A character that stands in the normal form of a label. -/
def isLabelChar (c : Char) : Bool :=
  c.isAlphanum || c == '.'

/-- The normal form of a label; `pending` tells that other characters stand between the last one
kept and the next one. -/
def normalizeLabel (started pending : Bool) : List Char → List Char
  | [] => []
  | c :: cs =>
    if isLabelChar c then
      (if started && pending then ['_', c.toLower] else [c.toLower]) ++ normalizeLabel true false cs
    else normalizeLabel started true cs

/-- The encoding of a label. -/
def ofLabel? (label : String) : Option Encoding :=
  let name := String.ofList (normalizeLabel false false label.toList)
  (labels.find? fun entry => entry.2.contains name).map (·.1)

/-- A byte of ASCII, or the replacement character. -/
def asciiChar (b : Nat) : Char :=
  if b < 0x80 then Char.ofNat b else replacementChar

/-- The characters of the bytes 0x80 to 0x9F in the Windows encoding, zero where there is none. -/
def windowsTable : List Nat :=
  [0x20AC, 0, 0x201A, 0x192, 0x201E, 0x2026, 0x2020, 0x2021,
    0x2C6, 0x2030, 0x160, 0x2039, 0x152, 0, 0x17D, 0,
    0, 0x2018, 0x2019, 0x201C, 0x201D, 0x2022, 0x2013, 0x2014,
    0x2DC, 0x2122, 0x161, 0x203A, 0x153, 0, 0x17E, 0x178]

/-- The character of a byte in the Windows encoding. -/
def windowsChar (b : Nat) : Char :=
  if 0x80 ≤ b && b < 0xA0 then
    match windowsTable[b - 0x80]? with
    | some 0 => replacementChar
    | some n => Char.ofNat n
    | none => replacementChar
  else Char.ofNat b

/-- The characters in which the ninth Latin alphabet differs from the first. -/
def latin9Table : List (Nat × Nat) :=
  [(0xA4, 0x20AC), (0xA6, 0x160), (0xA8, 0x161), (0xB4, 0x17D), (0xB8, 0x17E), (0xBC, 0x152),
    (0xBD, 0x153), (0xBE, 0x178)]

/-- The character of a byte in the ninth Latin alphabet. -/
def latin9Char (b : Nat) : Char :=
  Char.ofNat ((latin9Table.lookup b).getD b)

/-- What may follow the first byte of a UTF-8 sequence: the number of further bytes, the range of
the second byte and the bits that the first byte carries. -/
structure Utf8Lead where
  count : Nat
  low : Nat
  high : Nat
  bits : Nat
  deriving DecidableEq, Repr

/-- The sequences of several bytes that a first byte can start. -/
def utf8Lead? (b : Nat) : Option Utf8Lead :=
  if 0xC2 ≤ b && b ≤ 0xDF then some ⟨1, 0x80, 0xBF, b % 0x20⟩
  else if b == 0xE0 then some ⟨2, 0xA0, 0xBF, 0⟩
  else if b == 0xED then some ⟨2, 0x80, 0x9F, 0xD⟩
  else if 0xE1 ≤ b && b ≤ 0xEF then some ⟨2, 0x80, 0xBF, b % 0x10⟩
  else if b == 0xF0 then some ⟨3, 0x90, 0xBF, 0⟩
  else if 0xF1 ≤ b && b ≤ 0xF3 then some ⟨3, 0x80, 0xBF, b % 8⟩
  else if b == 0xF4 then some ⟨3, 0x80, 0x8F, 4⟩
  else none

/-- Read the further bytes of a sequence: how many fit, and the code point if all do. -/
def utf8Rest (low high bits : Nat) : Nat → List Nat → Nat × Option Nat
  | 0, _ => (0, some bits)
  | _ + 1, [] => (0, none)
  | count + 1, b :: bs =>
    if low ≤ b && b ≤ high then
      let (taken, code) := utf8Rest 0x80 0xBF (bits * 0x40 + b % 0x40) count bs
      (taken + 1, code)
    else (0, none)

/-- Decode UTF-8. -/
def decodeUtf8 : List Nat → List Char
  | [] => []
  | b :: bs =>
    if b < 0x80 then Char.ofNat b :: decodeUtf8 bs
    else
      match utf8Lead? b with
      | none => replacementChar :: decodeUtf8 bs
      | some lead =>
        let rest := utf8Rest lead.low lead.high lead.bits lead.count bs
        (rest.2.elim replacementChar Char.ofNat) :: decodeUtf8 (bs.drop rest.1)
termination_by bs => bs.length
decreasing_by all_goals simp only [List.length_drop, List.length_cons]; omega

/-- A UTF-16 unit of two bytes. -/
def unit (bigEndian : Bool) (a b : Nat) : Nat :=
  if bigEndian then a * 0x100 + b else b * 0x100 + a

/-- A unit that starts a pair. -/
def isHighSurrogate (u : Nat) : Bool := 0xD800 ≤ u && u < 0xDC00

/-- A unit that ends a pair. -/
def isLowSurrogate (u : Nat) : Bool := 0xDC00 ≤ u && u < 0xE000

/-- Decode UTF-16 in a known byte order.  A unit that is no character and an incomplete end are each
replaced as one. -/
def decodeUtf16 (bigEndian : Bool) : List Nat → List Char
  | [] => []
  | [_] => [replacementChar]
  | a :: b :: rest =>
    let u := unit bigEndian a b
    if isHighSurrogate u then
      match rest with
      | c :: d :: more =>
        let v := unit bigEndian c d
        if isLowSurrogate v then
          Char.ofNat (0x10000 + (u - 0xD800) * 0x400 + (v - 0xDC00)) :: decodeUtf16 bigEndian more
        else replacementChar :: decodeUtf16 bigEndian (c :: d :: more)
      | _ => [replacementChar]
    else if isLowSurrogate u then replacementChar :: decodeUtf16 bigEndian rest
    else Char.ofNat u :: decodeUtf16 bigEndian rest

/-- Decode UTF-16, whose byte order a mark may tell; without a mark the low byte comes first. -/
def decodeMarkedUtf16 : List Nat → List Char
  | 0xFF :: 0xFE :: rest => decodeUtf16 false rest
  | 0xFE :: 0xFF :: rest => decodeUtf16 true rest
  | bs => decodeUtf16 false bs

/-- Decode bytes, unless the encoding gives no text. -/
def decode? (e : Encoding) (bytes : List Nat) : Option (List Char) :=
  match e with
  | utf8 => some (decodeUtf8 bytes)
  | ascii => some (bytes.map asciiChar)
  | latin1 => some (bytes.map Char.ofNat)
  | latin9 => some (bytes.map latin9Char)
  | windows1252 => some (bytes.map windowsChar)
  | utf16 .marked => some (decodeMarkedUtf16 bytes)
  | utf16 .little => some (decodeUtf16 false bytes)
  | utf16 .big => some (decodeUtf16 true bytes)
  | hexadecimal => none

end Encoding

end Styling
