import Mathlib
import Styling.File.Decoding

/-!
# Charset rules

A label is looked up first and used then.  One that is unknown is reported, and the fallback is used
in its place.  One that is known and names no text encoding passes the first step, and nothing
stands in for it in the second.  This is the only way in which decoding fails: where no charset rule
is read, broken bytes become replacement characters in every text encoding.

* `Encoding.IsText` is an encoding that decodes any bytes.
* `Decoding.encoding_of_known` and `Decoding.encoding_of_unknown` are about the first step,
  `Decoding.exists_decode_of_encoding` and `Decoding.decode_of_charsetLabel` about the second.
* `Decoding.decode_succeeds_iff` is about all bytes, and `Decoding.exists_undecoded_of_charset`
  about bytes that are not decoded.
-/

namespace Styling

namespace Encoding

/-- Any bytes have a text in the encoding. -/
def IsText (e : Encoding) : Prop :=
  ∀ bytes, ∃ cs, e.decode? bytes = some cs

/-- All encodings but one are text encodings. -/
theorem isText_iff {e : Encoding} : e.IsText ↔ e ≠ .hexadecimal := by
  constructor
  · rintro htext rfl
    obtain ⟨cs, hcs⟩ := htext []
    exact absurd hcs (by simp [decode?])
  · intro hne bytes
    cases e with
    | hexadecimal => exact absurd rfl hne
    | utf16 order => cases order <;> exact ⟨_, rfl⟩
    | _ => exact ⟨_, rfl⟩

theorem isText_utf8 : IsText utf8 := isText_iff.mpr (by decide)

end Encoding

namespace Decoding

variable {bytes : List Nat} {fallback label : String} {e usual : Encoding}

/-! ## The two steps -/

/-- A charset rule starts with an at sign, and so with no byte order mark. -/
theorem exists_cons_of_charsetLabel (h : charsetLabel? bytes = some label) :
    ∃ rest, bytes = 0x40 :: rest := by
  unfold charsetLabel? at h
  dsimp only at h
  split at h
  next hstart =>
    obtain ⟨rest, rfl⟩ := List.isPrefixOf_iff_prefix.mp hstart
    exact ⟨_, rfl⟩
  next => exact absurd h (by simp)

/-- The encoding in place of that of an unknown label.  A charset rule is ASCII, so it is not that
of a fallback whose label starts as those of UTF-16 do. -/
def standIn (fallback : String) (usual : Encoding) : Encoding :=
  if "utf-16".toList.isPrefixOf fallback.toList then .utf8 else usual

theorem isText_standIn (h : usual.IsText) : (standIn fallback usual).IsText := by
  unfold standIn
  split
  · exact Encoding.isText_utf8
  · exact h

theorem encoding_of_none (h : charsetLabel? bytes = none)
    (hfallback : Encoding.ofLabel? fallback = some usual) : encoding bytes fallback = pure usual := by
  simp only [encoding, h, hfallback]

theorem encoding_of_known (h : charsetLabel? bytes = some label)
    (hlabel : Encoding.ofLabel? label = some e) :
    encoding bytes fallback = pure (if e.isUtf16 then .utf8 else e) := by
  simp only [encoding, h, hlabel]

theorem encoding_of_unknown (h : charsetLabel? bytes = some label)
    (hlabel : Encoding.ofLabel? label = none)
    (hfallback : Encoding.ofLabel? fallback = some usual) :
    encoding bytes fallback =
      ⟨[.charsetUnknown label fallback], .ok (standIn fallback usual)⟩ := by
  simp only [encoding, h, hlabel, hfallback, standIn]
  split <;> rfl

/-- Bytes are decoded if a text encoding is found for them. -/
theorem exists_decode_of_encoding (he : e.IsText) (h : (encoding bytes fallback).result = .ok e) :
    ∃ text, (decode bytes fallback).result = .ok text := by
  unfold decode
  by_cases hempty : bytes.isEmpty = true
  · exact ⟨_, by rw [if_pos hempty]; rfl⟩
  rw [if_neg hempty]
  by_cases hmark : byteOrderMark.isPrefixOf bytes = true
  · exact ⟨_, by rw [if_pos hmark]; rfl⟩
  rw [if_neg hmark]
  obtain ⟨cs, hcs⟩ := he bytes
  refine ⟨String.ofList (withoutCharset cs), ?_⟩
  rw [Traced.result_bind, h]
  simp only [bind, Except.bind, hcs]
  rfl

/-- Bytes with a charset rule are decoded in the encoding that is found for it. -/
theorem decode_of_charsetLabel (h : charsetLabel? bytes = some label) :
    decode bytes fallback = (do
      let e ← encoding bytes fallback
      match e.decode? bytes with
      | some cs => return String.ofList (withoutCharset cs)
      | none => Traced.ofExcept (.error (.noTextEncoding fallback))) := by
  obtain ⟨rest, rfl⟩ := exists_cons_of_charsetLabel h
  rfl

/-! ## All bytes -/

/-- **Decoding fails only for a charset that is known and no text encoding.**  Whatever the bytes
are, they are decoded unless they start with such a charset rule; and the fallback is used in place
of a label that is unknown. -/
theorem decode_succeeds_iff (hfallback : Encoding.ofLabel? fallback = some usual)
    (htext : usual.IsText) (bytes : List Nat) :
    ((∃ text, (decode bytes fallback).result = .ok text) ↔
      ∀ label e, charsetLabel? bytes = some label → Encoding.ofLabel? label = some e →
        e.IsText) ∧
    ∀ label, charsetLabel? bytes = some label → Encoding.ofLabel? label = none →
      ∃ cs, (standIn fallback usual).decode? bytes = some cs ∧
        decode bytes fallback =
          ⟨[.charsetUnknown label fallback], .ok (String.ofList (withoutCharset cs))⟩ := by
  refine ⟨⟨?_, fun h => ?_⟩, fun label hcharset hlabel => ?_⟩
  · rintro ⟨text, hdecode⟩ label e hcharset hlabel
    by_contra hnot
    obtain rfl : e = .hexadecimal := not_not.mp (mt Encoding.isText_iff.mpr hnot)
    rw [decode_of_charsetLabel hcharset, encoding_of_known hcharset hlabel, pure_bind] at hdecode
    exact absurd hdecode (by simp [Encoding.isUtf16, Encoding.decode?])
  · cases hcharset : charsetLabel? bytes with
    | none =>
      exact exists_decode_of_encoding htext (by rw [encoding_of_none hcharset hfallback]; rfl)
    | some label =>
      cases hlabel : Encoding.ofLabel? label with
      | none =>
        exact exists_decode_of_encoding (isText_standIn htext)
          (by rw [encoding_of_unknown hcharset hlabel hfallback])
      | some e =>
        refine exists_decode_of_encoding ?_ (by rw [encoding_of_known hcharset hlabel]; rfl)
        split
        · exact Encoding.isText_utf8
        · exact h label e hcharset hlabel
  · obtain ⟨cs, hcs⟩ := (isText_standIn htext : (standIn fallback usual).IsText) bytes
    refine ⟨cs, hcs, ?_⟩
    rw [decode_of_charsetLabel hcharset, encoding_of_unknown hcharset hlabel hfallback]
    simp only [bind, Traced.andThen, hcs]
    rfl

/-- A label that is unknown, and behind it a byte that is broken in UTF-8. -/
theorem decode_succeeds_iff_unknown :
    ∃ bytes, bytes = "@charset \"nope\";".toList.map Char.toNat ++ [0xFF] ∧
      Encoding.ofLabel? "utf-8" = some .utf8 ∧ Encoding.IsText .utf8 ∧
      charsetLabel? bytes = some "nope" ∧
      decode bytes "utf-8" =
        ⟨[.charsetUnknown "nope" "utf-8"], .ok (String.ofList [replacementChar])⟩ := by
  let bytes : List Nat := "@charset \"nope\";".toList.map Char.toNat ++ [0xFF]
  have hfallback : Encoding.ofLabel? "utf-8" = some .utf8 := by decide +kernel
  have hcharset : charsetLabel? bytes = some "nope" := by decide +kernel
  have hlabel : Encoding.ofLabel? "nope" = none := by decide +kernel
  have htext : withoutCharset (Encoding.decodeUtf8 bytes) = [replacementChar] := by decide +kernel
  obtain ⟨cs, hcs, hdecode⟩ :=
    (decode_succeeds_iff hfallback Encoding.isText_utf8 bytes).2 "nope" hcharset hlabel
  rw [show standIn "utf-8" .utf8 = .utf8 by decide] at hcs
  obtain rfl : Encoding.decodeUtf8 bytes = cs := Option.some_inj.mp hcs
  rw [htext] at hdecode
  exact ⟨bytes, rfl, hfallback, Encoding.isText_utf8, hcharset, hdecode⟩

/-- A label that is known and names no text encoding: nothing stands in for it. -/
theorem exists_undecoded_of_charset :
    ∃ bytes, charsetLabel? bytes = some "hex" ∧ (∀ b ∈ bytes, b < 0x100) ∧
      Encoding.ofLabel? "utf-8" = some .utf8 ∧
      ∀ text, (decode bytes "utf-8").result ≠ .ok text := by
  have hresult : (decode ("@charset \"hex\";.b\x7b\x7d".toList.map Char.toNat) "utf-8").result =
      .error (.noTextEncoding "utf-8") := by decide +kernel
  refine ⟨"@charset \"hex\";.b\x7b\x7d".toList.map Char.toNat, by decide +kernel,
    by decide +kernel, by decide +kernel, fun text htext => ?_⟩
  exact absurd (hresult.symm.trans htext) (by simp)

end Decoding

end Styling
