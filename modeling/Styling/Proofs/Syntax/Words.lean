import Mathlib
import Styling.Color.Token
import Styling.Proofs.Number.Literal
import Styling.Proofs.Syntax.Written

/-!
# Words that are printed

The words of a printed value are numbers with or without a unit, identifiers and colors in
hexadecimal, and they are separated by spaces, commas and closing parentheses.  None of them goes on
beyond such a separator, so each is cut off as what was printed.

* `StopsWord` is what follows a word, `StopsIdent` what may follow an identifier.
* `Written.number`, `Written.percentage`, `Written.dimension`, `Written.ident`, `Written.hash`,
  `Written.space` and `Written.comma` are the words, each with the lemma that it fits.
* `Written.IsIdentifier` is any identifier without escapes; `Written.IsName` is one that starts with
  a letter.
* `Written.fits_call` is about a call, and `Written.listFits_scanColorToken` about the scanner of
  colors, which differs only where an address or a range of code points starts.
-/

namespace Styling

/-- The end of a text or a separator. -/
def StopsWord (cs : List Char) : Prop :=
  ∀ c ∈ cs.head?, c = ' ' ∨ c = ',' ∨ c = ')'

/-- Every character of the text is left alone by normalization. -/
def IsNormalText (cs : List Char) : Prop :=
  ∀ c ∈ cs, Source.IsNormal c

/-- A numeral ends before a character that is neither a digit nor a point nor the mark of an
exponent. -/
theorem EndsNumeral.cons {c : Char} {cs : List Char} (hdigit : isDigit c = false) (hpoint : c ≠ '.')
    (hmark : ¬ (c = 'e' ∨ c = 'E')) : EndsNumeral (c :: cs) :=
  ⟨hdigit, fun h => hpoint (Option.some.inj h), if_neg fun h => hmark h.1⟩

namespace StopsWord

variable {rest : List Char}

theorem nil : StopsWord [] := fun _ h => absurd h (by simp)

theorem space (cs : List Char) : StopsWord (' ' :: cs) := fun _ h =>
  Or.inl (Option.mem_some.mp h).symm

theorem comma (cs : List Char) : StopsWord (',' :: cs) := fun _ h =>
  Or.inr (Or.inl (Option.mem_some.mp h).symm)

theorem closing (cs : List Char) : StopsWord (')' :: cs) := fun _ h =>
  Or.inr (Or.inr (Option.mem_some.mp h).symm)

theorem eq_nil_or_cons (h : StopsWord rest) :
    rest = [] ∨ ∃ c cs, rest = c :: cs ∧ (c = ' ' ∨ c = ',' ∨ c = ')') := by
  cases rest with
  | nil => exact Or.inl rfl
  | cons c cs => exact Or.inr ⟨c, cs, rfl, h c rfl⟩

/-- No identifier goes on into what follows a word. -/
theorem scanIdent (h : StopsWord rest) : scanIdent rest = ([], 0) := by
  rcases h.eq_nil_or_cons with rfl | ⟨c, cs, rfl, hc⟩
  · exact scanIdent_nil
  · rw [scanIdent_cons]
    rcases hc with rfl | rfl | rfl <;> exact if_neg (by decide)

/-- No unit starts where a word has ended. -/
theorem startsIdent (h : StopsWord rest) : startsIdent rest = false := by
  rcases h.eq_nil_or_cons with rfl | ⟨c, cs, rfl, hc⟩
  · rfl
  · rw [startsIdent_cons]
    rcases hc with rfl | rfl | rfl <;> rfl

/-- No numeral goes on into what follows a word. -/
theorem endsNumeral (h : StopsWord rest) : EndsNumeral rest := by
  rcases h.eq_nil_or_cons with rfl | ⟨c, cs, rfl, hc⟩
  · exact ⟨rfl, by simp, rfl⟩
  · rcases hc with rfl | rfl | rfl <;> exact .cons rfl (by decide) (by decide)

theorem head_ne (h : StopsWord rest) {c : Char} (hc : c ≠ ' ' ∧ c ≠ ',' ∧ c ≠ ')') :
    rest.head? ≠ some c := by
  intro hhead
  rcases h c hhead with rfl | rfl | rfl <;> simp at hc

end StopsWord

/-- What follows an identifier: it does not go on there, it is not the name of a call, and hyphens
at its end are not the end mark of a comment. -/
structure StopsIdent (cs : List Char) : Prop where
  scan : scanIdent cs = ([], 0)
  call : cs.head? ≠ some '('
  close : cs.head? ≠ some '>'

theorem StopsWord.stopsIdent {rest : List Char} (h : StopsWord rest) : StopsIdent rest :=
  ⟨h.scanIdent, h.head_ne (by decide), h.head_ne (by decide)⟩

theorem StopsIdent.nil : StopsIdent [] :=
  ⟨scanIdent_nil, by simp, by simp⟩

/-- A character that no identifier has in it stops one, unless it makes a call or ends a comment. -/
theorem StopsIdent.cons {c : Char} (hchar : isIdentChar c = false)
    (hc : c ≠ '\\' ∧ c ≠ '(' ∧ c ≠ '>') (cs : List Char) : StopsIdent (c :: cs) := by
  refine ⟨?_, fun h => hc.2.1 (Option.some_inj.mp h), fun h => hc.2.2 (Option.some_inj.mp h)⟩
  rw [scanIdent_cons, if_neg (Bool.eq_false_iff.mp hchar), startsEscape_of_ne hc.1]
  rfl

namespace Written

/-! ## Numbers -/

section Numerals

variable {p : NumeralParts}

/-- A number starts where parts are written. -/
theorem startsNumber_chars (h : p.IsPlain) {rest : List Char} (hrest : EndsNumeral rest) :
    startsNumber (p.chars ++ rest) = true := by
  rw [NumeralParts.startsNumber_eq, h.scan_chars hrest]
  simp [h.whole_ne_nil]

/-- The first character of a plain number. -/
theorem exists_head_chars (h : p.IsPlain) :
    ∃ c cs, p.chars = c :: cs ∧ (c = '-' ∨ isDigit c = true) := by
  obtain ⟨d, ds, hwhole⟩ := List.exists_cons_of_ne_nil h.whole_ne_nil
  rcases h.sign with hs | hs
  · exact ⟨d, _, by rw [NumeralParts.chars, hs, hwhole]; rfl,
      Or.inr (h.whole d (hwhole ▸ List.mem_cons_self))⟩
  · exact ⟨'-', _, by rw [NumeralParts.chars, hs]; rfl, Or.inl rfl⟩

/-- Where parts are written, a number is read. -/
theorem scanToken_chars (h : p.IsPlain) {rest : List Char} (hrest : EndsNumeral rest) {c : Char}
    {cs : List Char} (hchars : p.chars = c :: cs) :
    scanToken c (cs ++ rest) = scanNumeric (p.chars ++ rest) := by
  obtain ⟨d, ds, hhead, hd⟩ := exists_head_chars h
  obtain ⟨rfl, rfl⟩ := List.cons.inj (hchars.symm.trans hhead)
  have hnumber := startsNumber_chars h hrest
  rw [hchars, List.cons_append] at hnumber ⊢
  have hne : ∀ b : Char, b ≠ '-' → isDigit b = false → c ≠ b := by
    rintro b hminus hb rfl
    rcases hd with rfl | hd
    · exact hminus rfl
    · exact absurd (hb.symm.trans hd) Bool.false_ne_true
  have h₁ := hne '/' (by decide) rfl
  have h₂ := hne '\"' (by decide) rfl
  have h₃ := hne '\'' (by decide) rfl
  have h₄ := hne '#' (by decide) rfl
  simp only [scanToken, h₁, h₂, h₃, h₄, hnumber, false_and, or_self, if_false, if_true]

/-- A number without a unit. -/
def number (p : NumeralParts) : Written :=
  token p.chars (.number (.ofParts p))

theorem fits_number (h : p.IsPlain) (hsmall : (Numeral.ofParts p).isOversized = false)
    {rest : List Char} (hrest : StopsWord rest) : (number p).Fits scanToken rest := by
  obtain ⟨c, cs, hchars, -⟩ := exists_head_chars h
  rw [number, Fits]
  refine ⟨congrArg not hsmall, c, cs, hchars, ?_⟩
  have hlength : p.chars.length - 1 = cs.length := by rw [hchars]; rfl
  rw [scanToken_chars h hrest.endsNumeral hchars]
  simp only [scanNumeric, h.scan_chars hrest.endsNumeral, List.drop_left, hrest.startsIdent,
    Bool.false_eq_true, if_false]
  rw [if_neg (hrest.head_ne (by decide)), hlength]

/-- A percentage. -/
def percentage (p : NumeralParts) : Written :=
  token (p.chars ++ ['%']) (.percentage (.ofParts p))

theorem fits_percentage (h : p.IsPlain) (hsmall : (Numeral.ofParts p).isOversized = false)
    (rest : List Char) : (percentage p).Fits scanToken rest := by
  obtain ⟨c, cs, hchars, -⟩ := exists_head_chars h
  have hends : EndsNumeral ('%' :: rest) := .cons rfl (by decide) (by decide)
  rw [percentage, Fits]
  refine ⟨congrArg not hsmall, c, cs ++ ['%'],
    by rw [hchars]; rfl, ?_⟩
  have hlength : p.chars.length = (cs ++ ['%']).length := by
    rw [hchars, List.length_append]
    rfl
  rw [List.append_assoc, List.singleton_append, scanToken_chars h hends hchars]
  simp only [scanNumeric, h.scan_chars hends, List.drop_left, List.head?_cons, if_true]
  rw [if_neg (by rw [startsIdent_cons]; exact Bool.false_ne_true), hlength]

end Numerals

/-! ## Identifiers -/

/-- The characters of an identifier are read up to where it ends. -/
theorem scanIdent_append {cs rest : List Char} (h : ∀ c ∈ cs, isIdentChar c = true)
    (hrest : scanIdent rest = ([], 0)) : scanIdent (cs ++ rest) = (cs, cs.length) := by
  induction cs with
  | nil => exact hrest
  | cons c cs ih =>
    rw [List.cons_append, scanIdent_cons, if_pos (h c List.mem_cons_self),
      ih fun d hd => h d (List.mem_cons_of_mem _ hd)]
    rfl

/-- A text of letters, digits and hyphens that starts as an identifier does. -/
structure IsIdentifier (cs : List Char) : Prop where
  starts : startsIdent cs = true
  chars : ∀ c ∈ cs, isIdentChar c = true

/-- A text without a backslash starts as an identifier does if it starts with a letter, or with a
hyphen before a letter or another hyphen. -/
theorem startsIdent_of_not_mem {c : Char} {cs : List Char} (h : '\\' ∉ c :: cs) :
    startsIdent (c :: cs) =
      if c = '-' then cs.head?.any fun d => isIdentStart d || d == '-' else isIdentStart c := by
  obtain ⟨hc, hcs⟩ := not_or.mp (mt List.mem_cons.mpr h)
  have hescape : startsEscape cs = false := by
    cases cs with
    | nil => rfl
    | cons d cs => exact startsEscape_of_ne (fun hd => hcs (hd ▸ List.mem_cons_self)) cs
  rw [startsIdent_cons, hescape, Bool.or_false, if_neg (Ne.symm hc)]

/-- No character of an identifier is a backslash. -/
theorem not_mem_of_isIdentChar {cs : List Char} (h : ∀ c ∈ cs, isIdentChar c = true) :
    '\\' ∉ cs :=
  fun hmem => absurd (h '\\' hmem) (by decide)

namespace IsIdentifier

variable {cs rest : List Char}

theorem ne_nil (h : IsIdentifier cs) : cs ≠ [] := by
  rintro rfl
  exact Bool.false_ne_true h.starts

/-- An identifier starts where it is written, whatever follows it. -/
theorem startsIdent_append (h : IsIdentifier cs) (rest : List Char) :
    startsIdent (cs ++ rest) = true := by
  obtain ⟨hstarts, hchars⟩ := h
  cases cs with
  | nil => exact absurd hstarts Bool.false_ne_true
  | cons a as =>
    have hslash := not_mem_of_isIdentChar hchars
    rw [startsIdent_of_not_mem hslash] at hstarts
    rw [List.cons_append, startsIdent_cons]
    split at hstarts
    next hminus =>
      cases as with
      | nil => exact absurd hstarts Bool.false_ne_true
      | cons b as =>
        rw [if_pos hminus]
        exact Bool.or_eq_true_iff.mpr (Or.inl hstarts)
    next hminus =>
      rw [if_neg hminus, if_neg (List.ne_of_not_mem_cons hslash).symm]
      exact hstarts

/-- Where an identifier is written, an identifier or a function is read. -/
theorem scanToken {a : Char} {as : List Char} (h : IsIdentifier (a :: as))
    (hclose : rest.head? ≠ some '>') :
    scanToken a (as ++ rest) = scanIdentLike (a :: as ++ rest) := by
  refine scanToken_of_startsIdent (h.startsIdent_append rest) ?_
  rintro ⟨rfl, htake⟩
  match as with
  | [] => exact absurd h.starts Bool.false_ne_true
  | [b] =>
    refine hclose ?_
    cases rest with
    | nil => exact absurd htake (by simp)
    | cons d rest => simpa using (List.cons.inj htake).2
  | b :: d :: as =>
    obtain rfl : d = '>' := by simpa using (List.cons.inj htake).2
    exact absurd (h.chars '>' (by simp)) (by decide)

/-- No identifier starts with a digit. -/
theorem isDigit_eq_false {c : Char} (h : IsIdentifier (c :: cs)) : isDigit c = false := by
  have hstarts := h.starts
  rw [startsIdent_of_not_mem (not_mem_of_isIdentChar h.chars)] at hstarts
  split at hstarts
  next hminus => exact hminus ▸ rfl
  next => exact (not_isDigit_of_isIdentStart hstarts).1

end IsIdentifier

/-- A text of letters, digits and hyphens that starts with a letter. -/
structure IsName (cs : List Char) : Prop where
  head : cs.head?.any isIdentStart = true
  chars : ∀ c ∈ cs, isIdentChar c = true

instance (cs : List Char) : Decidable (IsName cs) :=
  decidable_of_iff (cs.head?.any isIdentStart = true ∧ cs.all isIdentChar = true)
    ⟨fun h => ⟨h.1, List.all_eq_true.mp h.2⟩, fun h => ⟨h.head, List.all_eq_true.mpr h.chars⟩⟩

namespace IsName

variable {cs : List Char}

theorem exists_cons (h : IsName cs) : ∃ a as, cs = a :: as ∧ isIdentStart a = true := by
  cases cs with
  | nil => exact absurd h.head (by simp)
  | cons a as => exact ⟨a, as, rfl, h.head⟩

theorem startsIdent (h : IsName cs) (rest : List Char) : startsIdent (cs ++ rest) = true := by
  obtain ⟨a, as, rfl, ha⟩ := h.exists_cons
  rw [List.cons_append, startsIdent_cons, if_neg, if_neg, ha]
  · rintro rfl
    exact absurd ha (by decide)
  · rintro rfl
    exact absurd ha (by decide)

theorem isIdentifier (h : IsName cs) : IsIdentifier cs where
  starts := List.append_nil cs ▸ h.startsIdent []
  chars := h.chars

/-- Where a name is written, an identifier or a function is read. -/
theorem scanToken {a : Char} {as : List Char} (h : IsName (a :: as)) (rest : List Char) :
    scanToken a (as ++ rest) = scanIdentLike (a :: as ++ rest) := by
  refine scanToken_of_startsIdent (h.startsIdent rest) ?_
  rintro ⟨rfl, -⟩
  exact Bool.false_ne_true h.head

end IsName

section Names

variable {p : NumeralParts} {name : List Char} {rest : List Char}

/-- A number with a unit. -/
def dimension (p : NumeralParts) (unit : List Char) : Written :=
  token (p.chars ++ unit) (.dimension (.ofParts p) (String.ofList unit))

theorem fits_dimension (h : p.IsPlain) (hsmall : (Numeral.ofParts p).isOversized = false)
    (hname : IsName name) (hends : EndsNumeral (name ++ rest)) (hrest : StopsWord rest) :
    (dimension p name).Fits Styling.scanToken rest := by
  obtain ⟨c, cs, hchars, -⟩ := exists_head_chars h
  rw [dimension, Fits]
  refine ⟨congrArg not hsmall, c, cs ++ name,
    by rw [hchars]; rfl, ?_⟩
  have hlength : p.chars.length + name.length - 1 = (cs ++ name).length := by
    rw [hchars, List.length_append, List.length_cons]
    omega
  rw [List.append_assoc, scanToken_chars h hends hchars]
  simp only [scanNumeric, h.scan_chars hends, List.drop_left, hname.startsIdent, if_true]
  rw [scanIdent_append hname.chars hrest.scanIdent, hlength]

/-- An identifier. -/
def ident (name : List Char) : Written :=
  token name (.ident (String.ofList name))

/-- An identifier is cut off where it stops. -/
theorem fits_identifier (h : IsIdentifier name) (hrest : StopsIdent rest) :
    (ident name).Fits Styling.scanToken rest := by
  obtain ⟨a, as, rfl⟩ := List.exists_cons_of_ne_nil h.ne_nil
  rw [ident, Fits]
  refine ⟨rfl, a, as, rfl, ?_⟩
  rw [h.scanToken hrest.close]
  simp only [scanIdentLike, scanIdent_append h.chars hrest.scan, List.drop_left]
  rw [if_neg hrest.call]
  rfl

theorem fits_ident (hname : IsName name) (hrest : StopsWord rest) :
    (ident name).Fits Styling.scanToken rest :=
  fits_identifier hname.isIdentifier hrest.stopsIdent

/-- A parenthesis that closes a call. -/
theorem scanToken_closing (rest : List Char) :
    Styling.scanToken ')' rest = .single (.closing .round) := by
  have hnumber : startsNumber (')' :: rest) = false := rfl
  have hident : startsIdent (')' :: rest) = false := by
    rw [startsIdent_cons]
    rfl
  simp [Styling.scanToken, hnumber, hident, isSpace]

theorem fits_call (hname : IsName name) {ws : List Written}
    (hinside : ListFits Styling.scanToken (')' :: rest) ws) :
    (call name ws).Fits Styling.scanToken rest := by
  obtain ⟨a, as, rfl, -⟩ := hname.exists_cons
  rw [Fits]
  refine ⟨⟨a, as, rfl, ?_⟩, hinside, scanToken_closing rest⟩
  have hopening : scanIdent ('(' :: (listChars ws ++ ')' :: rest)) = ([], 0) := by
    rw [scanIdent_cons]
    exact if_neg (by decide)
  rw [hname.scanToken]
  simp only [scanIdentLike, scanIdent_append hname.chars hopening, List.drop_left, List.head?_cons,
    if_true]

/-- A hash sign and a name, which may start with a digit. -/
def hash (cs : List Char) : Written :=
  token ('#' :: cs) (.hash (String.ofList cs) (cs.head?.any isIdentStart))

theorem fits_hash {cs : List Char} (hne : cs ≠ []) (hcs : ∀ c ∈ cs, isIdentChar c = true ∧ c ≠ '-')
    (hrest : StopsWord rest) : (hash cs).Fits Styling.scanToken rest := by
  obtain ⟨a, as, rfl⟩ := List.exists_cons_of_ne_nil hne
  obtain ⟨ha, hminus⟩ := hcs a List.mem_cons_self
  have hslash : a ≠ '\\' := by
    rintro rfl
    exact absurd ha (by decide)
  have hscan : ∀ cs, Styling.scanToken '#' cs = scanHash cs := fun cs => by simp [Styling.scanToken]
  rw [hash, Fits]
  refine ⟨rfl, '#', a :: as, rfl, ?_⟩
  rw [hscan, scanHash, if_pos (by rw [List.cons_append, List.head?_cons, Option.any_some, ha]; rfl),
    scanIdent_append (fun c hc => (hcs c hc).1) hrest.scanIdent, List.cons_append, startsIdent_cons,
    if_neg hminus, if_neg hslash]
  rfl

end Names

/-! ## Separators -/

/-- A space. -/
def space : Written :=
  token [' '] (.whitespace " ")

theorem fits_space {rest : List Char} (hrest : rest.head?.any isSpace = false) :
    space.Fits scanToken rest := by
  have hrun : rest.takeWhile isSpace = [] := by
    have h := NumeralParts.takeWhile_isEmpty isSpace rest
    rw [hrest] at h
    exact List.isEmpty_iff.mp h
  rw [space, Fits]
  refine ⟨rfl, ' ', [], rfl, ?_⟩
  rw [List.nil_append, scanToken_of_isSpace (by decide), hrun]

/-- A comma. -/
def comma : Written :=
  token [','] .comma

theorem fits_comma (rest : List Char) : comma.Fits scanToken rest := by
  have hnumber : startsNumber (',' :: rest) = false := rfl
  have hident : startsIdent (',' :: rest) = false := by
    rw [startsIdent_cons]
    rfl
  rw [comma, Fits]
  refine ⟨rfl, ',', [], rfl, ?_⟩
  simp [scanToken, hnumber, hident, isSpace]
  rfl

/-! ## The scanner of colors -/

/-- A character that starts neither an address nor a range of code points. -/
def startsPlain (c : Char) : Bool :=
  c != 'u' && c != 'U' && c != '\\'

/-- Only the two letters have this lowercase form. -/
theorem eq_of_toLower {c : Char} (h : c.toLower = 'u') : c = 'u' ∨ c = 'U' := by
  unfold Char.toLower at h
  split at h
  next =>
    have hval : c.val + 32 = 'U'.val + 32 := congrArg Char.val h
    exact Or.inr (Char.ext ((UInt32.add_left_inj 32).mp hval))
  next => exact Or.inl h

/-- A name that starts with no backslash starts with a character of names. -/
theorem isIdentChar_of_startsIdent {c : Char} {cs : List Char} (h : startsIdent (c :: cs) = true)
    (hslash : c ≠ '\\') : isIdentChar c = true := by
  rw [startsIdent_cons] at h
  by_cases hminus : c = '-'
  · rw [hminus]
    rfl
  · rw [if_neg hminus, if_neg hslash] at h
    rw [isIdentChar, h]
    rfl

/-- Where neither an address nor a range of code points starts, the scanners agree. -/
theorem scanColorToken_of_startsPlain {c : Char} (h : startsPlain c = true) (cs : List Char) :
    scanColorToken c cs = scanToken c cs := by
  simp only [startsPlain, Bool.and_eq_true, bne_iff_ne] at h
  obtain ⟨⟨hu, hU⟩, hslash⟩ := h
  have hrange : startsCodeRange c cs = false := by
    unfold startsCodeRange
    split
    · simp [hu, hU]
    · rfl
  have haddress : addressSize? (c :: cs) = none := by
    simp only [addressSize?]
    split
    next inside hinside =>
      rw [if_neg]
      rw [Bool.and_eq_true]
      rintro ⟨hstart, hurl⟩
      -- the name starts with the character itself, which is no `u`
      rw [scanIdent_cons, if_pos (isIdentChar_of_startsIdent hstart hslash), beq_iff_eq,
        Text.lowercaseAscii, String.toList_ofList] at hurl
      have hhead := congrArg (fun s : String => s.toList.head?) hurl
      rw [String.toList_ofList, List.map_cons, List.head?_cons] at hhead
      exact (eq_of_toLower (Option.some.inj hhead)).elim hu hU
    next => rfl
  simp only [scanColorToken, hrange, haddress, Bool.false_eq_true, if_false]

/-- Words that start with other characters are cut off by the scanner of colors as well. -/
theorem listFits_scanColorToken {ws : List Written} {rest : List Char}
    (hwords : ∀ w ∈ ws, ∃ c cs kind, w = token (c :: cs) kind ∧ startsPlain c = true)
    (h : ListFits scanToken rest ws) : ListFits scanColorToken rest ws := by
  induction ws with
  | nil => trivial
  | cons w ws ih =>
    obtain ⟨c, cs, kind, rfl, hc⟩ := hwords w List.mem_cons_self
    rw [ListFits, Fits] at h ⊢
    obtain ⟨⟨hword, a, as, hchars, hscan⟩, hrest⟩ := h
    obtain ⟨rfl, rfl⟩ := List.cons.inj hchars
    exact ⟨⟨hword, _, _, rfl, by rw [scanColorToken_of_startsPlain hc, hscan]⟩,
      ih (fun v hv => hwords v (List.mem_cons_of_mem _ hv)) hrest⟩

end Written

end Styling
