import Mathlib
import Styling.Proofs.Syntax.Words

/-!
# Phrases that are printed

The words of a printed value stand between spaces, or between commas with a space after them.  Two
phrases with such a separator between them are a phrase again, and so is a call with a phrase inside
it; a value as a whole is a phrase.

* `Written.IsPhrase` says that the words are cut off as they were printed before any separator.
* `Written.IsPhrase.spaced` and `Written.IsPhrase.listed` join two phrases.
* `Written.IsWord` is a phrase of one word that readers do not pass over.
-/

namespace Styling

/-- Characters of identifiers are left alone by normalization. -/
theorem isNormal_of_isIdentChar {c : Char} (h : isIdentChar c = true) : Source.IsNormal c := by
  have hspecial : ∀ n ∈ [0x0D, 0x0C, 0], isIdentChar (Char.ofNat n) = false := by decide
  refine ⟨?_, ?_, ?_⟩ <;> intro hc <;>
    refine Bool.false_ne_true ((hspecial c.toNat ?_).symm.trans ?_)
  all_goals first | (rw [hc]; decide) | (rw [Char.ofNat_toNat]; exact h)

theorem isIdentChar_of_isDigit {c : Char} (h : isDigit c = true) : isIdentChar c = true := by
  simp [isIdentChar, h]

theorem isNormalText_append {as bs : List Char} (ha : IsNormalText as) (hb : IsNormalText bs) :
    IsNormalText (as ++ bs) :=
  fun c hc => (List.mem_append.mp hc).elim (ha c) (hb c)

/-- A number is written with characters that normalization leaves alone. -/
theorem NumeralParts.IsPlain.isNormalText {p : NumeralParts} (h : p.IsPlain) :
    IsNormalText p.chars := by
  have hdigits : ∀ {ds : List Char}, (∀ c ∈ ds, isDigit c = true) → IsNormalText ds :=
    fun hds c hc => isNormal_of_isIdentChar (isIdentChar_of_isDigit (hds c hc))
  have hmark : ∀ c : Char, c = '-' ∨ c = '+' ∨ c = '.' ∨ c = 'e' → IsNormalText [c] := by
    intro c hc d hd
    obtain rfl := List.mem_singleton.mp hd
    rcases hc with rfl | rfl | rfl | rfl <;> exact ⟨by decide, by decide, by decide⟩
  have hnil : IsNormalText [] := fun c hc => absurd hc List.not_mem_nil
  refine isNormalText_append (isNormalText_append (isNormalText_append ?_ (hdigits h.whole)) ?_) ?_
  · rcases h.sign with hs | hs <;> rw [hs]
    · exact hnil
    · exact hmark '-' (by simp)
  · rcases h.fraction with hf | ⟨ds, hf, -, hds⟩ <;> rw [hf]
    · exact hnil
    · exact isNormalText_append (hmark '.' (by simp)) (hdigits hds)
  · rcases h.exponent with he | ⟨sign, ds, he, hsign, -, hds⟩ <;> rw [he]
    · exact hnil
    · refine isNormalText_append (hmark 'e' (by simp)) (isNormalText_append (hmark sign ?_)
        (hdigits hds))
      rcases hsign with rfl | rfl <;> simp

namespace Written

/-! ## Phrases -/

/-- The words are cut off as they were printed, before any separator. -/
structure IsPhrase (ws : List Written) : Prop where
  fits : ∀ {rest}, StopsWord rest → ListFits scanToken rest ws
  head : ∃ c cs, listChars ws = c :: cs ∧ isSpace c = false
  normal : IsNormalText (listChars ws)

namespace IsPhrase

variable {ws vs : List Written}

theorem head_append (h : IsPhrase ws) (rest : List Char) :
    (listChars ws ++ rest).head?.any isSpace = false := by
  obtain ⟨c, cs, hchars, hc⟩ := h.head
  rw [hchars]
  exact hc

theorem isNormalText_space : IsNormalText [' '] := by
  intro c hc
  obtain rfl := List.mem_singleton.mp hc
  exact ⟨by decide, by decide, by decide⟩

theorem isNormalText_comma : IsNormalText [','] := by
  intro c hc
  obtain rfl := List.mem_singleton.mp hc
  exact ⟨by decide, by decide, by decide⟩

/-- Two phrases with a space between them. -/
theorem spaced (hw : IsPhrase ws) (hv : IsPhrase vs) : IsPhrase (ws ++ space :: vs) := by
  refine ⟨fun hrest => ?_, ?_, ?_⟩
  · refine listFits_append.mpr ⟨hw.fits (.space _), ?_, hv.fits hrest⟩
    exact fits_space (hv.head_append _)
  · obtain ⟨c, cs, hchars, hc⟩ := hw.head
    exact ⟨c, _, by rw [listChars_append, hchars]; rfl, hc⟩
  · rw [listChars_append]
    exact isNormalText_append hw.normal (isNormalText_append isNormalText_space hv.normal)

/-- Two phrases with a comma and a space between them. -/
theorem listed (hw : IsPhrase ws) (hv : IsPhrase vs) : IsPhrase (ws ++ comma :: space :: vs) := by
  refine ⟨fun hrest => ?_, ?_, ?_⟩
  · refine listFits_append.mpr ⟨hw.fits (.comma _), fits_comma _, ?_, hv.fits hrest⟩
    exact fits_space (hv.head_append _)
  · obtain ⟨c, cs, hchars, hc⟩ := hw.head
    exact ⟨c, _, by rw [listChars_append, hchars]; rfl, hc⟩
  · rw [listChars_append]
    exact isNormalText_append hw.normal
      (isNormalText_append isNormalText_comma (isNormalText_append isNormalText_space hv.normal))

/-- The text of a phrase is a source as it stands. -/
theorem ofString_eq (h : IsPhrase ws) :
    Source.ofString (String.ofList (listChars ws)) = ⟨listChars ws⟩ := by
  rw [Source.ofString, String.toList_ofList, Source.normalize_eq_self h.normal]

/-- A phrase is read as the tokens of its words. -/
theorem lex (h : IsPhrase ws) : (Source.ofString (String.ofList (listChars ws))).lex =
    .ok ⟨Component.listTokens (listComponents 0 ws), []⟩ := by
  rw [h.ofString_eq]
  exact lexBy (h.fits .nil)

end IsPhrase

/-- The texts of phrases with a separator between them. -/
theorem listChars_intercalate (sep : List Written) (wss : List (List Written)) :
    listChars (sep.intercalate wss) = (listChars sep).intercalate (wss.map listChars) := by
  induction wss with
  | nil => rfl
  | cons ws wss ih =>
    cases wss with
    | nil => rw [List.map_singleton, List.intercalate_singleton, List.intercalate_singleton]
    | cons vs wss =>
      rw [List.intercalate_cons_cons, listChars_append, listChars_append, ih]
      exact List.intercalate_cons_cons.symm

/-- Texts are joined as the phrases they are the texts of. -/
theorem intercalate_map_ofList (sep : List Written) (wss : List (List Written)) :
    String.intercalate (String.ofList (listChars sep))
        (wss.map fun ws => String.ofList (listChars ws)) =
      String.ofList (listChars (sep.intercalate wss)) := by
  refine String.toList_inj.mp ?_
  rw [String.toList_intercalate, String.toList_ofList, String.toList_ofList, List.map_map,
    listChars_intercalate]
  congr 1
  exact List.map_congr_left fun ws _ => String.toList_ofList

theorem intercalate_comma (wss : List (List Written)) :
    String.intercalate ", " (wss.map fun ws => String.ofList (listChars ws)) =
      String.ofList (listChars ([comma, space].intercalate wss)) := by
  have h := intercalate_map_ofList [comma, space] wss
  rwa [show String.ofList (listChars [comma, space]) = ", " by decide] at h

theorem intercalate_space (ws : List Written) :
    String.intercalate " " (ws.map fun w => String.ofList w.chars) =
      String.ofList (listChars ([space].intercalate (ws.map ([·])))) := by
  have h := intercalate_map_ofList [space] (ws.map ([·]))
  rw [show String.ofList (listChars [space]) = " " by decide, List.map_map] at h
  rw [← h]
  congr 1
  exact List.map_congr_left fun w _ => congrArg String.ofList (List.append_nil _).symm

/-- Phrases that are joined two by two are joined as a list. -/
theorem IsPhrase.intercalate {sep : List Written}
    (hsep : ∀ {ws vs}, IsPhrase ws → IsPhrase vs → IsPhrase (ws ++ sep ++ vs))
    {wss : List (List Written)} (hne : wss ≠ []) (h : ∀ ws ∈ wss, IsPhrase ws) :
    IsPhrase (sep.intercalate wss) := by
  induction wss with
  | nil => exact absurd rfl hne
  | cons ws wss ih =>
    cases wss with
    | nil =>
      rw [List.intercalate_singleton]
      exact h ws List.mem_cons_self
    | cons vs wss =>
      rw [List.intercalate_cons_cons]
      exact hsep (h ws List.mem_cons_self)
        (ih (by simp) fun us hus => h us (List.mem_cons_of_mem _ hus))

/-- Phrases with commas and spaces between them. -/
theorem isPhrase_listed {wss : List (List Written)} (hne : wss ≠ []) (h : ∀ ws ∈ wss, IsPhrase ws) :
    IsPhrase ([comma, space].intercalate wss) :=
  .intercalate (fun hw hv => by simpa using hw.listed hv) hne h

/-- Phrases with spaces between them. -/
theorem isPhrase_spaced {wss : List (List Written)} (hne : wss ≠ []) (h : ∀ ws ∈ wss, IsPhrase ws) :
    IsPhrase ([space].intercalate wss) :=
  .intercalate (fun hw hv => by simpa using hw.spaced hv) hne h

/-! ## Words -/

/-- A reader passes over the part. -/
def isBlank : Written → Bool
  | token _ kind => kind.isWhitespace
  | call _ _ => false

theorem isWhitespace_component (w : Written) (start : Nat) :
    (w.component start).isWhitespace = w.isBlank := by
  cases w <;> rfl

/-- A phrase of one word that readers do not pass over. -/
structure IsWord (w : Written) : Prop where
  phrase : IsPhrase [w]
  isBlank : w.isBlank = false
  isVar : ∀ start, (w.component start).isVar = false

theorem listChars_singleton (w : Written) : listChars [w] = w.chars :=
  List.append_nil _

theorem IsWord.of_token {cs : List Char} {kind : TokenKind} (hkind : kind.isWhitespace = false)
    (hfits : ∀ {rest}, StopsWord rest → (token cs kind).Fits scanToken rest)
    (hhead : ∃ a as, cs = a :: as ∧ isSpace a = false) (hnormal : IsNormalText cs) :
    IsWord (token cs kind) := by
  have hchars := listChars_singleton (token cs kind)
  refine ⟨⟨fun hrest => ⟨hfits hrest, trivial⟩, ?_, ?_⟩, hkind, fun _ => rfl⟩
  · rw [hchars]
    exact hhead
  · rw [hchars]
    exact hnormal

section

variable {p : NumeralParts}

theorem isSpace_of_isIdentChar {c : Char} (h : isIdentChar c = true) : isSpace c = false := by
  by_contra hspace
  simp only [isSpace, Bool.or_eq_true, beq_iff_eq, Bool.not_eq_false] at hspace
  rcases hspace with (rfl | rfl) | rfl <;> exact absurd h (by decide)

/-- A number starts with no space. -/
theorem exists_head_number (h : p.IsPlain) (as : List Char) :
    ∃ c cs, p.chars ++ as = c :: cs ∧ isSpace c = false := by
  obtain ⟨c, cs, hchars, hc⟩ := exists_head_chars h
  refine ⟨c, _, by rw [hchars]; rfl, ?_⟩
  rcases hc with rfl | hc
  · rfl
  · exact isSpace_of_isIdentChar (isIdentChar_of_isDigit hc)

theorem isWord_number (h : p.IsPlain) (hsmall : (Numeral.ofParts p).isOversized = false) :
    IsWord (number p) := by
  have hhead := exists_head_number h []
  rw [List.append_nil] at hhead
  exact .of_token rfl (fits_number h hsmall) hhead h.isNormalText

theorem isWord_percentage (h : p.IsPlain) (hsmall : (Numeral.ofParts p).isOversized = false) :
    IsWord (percentage p) := by
  refine .of_token rfl (fun _ => fits_percentage h hsmall _) (exists_head_number h _)
    (isNormalText_append h.isNormalText fun c hc => ?_)
  obtain rfl := List.mem_singleton.mp hc
  exact ⟨by decide, by decide, by decide⟩

variable {name : List Char}

theorem IsName.isNormalText (h : IsName name) : IsNormalText name :=
  fun c hc => isNormal_of_isIdentChar (h.chars c hc)

theorem IsName.exists_head (h : IsName name) (as : List Char) :
    ∃ c cs, name ++ as = c :: cs ∧ isSpace c = false := by
  obtain ⟨c, cs, rfl, -⟩ := h.exists_cons
  exact ⟨c, _, rfl, isSpace_of_isIdentChar (h.chars c List.mem_cons_self)⟩

theorem isWord_dimension (name : List Char) (h : p.IsPlain)
    (hsmall : (Numeral.ofParts p).isOversized = false) (hname : IsName name)
    (hends : ∀ rest, EndsNumeral (name ++ rest)) :
    IsWord (dimension p name) :=
  .of_token rfl (fits_dimension h hsmall hname (hends _)) (exists_head_number h _)
    (isNormalText_append h.isNormalText hname.isNormalText)

theorem isWord_ident (name : List Char) (hname : IsName name) : IsWord (ident name) := by
  have hhead := hname.exists_head []
  rw [List.append_nil] at hhead
  exact .of_token rfl (fits_ident hname) hhead hname.isNormalText

theorem isWord_hash {cs : List Char} (hne : cs ≠ [])
    (hcs : ∀ c ∈ cs, isIdentChar c = true ∧ c ≠ '-') : IsWord (hash cs) := by
  refine .of_token rfl (fits_hash hne hcs) ⟨'#', cs, rfl, rfl⟩ ?_
  have hmark : IsNormalText ['#'] := by
    intro c hc
    obtain rfl := List.mem_singleton.mp hc
    exact ⟨by decide, by decide, by decide⟩
  exact isNormalText_append hmark fun c hc => isNormal_of_isIdentChar (hcs c hc).1

/-- A call with a phrase between its parentheses is a word. -/
theorem isWord_call (name : List Char) {ws : List Written} (hname : IsName name)
    (hvar : Text.lowercase (String.ofList name) ≠ "var") (hws : IsPhrase ws) :
    IsWord (call name ws) := by
  refine ⟨⟨fun _ => ⟨fits_call hname (hws.fits (.closing _)), trivial⟩, ?_, ?_⟩, rfl, fun _ => ?_⟩
  · rw [listChars_singleton]
    exact hname.exists_head _
  · rw [listChars_singleton]
    have hmark : ∀ c : Char, c = '(' ∨ c = ')' → IsNormalText [c] := by
      intro c hc d hd
      obtain rfl := List.mem_singleton.mp hd
      rcases hc with rfl | rfl <;> exact ⟨by decide, by decide, by decide⟩
    exact isNormalText_append hname.isNormalText (isNormalText_append (hmark '(' (by simp))
      (isNormalText_append hws.normal (hmark ')' (by simp))))
  · exact beq_eq_false_iff_ne.mpr hvar

end

end Written

end Styling
