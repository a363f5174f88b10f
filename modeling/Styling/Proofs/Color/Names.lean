import Styling.Proofs.Color.Brackets
import Styling.Proofs.Syntax.Slicing

/-!
# Names of colors

An identifier is read anew when it should be a color.  Nothing in its text makes the scanner of
colors see anything else, so it is a color if and only if its name is that of one.

Names of colors are compared by their ASCII letters only, and keywords by all their letters.  This
makes no difference for a word of ASCII letters, so a keyword that is no color is none in whatever
case it is written.

* `Component.StandsIn` says that a component stands somewhere in what a text is read as.
* `Source.exists_text_of_ident` is about the text of an identifier.
* `Grammar.paint_ident` reads an identifier as a color.
* `Paint.ofName?_of_lowercaseAscii` compares the two ways of comparing words.
-/

namespace Styling

/-! ## Components somewhere in a text -/

/-- The component stands at some level of the tree. -/
def Component.StandsIn (top : List Component) (c : Component) : Prop :=
  ∃ level, Siblings top level ∧ c ∈ level

/-- The tokens of a component at some level follow each other in the text. -/
theorem Component.StandsIn.tokens_infix {top : List Component} {c : Component}
    (h : c.StandsIn top) : c.tokens <:+: listTokens top := by
  obtain ⟨level, hlevel, hc⟩ := h
  refine (tokens_infix_listTokens hc).trans ?_
  clear hc
  induction hlevel with
  | top => exact List.infix_rfl
  | @inside level d above mem ih =>
    exact (isInfix_listTokens_children d).trans ((tokens_infix_listTokens mem).trans ih)

/-! ## The text of an identifier -/

/-- An identifier has no problem, and the characters that spell it are its text. -/
theorem scanToken_of_ident {c : Char} {cs : List Char} {name : String}
    (h : (scanToken c cs).kind = .ident name) :
    scanToken c cs = .plain (.ident name) ((scanIdent (c :: cs)).2 - 1) := by
  obtain ⟨hstarts, hclose⟩ := startsIdent_of_isIdentLike (by rw [h]; rfl)
  rw [scanToken_of_startsIdent hstarts hclose] at h ⊢
  simp only [scanIdentLike] at h ⊢
  split at h
  next => exact absurd h (by simp [Scanned.plain])
  next hopen => rw [if_neg hopen, ← show _ = TokenKind.ident name from h]; rfl

/-- The text of an identifier is read as the identifier. -/
theorem Source.exists_text_of_ident {s : Source} {name : String} {span : Span}
    (h : ⟨.ident name, span⟩ ∈ s.keptTokens) :
    ∃ c cs, s.sliceChars span.start span.stop = c :: cs ∧
      scanToken c cs = .plain (.ident name) cs.length := by
  obtain ⟨l, hl, htoken⟩ := List.mem_map.mp (List.mem_filter.mp h).1
  obtain ⟨before, c, rest, hchars, rfl⟩ := exists_scan_of_mem_lexemesFrom hl
  obtain ⟨hkind, rfl⟩ := Token.mk.inj htoken
  have hscan := scanToken_of_ident hkind
  have hextra := isBounded_scanToken c rest
  refine ⟨c, rest.take (scanToken c rest).extra, ?_, ?_⟩
  · rw [sliceChars, hchars, Nat.zero_add, List.drop_left, Nat.add_assoc, Nat.add_sub_cancel_left,
      List.take_succ_cons]
  · have hlocal := isLocal_scanToken c (rest.take (scanToken c rest).extra)
      (rest.drop (scanToken c rest).extra)
    rw [List.take_append_drop, List.length_take, Nat.min_eq_left hextra] at hlocal
    rw [List.length_take, Nat.min_eq_left hextra, ← hlocal le_rfl (by rw [hscan]; rfl)]
    conv_lhs => rw [hscan]
    rw [hscan]
    rfl

/-- The scanner of colors finds an identifier where nothing else stands. -/
theorem scanColorToken_of_ident {c : Char} {cs : List Char} {name : String}
    (h : scanToken c cs = .plain (.ident name) cs.length) :
    scanColorToken c cs = .plain (.ident name) cs.length := by
  have hkind : (scanToken c cs).kind = .ident name := by rw [h]; rfl
  have hlike : (scanToken c cs).kind.isIdentLike = true := by rw [hkind]; rfl
  have hstarts := (startsIdent_of_isIdentLike hlike).1
  have hsize : (scanIdent (c :: cs)).2 = cs.length + 1 := by
    have hextra := congrArg Scanned.extra ((scanToken_of_ident hkind).symm.trans h)
    have hpos := scanIdent_pos hstarts
    simp only [Scanned.plain] at hextra
    omega
  -- The name goes on to the end of the text, and a range of code points has a plus sign.
  have hrange : startsCodeRange c cs = false := by
    rw [← Bool.not_eq_true]
    intro hrange
    unfold startsCodeRange at hrange
    split at hrange
    next d ds =>
      have hc : isIdentChar c = true := by
        rcases Bool.or_eq_true_iff.mp (Bool.and_eq_true_iff.mp hrange).1 with hc | hc <;>
          rw [beq_iff_eq.mp hc] <;> rfl
      rw [scanIdent_cons, if_pos hc, scanIdent_cons, if_neg (by decide)] at hsize
      simp [startsEscape] at hsize
    next => exact Bool.false_ne_true hrange
  have haddress : addressSize? (c :: cs) = none := by
    have hrest : (c :: cs).drop (scanIdent (c :: cs)).2 = [] := by
      rw [hsize]
      exact List.drop_eq_nil_of_le le_rfl
    simp only [addressSize?, hrest]
  simp only [scanColorToken, hrange, haddress, Bool.false_eq_true, if_false, h]

/-! ## Identifiers as colors -/

/-- A text that is an identifier is a color if its name is that of one. -/
theorem Paint.ofText_of_ident {text : String} {c : Char} {cs : List Char} {name : String}
    (htext : (Source.ofString text).chars = c :: cs)
    (h : scanToken c cs = .plain (.ident name) cs.length) :
    Paint.ofText text = .ok (ofName? (Text.lowercaseAscii name)) := by
  have hlexemes : (Source.ofString text).lexemesBy scanColorToken =
      [⟨⟨.ident name, ⟨0, 0 + cs.length + 1⟩⟩, none⟩] := by
    rw [Source.lexemesBy, htext, lexemesFrom_cons, scanColorToken_of_ident h]
    simp [Scanned.plain]
  simp only [ofText, Source.componentsBy, Source.lexBy, hlexemes]
  rfl

/-- **An identifier in a text is a color if its name is that of one.** -/
theorem Grammar.paint_ident {text : String} {parsed : Parsed (List Component)}
    (h : (Source.ofString text).components = .ok parsed) {name : String} {span : Span}
    (hc : (Component.token ⟨.ident name, span⟩).StandsIn parsed.value) :
    paint (.ofString text) (.token ⟨.ident name, span⟩) =
      match Paint.ofName? (Text.lowercaseAscii name) with
      | some p => .ok p
      | none => Leaf.unexpected (.ofString text) (.token ⟨.ident name, span⟩) := by
  have hkept : ⟨.ident name, span⟩ ∈ (Source.ofString text).keptTokens :=
    Source.listTokens_of_components h ▸ hc.tokens_infix.mem (List.mem_singleton_self _)
  obtain ⟨c, cs, hslice, hscan⟩ := Source.exists_text_of_ident hkept
  have htext : (Source.ofString ((Source.ofString text).textOf
      (.token ⟨.ident name, span⟩))).chars = c :: cs := by
    rw [Source.textOf, Source.ofString_slice]
    exact hslice
  simp only [paint, Leaf.noNestedVar, Component.containsVar, mayBePaint,
    Paint.ofText_of_ident htext hscan]
  cases Paint.ofName? (Text.lowercaseAscii name) <;> rfl

/-! ## Keywords that are no colors -/

namespace Text

/-- An ASCII letter has the same lowercase form in both ways of comparing words. -/
theorem lowercaseFrom_of_ascii {cs : List Char} (h : ∀ c ∈ cs, c.toNat < 0x80)
    (before : List Char) : lowercaseFrom before cs = cs.map Char.toLower := by
  induction cs generalizing before with
  | nil => rfl
  | cons c cs ih =>
    obtain ⟨hc, hcs⟩ := List.forall_mem_cons.mp h
    rw [lowercaseFrom, ih hcs, if_neg (by omega), lowercaseChar, if_pos hc]
    rfl

/-- Only ASCII characters have an ASCII character as their form. -/
theorem lt_of_toLower_lt {c : Char} (h : c.toLower.toNat < 0x80) : c.toNat < 0x80 := by
  by_cases hupper : c.isUpper = true
  · simp only [Char.isUpper, decide_eq_true_eq] at hupper
    exact Nat.lt_of_le_of_lt (UInt32.le_iff_toNat_le.mp hupper.2) (by decide)
  · rwa [Char.toLower_eq_of_not_isUpper hupper] at h

/-- Where the form is ASCII, it is the same in both ways of comparing words. -/
theorem lowercase_of_lowercaseAscii {s : String}
    (h : ∀ c ∈ (lowercaseAscii s).toList, c.toNat < 0x80) : lowercase s = lowercaseAscii s := by
  rw [lowercaseAscii, String.toList_ofList] at h
  rw [lowercase, lowercaseAscii, lowercaseFrom_of_ascii]
  exact fun c hc => lt_of_toLower_lt (h c.toLower (List.mem_map_of_mem hc))

end Text

namespace Paint

/-- The names of colors are ASCII. -/
theorem lt_of_ofName? {name : String} {p : Paint} (h : ofName? name = some p) :
    ∀ c ∈ name.toList, c.toNat < 0x80 := by
  have hall : (("currentcolor" :: "transparent" :: colorNames.map (·.1)).all
      fun word => word.toList.all (·.toNat < 0x80)) = true := by decide +kernel
  have hmem : name ∈ "currentcolor" :: "transparent" :: colorNames.map (·.1) := by
    simp only [ofName?, Color.ofName?] at h
    split at h
    next hcurrent => exact beq_iff_eq.mp hcurrent ▸ List.mem_cons_self
    next =>
      refine List.mem_cons_of_mem _ ?_
      split at h
      next htransparent => exact beq_iff_eq.mp htransparent ▸ List.mem_cons_self
      next =>
        obtain ⟨color, hcolor, -⟩ := Option.map_eq_some_iff.mp h
        obtain ⟨n, hlookup, -⟩ := Option.map_eq_some_iff.mp hcolor
        obtain ⟨before, after, hnames, -⟩ := List.lookup_eq_some_iff.mp hlookup
        rw [hnames]
        simp
  intro c hc
  simpa using List.all_eq_true.mp (List.all_eq_true.mp hall name hmem) c hc

/-- A name of a color is one when all its letters are compared. -/
theorem ofName?_of_lowercaseAscii {name : String} {p : Paint}
    (h : ofName? (Text.lowercaseAscii name) = some p) : ofName? (Text.lowercase name) = some p := by
  rwa [Text.lowercase_of_lowercaseAscii (lt_of_ofName? h)]

end Paint

end Styling
