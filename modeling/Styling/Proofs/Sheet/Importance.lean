import Styling.Proofs.Property.Longhands
import Styling.Proofs.Sheet.Separation

/-!
# Important declarations

The mark `!important` at the end of a declaration is taken off its value, reported and otherwise
ignored, whatever whitespace stands before and behind it.  It is looked for as the last two
components of the value, and whitespace is a component.  So a mark with whitespace between its two
parts is none: it stays in the value, which the grammar of an ordinary property then meets, and
which the text of a custom property then has.

* `ImportantMark` is the mark with the whitespace around and inside it, and `EndsMarked` says that a
  value ends in one whose parts stand together.
* `DeclarationSyntax.ofValue` is the declaration of a name and the components behind the colon:
  `ofValue_append_mark` and `ofValue_append_apart` say what a mark adds to it.
* `Stylesheet.readBlock_marked` is about blocks, and `Stylesheet.exists_not_ignored_of_apart` is a
  declaration that a mark spoils.
-/

namespace Styling

/-! ## Whitespace at both ends -/

section

variable {α : Type} {p : α → Bool} {as bs : List α}

/-- What is dropped at the end may have stood there or not. -/
theorem dropLastWhile_append_of_pos (h : ∀ b ∈ bs, p b = true) :
    dropLastWhile p (as ++ bs) = dropLastWhile p as := by
  have hreverse : ∀ b ∈ bs.reverse, p b = true := fun b hb => h b (List.mem_reverse.mp hb)
  rw [dropLastWhile, dropLastWhile, List.reverse_append, List.dropWhile_append_of_pos hreverse]

/-- Nothing is dropped behind an entry that is kept. -/
theorem dropLastWhile_concat_of_neg {a : α} (h : p a = false) :
    dropLastWhile p (as ++ [a]) = as ++ [a] := by
  rw [dropLastWhile, List.reverse_append, List.reverse_singleton, List.singleton_append,
    List.dropWhile_cons_of_neg (by rw [h]; exact Bool.false_ne_true), List.reverse_cons,
    List.reverse_reverse]

/-- An entry that is kept ends what is dropped at the start. -/
theorem dropWhile_append_cons_of_neg {b : α} (h : p b = false) :
    (as ++ b :: bs).dropWhile p = as.dropWhile p ++ b :: bs := by
  rw [List.dropWhile_append, List.dropWhile_cons_of_neg (by rw [h]; exact Bool.false_ne_true)]
  split
  next hempty => rw [List.isEmpty_iff.mp hempty, List.nil_append]
  next => rfl

/-- What is dropped at the end is dropped as well if it is all there is. -/
theorem dropLastWhile_dropWhile_append (h : ∀ b ∈ bs, p b = true) :
    dropLastWhile p ((as ++ bs).dropWhile p) = dropLastWhile p (as.dropWhile p) := by
  rw [List.dropWhile_append]
  split
  next hempty => rw [List.dropWhile_eq_nil_iff.mpr h, List.isEmpty_iff.mp hempty]
  next => exact dropLastWhile_append_of_pos h

/-- Only entries that satisfy the test are dropped at both ends. -/
theorem exists_eq_append_dropLastWhile (p : α → Bool) (as : List α) :
    ∃ front back, as = front ++ (dropLastWhile p (as.dropWhile p) ++ back) ∧
      ∀ b ∈ back, p b = true := by
  refine ⟨as.takeWhile p, ((as.dropWhile p).reverse.takeWhile p).reverse, ?_, fun b hb => ?_⟩
  · rw [dropLastWhile, ← List.reverse_append, List.takeWhile_append_dropWhile, List.reverse_reverse,
      List.takeWhile_append_dropWhile]
  · exact List.mem_takeWhile_imp (List.mem_reverse.mp hb)

end

/-! ## The mark -/

/-- A mark of a character is a token. -/
theorem Component.exists_delim {c : Component} {mark : String}
    (h : c.isTokenOf (·.isDelim mark) = true) : ∃ span, c = .token ⟨.delim mark, span⟩ := by
  cases c with
  | token t =>
    obtain ⟨kind, span⟩ := t
    cases kind with
    | delim text => exact ⟨span, by rw [show text = mark from beq_iff_eq.mp h]⟩
    | _ => exact absurd h Bool.false_ne_true
  | group opener opened cs ending => exact absurd h Bool.false_ne_true

/-- The mark `!important` in any letter case, with the whitespace before it, between its two parts
and behind it. -/
structure ImportantMark where
  before : List Component
  bang : Span
  between : List Component
  name : String
  word : Span
  after : List Component
  spells : Text.lowercase name = "important"
  blankBefore : ∀ c ∈ before, c.isWhitespace = true
  blankBetween : ∀ c ∈ between, c.isWhitespace = true
  blankAfter : ∀ c ∈ after, c.isWhitespace = true

namespace ImportantMark

/-- The two parts and what stands between them. -/
def core (m : ImportantMark) : List Component :=
  .token ⟨.delim "!", m.bang⟩ :: (m.between ++ [.token ⟨.ident m.name, m.word⟩])

/-- The mark and the whitespace around it. -/
def components (m : ImportantMark) : List Component :=
  m.before ++ (m.core ++ m.after)

/-- Whitespace is no other token. -/
theorem isTokenOf_of_blank {cs : List Component} (h : ∀ c ∈ cs, c.isWhitespace = true)
    {p : TokenKind → Bool} (hp : ∀ content, p (.whitespace content) = false) :
    ∀ c ∈ cs, c.isTokenOf p = false := by
  intro c hc
  have hblank := h c hc
  cases c with
  | token t =>
    obtain ⟨kind, span⟩ := t
    cases kind with
    | whitespace content => exact hp content
    | _ => exact absurd hblank Bool.false_ne_true
  | group opener opened cs ending => rfl

/-- A mark has no semicolon. -/
theorem isSemicolon_of_mem (m : ImportantMark) : ∀ c ∈ m.components, c.isSemicolon = false := by
  intro c hc
  simp only [components, core, List.mem_append, List.mem_cons, List.not_mem_nil, or_false] at hc
  rcases hc with hc | (rfl | hc | rfl) | hc
  · exact isTokenOf_of_blank m.blankBefore (fun _ => rfl) c hc
  · rfl
  · exact isTokenOf_of_blank m.blankBetween (fun _ => rfl) c hc
  · rfl
  · exact isTokenOf_of_blank m.blankAfter (fun _ => rfl) c hc

end ImportantMark

/-- The value ends in a mark whose two parts stand together. -/
def EndsMarked (value : List Component) : Prop :=
  ∃ m : ImportantMark, m.between = [] ∧ m.components <:+ value

/-- A mark has two parts. -/
theorem not_endsMarked_singleton (c : Component) : ¬ EndsMarked [c] := by
  rintro ⟨m, -, hsuffix⟩
  have hlength := hsuffix.length_le
  simp only [ImportantMark.components, ImportantMark.core, List.length_append, List.length_cons,
    List.length_nil] at hlength
  omega

namespace DeclarationSyntax

open ImportantMark (isTokenOf_of_blank)

/-- The declaration of a name and what stands behind the colon. -/
def ofValue (name : String) (start : Nat) (value : List Component) : DeclarationSyntax :=
  let kept := splitImportant
    (dropLastWhile Component.isWhitespace (value.dropWhile Component.isWhitespace))
  ⟨name, start, kept.1, kept.2⟩

section Reading

variable {source : Source} {name : String} {span colon : Span} {lead front value : List Component}

/-- A name and a colon, with whitespace around the name, start a declaration. -/
theorem ofPart_eq_ofValue (hlead : ∀ c ∈ lead, c.isWhitespace = true)
    (hfront : ∀ c ∈ front, c.isWhitespace = true) :
    ofPart source
        (lead ++ .token ⟨.ident name, span⟩ :: (front ++ .token ⟨.colon, colon⟩ :: value)) =
      some (.ok (ofValue name span.start value)) := by
  have hname : (Component.token ⟨.ident name, span⟩).isWhitespace = false := rfl
  have hcolon : (Component.token ⟨.colon, colon⟩).isWhitespace = false := rfl
  rw [ofPart, dropWhile_append_cons_of_neg hname, List.dropWhile_eq_nil_iff.mpr hlead]
  dsimp only [List.nil_append]
  rw [ofRest, dropWhile_append_cons_of_neg hcolon, List.dropWhile_eq_nil_iff.mpr hfront]
  rfl

/-- The declaration is alone in a block without semicolons of its own. -/
theorem ofComponents_eq_ofValue (hlead : ∀ c ∈ lead, c.isWhitespace = true)
    (hfront : ∀ c ∈ front, c.isWhitespace = true) (hvalue : ∀ c ∈ value, c.isSemicolon = false) :
    ofComponents source
        (lead ++ .token ⟨.ident name, span⟩ :: (front ++ .token ⟨.colon, colon⟩ :: value)) =
      ⟨[ofValue name span.start value], []⟩ := by
  have hparts : ∀ c ∈ lead ++ .token ⟨.ident name, span⟩ ::
      (front ++ .token ⟨.colon, colon⟩ :: value), c.isSemicolon = false := by
    intro c hc
    simp only [List.mem_append, List.mem_cons] at hc
    rcases hc with hc | rfl | hc | rfl | hc
    · exact isTokenOf_of_blank hlead (fun _ => rfl) c hc
    · rfl
    · exact isTokenOf_of_blank hfront (fun _ => rfl) c hc
    · rfl
    · exact hvalue c hc
  simp only [ofComponents, splitBy_eq_singleton hparts, List.filterMap_cons, List.filterMap_nil,
    ofPart_eq_ofValue hlead hfront]

end Reading

section Marks

variable {name : String} {start : Nat} {value : List Component}

/-- A mark is found only where the value ends in one. -/
theorem endsMarked_of_endsImportant
    (h : endsImportant (dropLastWhile Component.isWhitespace
      (value.dropWhile Component.isWhitespace)).reverse = true) : EndsMarked value := by
  obtain ⟨front, back, hvalue, hback⟩ :=
    exists_eq_append_dropLastWhile Component.isWhitespace value
  generalize dropLastWhile Component.isWhitespace
    (value.dropWhile Component.isWhitespace) = kept at h hvalue
  cases hkept : kept.reverse with
  | nil =>
    rw [hkept] at h
    exact absurd h Bool.false_ne_true
  | cons last rest =>
    rw [hkept] at h
    cases rest with
    | nil => exact absurd h Bool.false_ne_true
    | cons first init =>
      obtain ⟨hbang, hword⟩ := Bool.and_eq_true_iff.mp h
      obtain ⟨bang, rfl⟩ := Component.exists_delim hbang
      obtain ⟨name, word, rfl, hname⟩ := Component.exists_ident hword
      have hnone : ∀ c ∈ ([] : List Component), c.isWhitespace = true :=
        fun c hc => absurd hc List.not_mem_nil
      refine ⟨⟨[], bang, [], name, word, back, hname, hnone, hnone, hback⟩, rfl,
        front ++ init.reverse, ?_⟩
      rw [hvalue, List.reverse_eq_iff.mp hkept]
      simp [ImportantMark.components, ImportantMark.core]

/-- Without a mark the value is kept up to the whitespace at its ends. -/
theorem ofValue_of_not_endsMarked (h : ¬ EndsMarked value) :
    ofValue name start value = ⟨name, start, false,
      dropLastWhile Component.isWhitespace (value.dropWhile Component.isWhitespace)⟩ := by
  rw [ofValue, splitImportant, if_neg (mt endsMarked_of_endsImportant h)]

/-- The whitespace behind a mark is dropped, and not the mark. -/
theorem dropLastWhile_append_components (value : List Component) (m : ImportantMark) :
    dropLastWhile Component.isWhitespace
        ((value ++ m.components).dropWhile Component.isWhitespace) =
      (value ++ m.before).dropWhile Component.isWhitespace ++ m.core := by
  have hbang : (Component.token ⟨.delim "!", m.bang⟩).isWhitespace = false := rfl
  have hword : (Component.token ⟨.ident m.name, m.word⟩).isWhitespace = false := rfl
  rw [ImportantMark.components, ImportantMark.core, List.cons_append, ← List.append_assoc,
    dropWhile_append_cons_of_neg hbang]
  generalize (value ++ m.before).dropWhile Component.isWhitespace = front
  rw [← List.cons_append, ← List.append_assoc, dropLastWhile_append_of_pos m.blankAfter,
    ← List.cons_append, ← List.append_assoc, dropLastWhile_concat_of_neg hword]

/-- Whitespace between the two parts of a mark hides it. -/
theorem endsImportant_append_core (front : List Component) (m : ImportantMark) :
    endsImportant (front ++ m.core).reverse = m.between.isEmpty := by
  rcases m.between.eq_nil_or_concat' with hm | ⟨init, blank, hm⟩
  · simp [ImportantMark.core, hm, endsImportant, Component.isTokenOf, TokenKind.isDelim,
      Component.isKeyword, TokenKind.isKeyword, m.spells]
  · have hblank : blank.isTokenOf (·.isDelim "!") = false :=
      isTokenOf_of_blank m.blankBetween (fun _ => rfl) blank (by simp [hm])
    simp [ImportantMark.core, hm, endsImportant, hblank]

/-- A mark whose parts stand together is noted, and nothing else changes. -/
theorem ofValue_append_mark (h : ¬ EndsMarked value) (m : ImportantMark) (hm : m.between = []) :
    ofValue name start (value ++ m.components) =
      { ofValue name start value with important := true } := by
  have hends : ∀ front, endsImportant (front ++ m.core).reverse = true := fun front => by
    rw [endsImportant_append_core, hm]
    rfl
  rw [ofValue_of_not_endsMarked h, ofValue, dropLastWhile_append_components, splitImportant,
    if_pos (hends _)]
  simp [ImportantMark.core, hm, dropLastWhile_dropWhile_append m.blankBefore]

/-- A mark whose parts stand apart is kept as the end of the value. -/
theorem ofValue_append_apart (h : ¬ EndsMarked value) (m : ImportantMark) (hm : m.between ≠ []) :
    ofValue name start (value ++ m.components) =
      { ofValue name start value with
        value := (value ++ m.before).dropWhile Component.isWhitespace ++ m.core } := by
  have hends : ∀ front, ¬ endsImportant (front ++ m.core).reverse = true := fun front => by
    rw [endsImportant_append_core, List.isEmpty_iff]
    exact hm
  rw [ofValue_of_not_endsMarked h, ofValue, dropLastWhile_append_components, splitImportant,
    if_neg (hends _)]

end Marks

end DeclarationSyntax

namespace Stylesheet

open DeclarationSyntax (ofComponents_eq_ofValue ofValue_append_apart ofValue_append_mark
  ofValue_of_not_endsMarked)

/-- The flag of a declaration is reported before the declaration is read, and has no other use. -/
theorem readDeclaration_of_important {source : Source} {file : Option String}
    {d : DeclarationSyntax} (h : d.important = false) :
    readDeclaration source file { d with important := true } = (do
      Traced.report (.importantIgnored (d.snippet source))
      readDeclaration source file d) := by
  obtain ⟨name, start, important, value⟩ := d
  obtain rfl : important = false := h
  rfl

/-- A block of one declaration is read as the declaration is. -/
theorem readBlock_of_singleton {source : Source} {file : Option String} {cs : List Component}
    {d : DeclarationSyntax} (h : DeclarationSyntax.ofComponents source cs = ⟨[d], []⟩) :
    readBlock source file cs = readDeclaration source file d := by
  have hall : readBlock source file cs = readDeclarations source file [d] := by
    rw [readBlock, h]
    rfl
  simp [hall, readDeclarations]

/-- **A mark is reported and otherwise ignored if its two parts stand together.**  Whatever the
name, the value and the whitespace around the mark are, the declaration has the flag and its value
is the same, so that its properties or the text of its custom property are.  A mark with whitespace
between its parts is no mark: the flag is not set, and the value ends with it. -/
theorem readBlock_marked (source : Source) (file : Option String) (name : String)
    (span colon : Span) {lead front value : List Component}
    (hlead : ∀ c ∈ lead, c.isWhitespace = true) (hfront : ∀ c ∈ front, c.isWhitespace = true)
    (hparts : ∀ c ∈ value, c.isSemicolon = false) (hvalue : ¬ EndsMarked value)
    (m : ImportantMark) :
    let part := lead ++ .token ⟨.ident name, span⟩ :: (front ++ .token ⟨.colon, colon⟩ :: value)
    let read := DeclarationSyntax.ofComponents source
    ∃ d, read part = ⟨[d], []⟩ ∧ d.name = name ∧ d.important = false ∧
      (m.between = [] →
        read (part ++ m.components) = ⟨[{ d with important := true }], []⟩ ∧
        readBlock source file (part ++ m.components) = (do
          Traced.report (.importantIgnored (d.snippet source))
          readBlock source file part)) ∧
      (m.between ≠ [] →
        read (part ++ m.components) = ⟨[{ d with
          value := (value ++ m.before).dropWhile Component.isWhitespace ++ m.core }], []⟩) := by
  dsimp only
  have hmarked : ∀ c ∈ value ++ m.components, c.isSemicolon = false :=
    fun c hc => (List.mem_append.mp hc).elim (hparts c) (m.isSemicolon_of_mem c)
  have hplain : DeclarationSyntax.ofComponents source
      (lead ++ .token ⟨.ident name, span⟩ :: (front ++ .token ⟨.colon, colon⟩ :: value)) =
        ⟨[.ofValue name span.start value], []⟩ :=
    ofComponents_eq_ofValue hlead hfront hparts
  have hread : DeclarationSyntax.ofComponents source
      (lead ++ .token ⟨.ident name, span⟩ :: (front ++ .token ⟨.colon, colon⟩ :: value) ++
        m.components) = ⟨[.ofValue name span.start (value ++ m.components)], []⟩ := by
    rw [List.append_assoc, List.cons_append, List.append_assoc, List.cons_append]
    exact ofComponents_eq_ofValue hlead hfront hmarked
  have hflag : (DeclarationSyntax.ofValue name span.start value).important = false := by
    rw [ofValue_of_not_endsMarked hvalue]
  refine ⟨_, hplain, rfl, hflag, fun hm => ?_, fun hm => ?_⟩
  · rw [ofValue_append_mark hvalue m hm] at hread
    refine ⟨hread, ?_⟩
    rw [readBlock_of_singleton hread, readBlock_of_singleton hplain,
      readDeclaration_of_important hflag]
  · rw [hread, ofValue_append_apart hvalue m hm]

/-- A custom property with a mark in capital letters and whitespace on both sides of it. -/
theorem readBlock_marked_custom :
    ∃ (source : Source) (part : List Component) (m : ImportantMark),
      source.components = .ok ⟨part ++ m.components, []⟩ ∧
      source = .ofString "--x:a !IMPORTANT " ∧ m.name = "IMPORTANT" ∧
      (readBlock source none (part ++ m.components)).result = .ok ([], [("--x", "a")]) ∧
      (readBlock source none part).result = .ok ([], [("--x", "a")]) := by
  let value : List Component := [.token ⟨.ident "a", ⟨4, 5⟩⟩]
  let part : List Component :=
    [] ++ .token ⟨.ident "--x", ⟨0, 3⟩⟩ :: ([] ++ .token ⟨.colon, ⟨3, 4⟩⟩ :: value)
  let m : ImportantMark := ⟨[.token ⟨.whitespace " ", ⟨5, 6⟩⟩], ⟨6, 7⟩, [], "IMPORTANT", ⟨7, 16⟩,
    [.token ⟨.whitespace " ", ⟨16, 17⟩⟩], by decide, by decide, by decide, by decide⟩
  let source : Source := .ofString "--x:a !IMPORTANT "
  have hcomponents : source.components = .ok ⟨part ++ m.components, []⟩ := by cbv
  have hplain : (readBlock source none part).result = .ok ([], [("--x", "a")]) := by cbv
  have hnone : ∀ c ∈ ([] : List Component), c.isWhitespace = true := by decide
  have hvalue : ∀ c ∈ value, c.isSemicolon = false := by decide
  obtain ⟨d, -, -, -, htogether, -⟩ := readBlock_marked source none "--x" ⟨0, 3⟩ ⟨3, 4⟩ hnone hnone
    hvalue (not_endsMarked_singleton _) m
  have hmarked : readBlock source none (part ++ m.components) = _ := (htogether rfl).2
  refine ⟨source, part, m, hcomponents, rfl, rfl, ?_, hplain⟩
  rw [hmarked, Traced.result_bind]
  exact hplain

/-- A space between the two parts of a mark spoils a declaration that is read without it. -/
theorem exists_not_ignored_of_apart :
    ∃ (source : Source) (value : List Component) (m : ImportantMark) (p : Property),
      let part := .token ⟨.ident "display", ⟨0, 7⟩⟩ :: .token ⟨.colon, ⟨7, 8⟩⟩ :: value
      source.components = .ok ⟨part ++ m.components, []⟩ ∧ ¬ EndsMarked value ∧
      (readBlock source none part).result = .ok ([p], []) ∧
      (DeclarationSyntax.ofComponents source (part ++ m.components)).value.map (·.important) =
        [false] ∧
      (readBlock source none (part ++ m.components)).result = .ok ([], []) := by
  let value : List Component := [.token ⟨.ident "none", ⟨8, 12⟩⟩]
  let part : List Component := .token ⟨.ident "display", ⟨0, 7⟩⟩ :: .token ⟨.colon, ⟨7, 8⟩⟩ :: value
  let m : ImportantMark := ⟨[.token ⟨.whitespace " ", ⟨12, 13⟩⟩], ⟨13, 14⟩,
    [.token ⟨.whitespace " ", ⟨14, 15⟩⟩], "important", ⟨15, 24⟩, [], by decide, by decide,
    by decide, by decide⟩
  let source : Source := .ofString "display:none ! important"
  have hcomponents : source.components = .ok ⟨part ++ m.components, []⟩ := by cbv
  have hplain : (readBlock source none part).result =
      .ok ([.longhand .display (.exact .none)], []) := by decide +kernel
  have hflag : (DeclarationSyntax.ofComponents source (part ++ m.components)).value.map
      (·.important) = [false] := by decide +kernel
  have hmarked : (readBlock source none (part ++ m.components)).result = .ok ([], []) := by
    decide +kernel
  exact ⟨source, value, m, _, hcomponents, not_endsMarked_singleton _, hplain, hflag, hmarked⟩

end Stylesheet

end Styling
