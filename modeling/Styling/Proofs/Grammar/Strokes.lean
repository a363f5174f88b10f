import Styling.Proofs.Color.Names
import Styling.Proofs.Grammar.Kinds
import Styling.Proofs.Value.Taking

/-!
# Lines in any order

A line is a lone keyword, or at most one color, one width and the word `solid`, in any order.  Each
component is tried as a color first, then as a width, then as a style.  So that the order does not
matter, a component must be read the same wherever it stands, which it is because it is read alone,
and no component may be of two sorts, which none is because no keyword for a width or a style is the
name of a color.

* `Grammar.DeclaresStroke` says what a line declares, and `Grammar.strokeShorthand_eq_ok` that its
  reader gives just this.
* `Grammar.DeclaresStroke.perm` rearranges the components.
* `Grammar.StrokeSort.holds` tells whether a component is a color, a width or `solid`, and
  `Grammar.exists_reads_iff_holds` that it is then read as one.
* `PropertyKind.exists_readCursor_stroke_iff` says which lines are read, and
  `PropertyKind.readCursor_stroke_perm` that the order does not matter.
-/

namespace Styling

/-- Entries have partners in a list if each of them has one. -/
theorem exists_forall₂_iff {α β : Type} {R : α → β → Prop} {as : List α} :
    (∃ bs, List.Forall₂ R as bs) ↔ ∀ a ∈ as, ∃ b, R a b := by
  induction as with
  | nil => simp
  | cons a as ih =>
    rw [List.forall_mem_cons, ← ih]
    constructor
    · rintro ⟨bs, hbs⟩
      obtain ⟨b, rest, hb, hrest, -⟩ := List.forall₂_cons_left_iff.mp hbs
      exact ⟨⟨b, hb⟩, rest, hrest⟩
    · rintro ⟨⟨b, hb⟩, rest, hrest⟩
      exact ⟨b :: rest, .cons hb hrest⟩

/-- A loop over a list makes its first step, and then the others. -/
theorem foldlM_cons_eq_ok {ε α σ : Type} {f : σ → α → Except ε σ} {a : α} {as : List α} {s t : σ} :
    (a :: as).foldlM f s = .ok t ↔ ∃ next, f s a = .ok next ∧ as.foldlM f next = .ok t := by
  rw [List.foldlM_cons]
  cases f s a with
  | ok next => simp [bind, Except.bind]
  | error e => simp [bind, Except.bind]

namespace Reader

/-- A loop that ended took all components, and gives the fold of its step. -/
theorem foldlM_pending_of_foldAll {σ : Type} {step : σ → Component → Except StepError σ}
    {s t : σ} {c c' : Cursor} (h : foldAll step s c = .ok t c') :
    c.pending.foldlM step s = .ok t := by
  rw [foldAll] at h
  induction c using Cursor.advance_induction generalizing s with
  | exhausted c hpeek =>
    rw [foldWhile_of_peek_none hpeek] at h
    rw [Cursor.pending_of_peek_none hpeek, (EStateM.Result.ok.inj h).1]
    rfl
  | next c d hpeek ih =>
    rw [foldWhile_of_peek hpeek] at h
    rw [Cursor.pending_of_peek hpeek, List.foldlM_cons]
    cases hstep : step s d with
    | error e =>
      rw [hstep] at h
      exact absurd h (by simp [Except.map])
    | ok next =>
      rw [hstep] at h
      exact ih h

end Reader

namespace Grammar

variable {source : Source} {colors widths : List Longhand} {ps : List Property}

/-! ## Lone keywords -/

/-- What a keyword that stands alone declares for every longhand. -/
def wideValue? : List Component → Option PropertyValue
  | [c] => if c.isKeyword "initial" then some .initial
    else if c.isKeyword "inherit" then some .inherit else none
  | _ => none

/-- One component alone has no other order. -/
theorem wideValue?_perm {cs ds : List Component} (h : cs.Perm ds) :
    wideValue? cs = wideValue? ds := by
  match cs, ds, h with
  | [], ds, h => rw [List.nil_perm.mp h]
  | [c], ds, h => rw [List.singleton_perm.mp h]
  | _ :: _ :: _, [], h => exact absurd h.length_eq (by simp)
  | _ :: _ :: _, [_], h => exact absurd h.length_eq (by simp)
  | _ :: _ :: _, _ :: _ :: _, _ => rfl

/-- A keyword is all that remains, or nothing is taken. -/
theorem takes_isKeywordExhausted (word : String) (ds : List Component) :
    (∃ d, ds = [d] ∧ d.isKeyword word = true ∧
        (Reader.isKeywordExhausted word).Takes source ds true []) ∨
      (¬ ∃ d, ds = [d] ∧ d.isKeyword word = true) ∧
        (Reader.isKeywordExhausted word).Takes source ds false ds := by
  match ds with
  | [] => exact Or.inr ⟨by simp, .isKeywordExhausted rfl⟩
  | [d] =>
    cases hd : d.isKeyword word with
    | true => exact Or.inl ⟨d, rfl, hd, .isKeywordExhausted_lone hd⟩
    | false => exact Or.inr ⟨by simp [hd], .isKeywordExhausted hd⟩
  | d :: e :: ds =>
    refine Or.inr ⟨by simp, fun c hsource hpending => ⟨c, ?_, hsource, hpending⟩⟩
    obtain ⟨hpeek, hadvance⟩ := Cursor.peek_of_pending hpending
    have hmore : c.advance.isExhausted = false := by
      rw [Cursor.isExhausted, Cursor.peek_eq_head?, hadvance]
      rfl
    rw [Reader.isKeywordExhausted_of_peek hpeek, hmore, Bool.and_false, if_neg Bool.false_ne_true]

/-- The declarations of a lone keyword are those of its value. -/
theorem takes_wideKeyword (ls : List Longhand) (ds : List Component) :
    ∃ es, (wideKeyword ls).Takes source ds ((wideValue? ds).map (fanOut ls)) es ∧
      (wideValue? ds = none → es = ds) ∧ (wideValue? ds ≠ none → es = []) := by
  rcases takes_isKeywordExhausted "initial" ds with ⟨d, rfl, hd, htakes⟩ | ⟨hinitial, htakes⟩
  · have hvalue : wideValue? [d] = some .initial := if_pos hd
    rw [hvalue]
    exact ⟨[], htakes.bind (.pure _), by simp, by simp⟩
  rcases takes_isKeywordExhausted "inherit" ds with ⟨d, rfl, hd, htakes'⟩ | ⟨hinherit, htakes'⟩
  · have hne : d.isKeyword "initial" = false := by
      rw [← Bool.not_eq_true]
      exact fun h => hinitial ⟨d, rfl, h⟩
    have hvalue : wideValue? [d] = some .inherit := by
      rw [wideValue?, if_neg (by simp [hne]), if_pos hd]
    rw [hvalue]
    exact ⟨[], htakes.bind (htakes'.bind (.pure _)), by simp, by simp⟩
  · have hvalue : wideValue? ds = none := by
      match ds with
      | [] => rfl
      | [d] =>
        rw [wideValue?, if_neg fun h => hinitial ⟨d, rfl, h⟩,
          if_neg fun h => hinherit ⟨d, rfl, h⟩]
      | _ :: _ :: _ => rfl
    rw [hvalue]
    exact ⟨ds, htakes.bind (htakes'.bind (.pure _)), fun _ => rfl, fun h => absurd rfl h⟩

/-! ## What a line declares -/

/-- The run: components are read as parts, each of a sort that was not given yet. -/
theorem StrokeState.foldlM_step_eq_ok {s t : StrokeState} {cs : List Component} :
    cs.foldlM (step source colors widths) s = .ok t ↔
      ∃ parts, List.Forall₂ (StrokePart.Reads source) cs parts ∧
        (parts.map StrokePart.sort).Nodup ∧ (∀ part ∈ parts, s.has part.sort = false) ∧
        t = parts.foldl (add colors widths) s := by
  induction cs generalizing s with
  | nil =>
    constructor
    · intro h
      exact ⟨[], .nil, List.nodup_nil, by simp, (Except.ok.inj h).symm⟩
    · rintro ⟨parts, hreads, -, -, rfl⟩
      cases hreads
      rfl
  | cons c cs ih =>
    have hsplit : (c :: cs).foldlM (step source colors widths) s = .ok t ↔
        ∃ part, StrokePart.Reads source c part ∧ s.has part.sort = false ∧
          cs.foldlM (step source colors widths) (s.add colors widths part) = .ok t := by
      simp only [foldlM_cons_eq_ok, step_eq_ok]
      constructor
      · rintro ⟨next, ⟨part, hreads, hnew, rfl⟩, h⟩
        exact ⟨part, hreads, hnew, h⟩
      · rintro ⟨part, hreads, hnew, h⟩
        exact ⟨_, ⟨part, hreads, hnew, rfl⟩, h⟩
    rw [hsplit]
    constructor
    · rintro ⟨part, hreads, hnew, h⟩
      obtain ⟨parts, hparts, hnodup, hlater, rfl⟩ := ih.mp h
      simp only [has_add, Bool.or_eq_false_iff, decide_eq_false_iff_not] at hlater
      refine ⟨part :: parts, .cons hreads hparts, ?_, ?_, rfl⟩
      · refine List.nodup_cons.mpr ⟨fun hmem => ?_, hnodup⟩
        obtain ⟨later, hlater', heq⟩ := List.mem_map.mp hmem
        exact (hlater later hlater').2 heq.symm
      · exact List.forall_mem_cons.mpr ⟨hnew, fun later hmem => (hlater later hmem).1⟩
    · rintro ⟨parts, hparts, hnodup, hall, rfl⟩
      obtain ⟨part, parts, rfl⟩ : ∃ part rest, parts = part :: rest := by
        cases hparts with
        | cons => exact ⟨_, _, rfl⟩
      obtain ⟨hreads, hparts⟩ := List.forall₂_cons.mp hparts
      obtain ⟨hfresh, hnodup⟩ := List.nodup_cons.mp hnodup
      obtain ⟨hnew, hall⟩ := List.forall_mem_cons.mp hall
      refine ⟨part, hreads, hnew, ih.mpr ⟨parts, hparts, hnodup, fun later hmem => ?_, rfl⟩⟩
      rw [has_add, hall later hmem, Bool.false_or, decide_eq_false_iff_not]
      exact fun heq => hfresh (heq ▸ List.mem_map_of_mem hmem)

/-- The declarations of the parts follow each other. -/
theorem StrokeState.properties_foldl_add (s : StrokeState) (parts : List StrokePart) :
    (parts.foldl (add colors widths) s).properties =
      s.properties ++ parts.flatMap (StrokePart.declared colors widths) := by
  induction parts generalizing s with
  | nil => simp
  | cons part parts ih => rw [List.foldl_cons, ih, add, List.flatMap_cons, List.append_assoc]

/-- What a line declares: the value of a lone keyword for everything, or else what its parts
declare, no sort of which is given twice. -/
inductive DeclaresStroke (source : Source) (colors widths : List Longhand) (cs : List Component) :
    List Property → Prop
  | wide {value : PropertyValue} (lone : wideValue? cs = some value) :
    DeclaresStroke source colors widths cs (fanOut (colors ++ widths) value)
  | parts {parts : List StrokePart} (lone : wideValue? cs = none)
    (reads : List.Forall₂ (StrokePart.Reads source) cs parts)
    (once : (parts.map StrokePart.sort).Nodup) :
    DeclaresStroke source colors widths cs (parts.flatMap (StrokePart.declared colors widths))

/-- The reader of a line gives what the line declares, and nothing is left. -/
theorem strokeShorthand_eq_ok {c : Cursor} :
    (∃ c', strokeShorthand colors widths c = .ok ps c' ∧ c'.peek = none) ↔
      DeclaresStroke c.source colors widths c.pending ps := by
  obtain ⟨es, hwide, hrest, hnone⟩ := takes_wideKeyword (colors ++ widths) c.pending
  obtain ⟨d, hrun, hsource, hpending⟩ := hwide c rfl rfl
  constructor
  · rintro ⟨c', h, -⟩
    rw [strokeShorthand, Reader.bind_apply, hrun] at h
    cases hvalue : wideValue? c.pending with
    | some value =>
      rw [hvalue] at h
      obtain ⟨rfl, -⟩ := EStateM.Result.ok.inj h
      exact .wide hvalue
    | none =>
      rw [hvalue] at h
      obtain ⟨s, d', hs, h⟩ := Reader.exists_of_bind h
      obtain ⟨rfl, rfl⟩ := EStateM.Result.ok.inj hs
      obtain ⟨t, d', hfold, h⟩ := Reader.exists_of_bind h
      obtain ⟨rfl, -⟩ := EStateM.Result.ok.inj h
      have hfold := Reader.foldlM_pending_of_foldAll hfold
      rw [hpending, hrest hvalue, hsource] at hfold
      obtain ⟨parts, hreads, hnodup, -, rfl⟩ := StrokeState.foldlM_step_eq_ok.mp hfold
      rw [StrokeState.properties_foldl_add]
      exact .parts hvalue hreads hnodup
  · intro h
    suffices htakes : (strokeShorthand colors widths).Takes c.source c.pending ps [] by
      obtain ⟨c', hc', -, hend⟩ := htakes c rfl rfl
      exact ⟨c', hc', by rw [Cursor.peek_eq_head?, hend]; rfl⟩
    cases h with
    | @wide value lone =>
      rw [lone] at hwide hnone
      rw [hnone (by simp)] at hwide
      exact hwide.bind (.pure _)
    | @parts parts lone reads once =>
      rw [lone] at hwide hrest
      rw [hrest rfl] at hwide
      let state := parts.foldl (StrokeState.add colors widths) .start
      have hfold : c.pending.foldlM (StrokeState.step c.source colors widths) .start = .ok state :=
        StrokeState.foldlM_step_eq_ok.mpr
          ⟨parts, reads, once, fun part _ => by cases part <;> rfl, rfl⟩
      have hprops : state.properties = parts.flatMap (StrokePart.declared colors widths) :=
        (StrokeState.properties_foldl_add _ parts).trans (List.nil_append _)
      refine hwide.bind (Reader.Takes.source_.bind ?_)
      rw [← hprops]
      exact (Reader.Takes.foldAll hfold).bind (.pure _)

/-- A line with its components in another order declares the same. -/
theorem DeclaresStroke.perm {cs ds : List Component} (h : DeclaresStroke source colors widths cs ps)
    (hperm : cs.Perm ds) : ∃ qs, DeclaresStroke source colors widths ds qs ∧ ps.Perm qs := by
  cases h with
  | wide lone => exact ⟨_, .wide (wideValue?_perm hperm ▸ lone), .refl _⟩
  | @parts parts lone reads once =>
    obtain ⟨parts', hreads, hparts⟩ := List.perm_comp_forall₂ hperm.symm reads
    have hsorts := hparts.map StrokePart.sort
    exact ⟨_, .parts (wideValue?_perm hperm ▸ lone) hreads (hsorts.nodup_iff.mpr once),
      (hparts.flatMap_right _).symm⟩

/-! ## The sorts of components -/

/-- A component is a color, a width, or the word `solid`. -/
def StrokeSort.holds (source : Source) (c : Component) : StrokeSort → Bool
  | color => (paint source c).isOk
  | width => (lineWidth source c).isOk
  | style => c.isKeyword "solid"

/-- Whitespace is of no sort. -/
theorem isWhitespace_of_holds {c : Component} {k : StrokeSort} (h : k.holds source c = true) :
    c.isWhitespace = false := by
  cases c with
  | token t =>
    obtain ⟨kind, span⟩ := t
    cases kind with
    | whitespace content => cases k <;> exact absurd h Bool.false_ne_true
    | _ => rfl
  | group opener opened cs ending => rfl

/-- A component is read as a part of one sort at most. -/
theorem StrokePart.Reads.sort_unique {c : Component} {part part' : StrokePart}
    (h : part.Reads source c) (h' : part'.Reads source c) : part.sort = part'.sort := by
  have hcolor : ∀ {p : Paint}, paint source c = .ok p →
      Reader.attempted (paint source c) ≠ .ok none := by
    intro p hp hnone
    rw [hp] at hnone
    exact absurd hnone (by simp [Reader.attempted])
  have hwidth : ∀ {l : Length}, lineWidth source c = .ok l →
      Reader.attempted (lineWidth source c) ≠ .ok none := by
    intro l hl hnone
    rw [hl] at hnone
    exact absurd hnone (by simp [Reader.attempted])
  cases h with
  | color paint =>
    cases h' with
    | color => rfl
    | width none | solid none => exact absurd none (hcolor paint)
  | width none width =>
    cases h' with
    | color paint => exact absurd none (hcolor paint)
    | width => rfl
    | solid _ none => exact absurd none (hwidth width)
  | solid none none' =>
    cases h' with
    | color paint => exact absurd none (hcolor paint)
    | width _ width => exact absurd none' (hwidth width)
    | solid => rfl

/-- The keywords for widths and styles. -/
def strokeWords : List String := "solid" :: lineWidths.map (·.1)

/-- Only keywords are widths or styles among the identifiers. -/
theorem mem_strokeWords_of_holds {name : String} {span : Span} {k : StrokeSort}
    (hk : k ≠ .color) (h : k.holds source (.token ⟨.ident name, span⟩) = true) :
    Text.lowercase name ∈ strokeWords := by
  cases k with
  | color => exact absurd rfl hk
  | width =>
    simp only [StrokeSort.holds, lineWidth, keyword] at h
    split at h
    next w hlookup =>
      obtain ⟨before, after, hwords, -⟩ := List.lookup_eq_some_iff.mp hlookup
      rw [strokeWords, hwords]
      simp
    next => exact absurd h Bool.false_ne_true
  | style =>
    have hword : (Text.lowercase name == "solid") = true := h
    rw [beq_iff_eq.mp hword]
    exact List.mem_cons_self

/-- A width or a style that is no identifier does not look like a color. -/
theorem mayBePaint_of_holds {c : Component} {k : StrokeSort} (hk : k ≠ .color)
    (h : k.holds source c = true) (hident : ∀ name span, c ≠ .token ⟨.ident name, span⟩) :
    c.containsVar = false ∧ mayBePaint c = false := by
  cases c with
  | token t =>
    obtain ⟨kind, span⟩ := t
    refine ⟨Component.containsVar_token _, ?_⟩
    cases kind with
    | ident name => exact absurd rfl (hident name span)
    | hash name isId =>
      cases k with
      | color => exact absurd rfl hk
      | width | style => exact absurd h Bool.false_ne_true
    | _ => rfl
  | group opener opened cs ending =>
    cases k with
    | color => exact absurd rfl hk
    | width | style => exact absurd h Bool.false_ne_true

section

variable {text : String} {parsed : Parsed (List Component)} {c : Component}

/-- A word that is no name of a color is no color. -/
theorem attempted_paint_ident (h : (Source.ofString text).components = .ok parsed) {name : String}
    {span : Span} (hc : (Component.token ⟨.ident name, span⟩).StandsIn parsed.value)
    (hname : Paint.ofName? (Text.lowercase name) = none) :
    Reader.attempted (paint (.ofString text) (.token ⟨.ident name, span⟩)) = .ok none := by
  rw [paint_ident h hc]
  cases hfound : Paint.ofName? (Text.lowercaseAscii name) with
  | none => rfl
  | some p => simp [Paint.ofName?_of_lowercaseAscii hfound] at hname

/-- A width or a style is no color. -/
theorem attempted_paint_of_holds (h : (Source.ofString text).components = .ok parsed)
    (hc : c.StandsIn parsed.value) {k : StrokeSort} (hk : k ≠ .color)
    (hholds : k.holds (.ofString text) c = true) :
    Reader.attempted (paint (.ofString text) c) = .ok none := by
  by_cases hident : ∃ name span, c = .token ⟨.ident name, span⟩
  · obtain ⟨name, span, rfl⟩ := hident
    have hwords : strokeWords.all (fun word => (Paint.ofName? word).isNone) = true := by
      decide +kernel
    have hnone := List.all_eq_true.mp hwords _ (mem_strokeWords_of_holds hk hholds)
    exact attempted_paint_ident h hc (Option.isNone_iff_eq_none.mp hnone)
  · obtain ⟨hvar, hmay⟩ := mayBePaint_of_holds hk hholds fun name span heq =>
      hident ⟨name, span, heq⟩
    rw [paint, Leaf.noNestedVar, hvar, hmay]
    rfl

/-- **A component of a text is read as a part of a line of a sort if and only if it is of that
sort**, whatever the other sorts are. -/
theorem exists_reads_iff_holds (h : (Source.ofString text).components = .ok parsed)
    (hc : c.StandsIn parsed.value) {k : StrokeSort} :
    (∃ part : StrokePart, part.Reads (.ofString text) c ∧ part.sort = k) ↔
      k.holds (.ofString text) c = true := by
  constructor
  · rintro ⟨part, hreads, rfl⟩
    cases hreads with
    | color color => simp [StrokePart.sort, StrokeSort.holds, color, Except.isOk, Except.toBool]
    | width _ width => simp [StrokePart.sort, StrokeSort.holds, width, Except.isOk, Except.toBool]
    | solid _ _ style => exact style
  · intro hholds
    cases k with
    | color =>
      cases hpaint : paint (.ofString text) c with
      | ok p => exact ⟨.color p, .color hpaint, rfl⟩
      | error e =>
        rw [StrokeSort.holds, hpaint] at hholds
        exact absurd hholds Bool.false_ne_true
    | width =>
      have hnone := attempted_paint_of_holds h hc (by decide) hholds
      cases hwidth : lineWidth (.ofString text) c with
      | ok l => exact ⟨.width l, .width hnone hwidth, rfl⟩
      | error e =>
        rw [StrokeSort.holds, hwidth] at hholds
        exact absurd hholds Bool.false_ne_true
    | style =>
      have hnone := attempted_paint_of_holds h hc (by decide) hholds
      refine ⟨.solid, .solid hnone ?_ hholds, rfl⟩
      cases c with
      | token t =>
        obtain ⟨kind, span⟩ := t
        cases kind with
        | ident name =>
          have hword : Text.lowercase name = "solid" := beq_iff_eq.mp hholds
          simp only [lineWidth, keyword, hword]
          rfl
        | _ => exact absurd hholds Bool.false_ne_true
      | group opener opened cs ending => exact absurd hholds Bool.false_ne_true

/-- The parts of a sort are counted by the components of that sort. -/
theorem count_sort_eq_countP (h : (Source.ofString text).components = .ok parsed)
    {cs : List Component} (hcs : ∀ c ∈ cs, c.StandsIn parsed.value) {parts : List StrokePart}
    (hreads : List.Forall₂ (StrokePart.Reads (.ofString text)) cs parts) (k : StrokeSort) :
    (parts.map StrokePart.sort).count k = cs.countP fun c => k.holds (.ofString text) c := by
  induction hreads with
  | nil => rfl
  | @cons c part cs parts hc _ ih =>
    obtain ⟨hstands, hcs⟩ := List.forall_mem_cons.mp hcs
    have hsort : (part.sort == k) = k.holds (.ofString text) c := by
      rw [Bool.eq_iff_iff, beq_iff_eq, ← exists_reads_iff_holds h hstands]
      constructor
      · exact fun hk => ⟨part, hc, hk⟩
      · rintro ⟨part', hc', rfl⟩
        exact hc.sort_unique hc'
    rw [List.map_cons, List.count_cons, List.countP_cons, ih hcs, hsort]

/-- Components are parts of different sorts if each is of some sort and none is given twice. -/
theorem exists_parts_iff (h : (Source.ofString text).components = .ok parsed)
    {cs : List Component} (hcs : ∀ c ∈ cs, c.StandsIn parsed.value) :
    (∃ parts, List.Forall₂ (StrokePart.Reads (.ofString text)) cs parts ∧
        (parts.map StrokePart.sort).Nodup) ↔
      (∀ c ∈ cs, ∃ k : StrokeSort, k.holds (.ofString text) c = true) ∧
        ∀ k : StrokeSort, (cs.countP fun c => k.holds (.ofString text) c) ≤ 1 := by
  constructor
  · rintro ⟨parts, hreads, hnodup⟩
    refine ⟨fun c hc => ?_, fun k => ?_⟩
    · obtain ⟨part, hpart⟩ := exists_forall₂_iff.mp ⟨parts, hreads⟩ c hc
      exact ⟨part.sort, (exists_reads_iff_holds h (hcs c hc)).mp ⟨part, hpart, rfl⟩⟩
    · rw [← count_sort_eq_countP h hcs hreads]
      exact List.nodup_iff_count_le_one.mp hnodup k
  · rintro ⟨hall, hcount⟩
    obtain ⟨parts, hreads⟩ := exists_forall₂_iff.mpr fun c hc => by
      obtain ⟨k, hk⟩ := hall c hc
      obtain ⟨part, hpart, -⟩ := (exists_reads_iff_holds h (hcs c hc)).mpr hk
      exact ⟨part, hpart⟩
    refine ⟨parts, hreads, List.nodup_iff_count_le_one.mpr fun k => ?_⟩
    rw [count_sort_eq_countP h hcs hreads]
    exact hcount k

end

end Grammar

namespace PropertyKind

open Grammar

/-- A line without `var()` calls, given as components of a source, is read as what it declares. -/
theorem exists_readCursor_stroke_eq_ok {s : Shorthand} (hs : s.isStroke = true) (source : Source) :
    ∃ colors widths, ∀ (cs : List Component) (stop : Nat) (ps : List Property),
      Component.listContainsVar cs = false →
        ((shorthand s).readCursor (.ofComponents source cs stop) = .ok ps ↔
          DeclaresStroke source colors widths (Component.withoutBlanks cs) ps) := by
  obtain ⟨colors, widths, hreader⟩ :
      ∃ colors widths, s.reader = strokeShorthand colors widths := by
    cases s with
    | border | borderSide | outline => exact ⟨_, _, rfl⟩
    | _ => exact absurd hs Bool.false_ne_true
  refine ⟨colors, widths, fun cs stop ps hvar => ?_⟩
  have hvalue : (Cursor.ofComponents source cs stop).holdsVar = false := hvar
  rw [readCursor_shorthand hvalue, Reader.inside_eq_ok, hreader]
  exact strokeShorthand_eq_ok

/-- A value without `var()` calls that is not read is refused, unless a computation fails. -/
theorem exists_refused_of_error {kind : PropertyKind} {c : Cursor}
    (hok : ∀ ps, kind.readCursor c ≠ .ok ps) (hfault : ∀ f, kind.readCursor c ≠ .error (.fault f)) :
    ∃ r, kind.readCursor c = .error (.refused r) := by
  cases hrun : kind.readCursor c with
  | ok ps => exact absurd hrun (hok ps)
  | error e =>
    cases e with
    | refused r => exact ⟨r, rfl⟩
    | fault f => exact absurd hrun (hfault f)

/-- A line that is no lone keyword is read just if each of its components that is no whitespace is a
color, a width or the word `solid`, and none of the three is given twice. -/
theorem exists_readCursor_stroke_iff {text : String} {parsed : Parsed (List Component)}
    (h : (Source.ofString text).components = .ok parsed) {s : Shorthand} (hs : s.isStroke = true)
    {cs : List Component} (hcs : ∀ c ∈ cs, c.StandsIn parsed.value)
    (hvar : Component.listContainsVar cs = false) {stop : Nat}
    (hlone : wideValue? (Component.withoutBlanks cs) = none) :
    (∃ ps, (shorthand s).readCursor (.ofComponents (.ofString text) cs stop) = .ok ps) ↔
      (∀ c ∈ cs, c.isWhitespace = false →
          ∃ k : StrokeSort, k.holds (.ofString text) c = true) ∧
        ∀ k : StrokeSort, (cs.countP fun c => k.holds (.ofString text) c) ≤ 1 := by
  obtain ⟨colors, widths, hread⟩ := exists_readCursor_stroke_eq_ok hs (.ofString text)
  have hstands : ∀ c ∈ Component.withoutBlanks cs, c.StandsIn parsed.value :=
    fun c hc => hcs c (List.mem_filter.mp hc).1
  have hparts : (∃ ps, (shorthand s).readCursor (.ofComponents (.ofString text) cs stop) =
        .ok ps) ↔
      ∃ parts, List.Forall₂ (StrokePart.Reads (.ofString text)) (Component.withoutBlanks cs)
          parts ∧ (parts.map StrokePart.sort).Nodup := by
    constructor
    · rintro ⟨ps, hps⟩
      cases (hread cs stop ps hvar).mp hps with
      | wide lone => exact absurd (hlone.symm.trans lone) (by simp)
      | parts _ reads once => exact ⟨_, reads, once⟩
    · rintro ⟨parts, reads, once⟩
      exact ⟨_, (hread cs stop _ hvar).mpr (.parts hlone reads once)⟩
  have hcount : ∀ k : StrokeSort,
      ((Component.withoutBlanks cs).countP fun c => k.holds (.ofString text) c) =
        cs.countP fun c => k.holds (.ofString text) c := by
    intro k
    rw [Component.withoutBlanks, List.countP_filter]
    refine List.countP_congr fun c _ => ?_
    rw [Bool.and_eq_true, and_iff_left_iff_imp]
    exact fun hk => by rw [isWhitespace_of_holds hk]; rfl
  rw [hparts, exists_parts_iff h hstands]
  simp only [hcount]
  simp only [Component.withoutBlanks, List.mem_filter, Bool.not_eq_true', and_imp]

/-- **A line can be written in any order.**  Take some components of a text, without `var()` calls,
and the same components in another order.  Unless a computation fails, both are read as the same
declarations or both are refused.  And unless they are a lone keyword for every longhand, they are
read just if each of them that is no whitespace is a color, a width or the word `solid`, and none of
the three is given twice. -/
theorem readCursor_stroke_perm {text : String} {parsed : Parsed (List Component)}
    (h : (Source.ofString text).components = .ok parsed) {s : Shorthand} (hs : s.isStroke = true)
    {cs ds : List Component} (hcs : ∀ c ∈ cs, c.StandsIn parsed.value) (hperm : cs.Perm ds)
    (hvar : Component.listContainsVar cs = false) {stop stop' : Nat}
    (hfault : ∀ f, (shorthand s).readCursor (.ofComponents (.ofString text) cs stop) ≠
      .error (.fault f))
    (hfault' : ∀ f, (shorthand s).readCursor (.ofComponents (.ofString text) ds stop') ≠
      .error (.fault f)) :
    ((∃ ps qs, (shorthand s).readCursor (.ofComponents (.ofString text) cs stop) = .ok ps ∧
          (shorthand s).readCursor (.ofComponents (.ofString text) ds stop') = .ok qs ∧
          ps.Perm qs) ∨
        ∃ r r', (shorthand s).readCursor (.ofComponents (.ofString text) cs stop) =
            .error (.refused r) ∧
          (shorthand s).readCursor (.ofComponents (.ofString text) ds stop') =
            .error (.refused r')) ∧
      (wideValue? (Component.withoutBlanks cs) = none →
        ((∃ ps, (shorthand s).readCursor (.ofComponents (.ofString text) cs stop) = .ok ps) ↔
          (∀ c ∈ cs, c.isWhitespace = false →
              ∃ k : StrokeSort, k.holds (.ofString text) c = true) ∧
            ∀ k : StrokeSort, (cs.countP fun c => k.holds (.ofString text) c) ≤ 1)) := by
  obtain ⟨colors, widths, hread⟩ := exists_readCursor_stroke_eq_ok hs (.ofString text)
  have hvar' : Component.listContainsVar ds = false := by
    rw [Component.listContainsVar_eq_any] at hvar ⊢
    rwa [← hperm.any_eq]
  have hblanks : (Component.withoutBlanks cs).Perm (Component.withoutBlanks ds) := hperm.filter _
  constructor
  · by_cases hok : ∃ ps, (shorthand s).readCursor (.ofComponents (.ofString text) cs stop) = .ok ps
    · obtain ⟨ps, hps⟩ := hok
      obtain ⟨qs, hdeclares, hqs⟩ := ((hread cs stop ps hvar).mp hps).perm hblanks
      exact Or.inl ⟨ps, qs, hps, (hread ds stop' qs hvar').mpr hdeclares, hqs⟩
    · have hok' : ∀ qs, (shorthand s).readCursor (.ofComponents (.ofString text) ds stop') ≠
          .ok qs := by
        intro qs hqs
        obtain ⟨ps, hdeclares, -⟩ := ((hread ds stop' qs hvar').mp hqs).perm hblanks.symm
        exact hok ⟨ps, (hread cs stop ps hvar).mpr hdeclares⟩
      obtain ⟨r, hr⟩ := exists_refused_of_error (not_exists.mp hok) hfault
      obtain ⟨r', hr'⟩ := exists_refused_of_error hok' hfault'
      exact Or.inr ⟨r, r', hr, hr'⟩
  · exact fun hlone => exists_readCursor_stroke_iff h hs hcs hvar hlone

/-- An outline with an escape and an uppercase letter is read from the front and from the back. -/
theorem readCursor_stroke_perm_reversed :
    let source := Source.ofString "Solid \\74hin red"
    let cs : List Component := [.token ⟨.ident "Solid", ⟨0, 5⟩⟩, .token ⟨.whitespace " ", ⟨5, 6⟩⟩,
      .token ⟨.ident "thin", ⟨6, 12⟩⟩, .token ⟨.whitespace " ", ⟨12, 13⟩⟩,
      .token ⟨.ident "red", ⟨13, 16⟩⟩]
    source.components = .ok ⟨cs, []⟩ ∧
      (∃ ps qs, (shorthand .outline).readCursor (.ofComponents source cs 16) = .ok ps ∧
        (shorthand .outline).readCursor (.ofComponents source cs.reverse 5) = .ok qs ∧
        ps.Perm qs) ∧
      ∀ k : StrokeSort, (cs.countP fun c => k.holds source c) ≤ 1 := by
  intro source cs
  have hcs : source.components = .ok ⟨cs, []⟩ := by cbv
  have hread : ((shorthand .outline).readCursor (.ofComponents source cs 16)).isOk ∧
      ((shorthand .outline).readCursor (.ofComponents source cs.reverse 5)).isOk := by
    decide +kernel
  have hok : ∀ {x : Except ReadError (List Property)}, x.isOk = true → ∀ e, x ≠ .error e := by
    rintro x hx e rfl
    exact Bool.false_ne_true hx
  have hstands : ∀ c ∈ cs, c.StandsIn cs := fun c hc => ⟨cs, .top, hc⟩
  obtain ⟨hperm, hsorts⟩ := readCursor_stroke_perm hcs (s := .outline) rfl hstands
    cs.reverse_perm.symm (by decide) (fun f => hok hread.1 _) fun f => hok hread.2 _
  refine ⟨hcs, ?_, ?_⟩
  · rcases hperm with hread' | ⟨r, -, hr, -⟩
    · exact hread'
    · exact absurd hr (hok hread.1 _)
  · rcases hperm with ⟨ps, -, hps, -⟩ | ⟨r, -, hr, -⟩
    · exact ((hsorts (by decide)).mp ⟨ps, hps⟩).2
    · exact absurd hr (hok hread.1 _)

end PropertyKind

end Styling
