import Mathlib
import Styling.Proofs.Grammar.Agreement.Leaf
import Styling.Proofs.Grammar.Rereading.Color
import Styling.Grammar.Shadow

/-!
# Shadows that are read back

A shadow is written as its lengths and its color between spaces, and a list of shadows with commas
between them.  The grammar reads such a list in a single loop, so what a word, a shadow and a list
do to the state of the loop is said one after the other.

* `Grammar.stepsOn_length`, `Grammar.stepsOn_paint` and `Grammar.stepsOn_inset` are about words.
* `Grammar.exists_phrase_shadow` is about a shadow and `Grammar.exists_phrase_shadowList` about a
  list.
* `Grammar.readsBack_boxShadow` and `Grammar.readsBack_textShadow` are the main results.
-/

namespace Styling

open Written (At IsPhrase StartsUnlike comma ident listChars space isWord_ident)

namespace Grammar

/-! ## Words -/

/-- No paint is read where a length is. -/
theorem attempted_paint_of_length {source : Source} {c : Component} {l : Length}
    (h : length source c = .ok l) : Reader.attempted (paint source c) = .ok none := by
  unfold length at h
  split at h
  next => rfl
  next => rfl
  next => exact absurd h (by simp [Leaf.unexpected])

section Steps

variable {allowInset : Bool} {s : ShadowState} {source : Source} {c : Component}

/-- A component that is no paint and no length can only be a mark. -/
theorem shadowStep_of_mark (hvar : c.isVar = false)
    (hpaint : Reader.attempted (paint source c) = .ok none)
    (hlength : Reader.attempted (length source c) = .ok none) :
    ShadowState.step source allowInset s c = ShadowState.stepMark source allowInset s c := by
  rw [ShadowState.step, noVar_of_not_isVar hvar, hpaint, hlength]
  rfl

/-- The step of the loop over shadows in any source. -/
def shadowStep (allowInset : Bool) (source : Source) :
    ShadowState → Component → Except StepError (Option ShadowState) :=
  fun s c => (ShadowState.step source allowInset s c).map some

theorem stepsOn_length {w : Written} {l : Length} (hw : w.IsWord) (h : Leaf.Reads length w l)
    (hcount : s.current.lengths.length ≠ 4) :
    StepsOn (shadowStep allowInset) w s
      { s with current := { s.current with lengths := s.current.lengths ++ [l] } } := by
  intro source start hat
  have hl := h source start hat
  rw [shadowStep, ShadowState.step, noVar_of_not_isVar (hw.isVar start),
    attempted_paint_of_length hl, hl]
  simp only [Reader.attempted, StepError.ofLeaf, bind, Except.bind, if_neg hcount]
  rfl

theorem stepsOn_paint {w : Written} {p : Paint} (hw : w.IsWord) (h : Leaf.Reads paint w p)
    (hnone : s.current.paint = none) :
    StepsOn (shadowStep allowInset) w s
      { s with current := { s.current with paint := some p } } := by
  intro source start hat
  rw [shadowStep, ShadowState.step, noVar_of_not_isVar (hw.isVar start), h source start hat]
  simp only [Reader.attempted, StepError.ofLeaf, bind, Except.bind, hnone]
  rfl

/-- The word `inset`. -/
def insetWord : Written := ident ['i', 'n', 's', 'e', 't']

theorem isWord_inset : insetWord.IsWord := isWord_ident _ (by decide)

/-- The word `inset` spells no color. -/
theorem attempted_paint_inset {start : Nat} (hat : At source start insetWord.chars) :
    Reader.attempted (paint source (insetWord.component start)) = .ok none := by
  have htext : Paint.ofText (String.ofList insetWord.chars) = .ok none := by
    rw [Paint.ofText_of_fits isWord_inset
      (Written.fits_scanColorToken_token (by decide) isWord_inset)]
    decide
  have hnested : Leaf.noNestedVar source (insetWord.component start) = .ok () := rfl
  rw [paint, hnested, Written.textOf_component hat, htext]
  rfl

theorem stepsOn_inset (hinset : s.current.inset = false) :
    StepsOn (shadowStep true) insetWord s
      { s with current := { s.current with inset := true } } := by
  intro source start hat
  have hkeyword : (insetWord.component start).isKeyword "inset" = true := by
    rw [Written.isKeyword_component]
    decide
  rw [shadowStep, shadowStep_of_mark rfl (attempted_paint_inset hat) rfl]
  simp only [ShadowState.stepMark, hkeyword, hinset]
  rfl

theorem stepsOn_comma {x y : Length} {blur spread : Option Length}
    (hfinish : s.current.finish = .ok (x, y, blur, spread)) :
    StepsOn (shadowStep allowInset) comma s ⟨s.current :: s.finished, .empty⟩ := by
  intro source start _
  rw [shadowStep, shadowStep_of_mark rfl rfl rfl]
  have hcomma : (comma.component start).isComma = true := rfl
  simp only [ShadowState.stepMark, hcomma, hfinish, if_true]
  rfl

end Steps

/-! ## Shadows -/

section Shadows

variable (allowInset : Bool)

theorem isKeyword_of_reads_length {w : Written} {l : Length} (h : Leaf.Reads length w l)
    (k : String) : w.isKeyword k = false := by
  have hl := h ⟨w.chars⟩ 0 (Written.at_zero _)
  rw [← Written.isKeyword_component k w 0]
  generalize w.component 0 = c at hl
  unfold length at hl
  split at hl
  next => rfl
  next => rfl
  next => exact absurd hl (by simp [Leaf.unexpected])

/-- Lengths that are kept are added to those of the shadow that is being read. -/
theorem exists_words_lengths {ls : List Length} (hkept : ∀ l ∈ ls, keepsNumber l.value = true) :
    ∃ ws ls', ls.mapM Length.css = .ok (ws.map fun w => String.ofList w.chars) ∧
      (∀ w ∈ ws, w.IsWord ∧ ∀ k, w.isKeyword k = false) ∧ ws.length = ls.length ∧
      List.Forall₂ (fun a b : Length => (a == b) = true) ls' ls ∧
      ∀ s : ShadowState, s.current.lengths.length + ls.length ≤ 4 →
        RunsOn (shadowStep allowInset) ws s
          { s with current := { s.current with lengths := s.current.lengths ++ ls' } } := by
  induction ls with
  | nil =>
    refine ⟨[], [], rfl, fun _ h => absurd h List.not_mem_nil, rfl, .nil, fun s _ => ?_⟩
    rw [RunsOn, List.append_nil]
  | cons l ls ih =>
    obtain ⟨w, l', hcss, hw, -, hreads, hl⟩ := readsBack_length (hkept l List.mem_cons_self)
    obtain ⟨ws, ls', hcsss, hws, hcount, hls, hruns⟩ :=
      ih fun m hm => hkept m (List.mem_cons_of_mem _ hm)
    refine ⟨w :: ws, l' :: ls', ?_, ?_, congrArg (· + 1) hcount, .cons hl hls, fun s hs => ?_⟩
    · rw [List.mapM_cons, hcss, hcsss]
      rfl
    · exact List.forall_mem_cons.mpr ⟨⟨hw, isKeyword_of_reads_length hreads⟩, hws⟩
    · rw [List.length_cons] at hs
      refine ⟨_, stepsOn_length hw hreads (by omega), ?_⟩
      have hrest := hruns { s with current :=
        { s.current with lengths := s.current.lengths ++ [l'] } }
        (by rw [List.length_append, List.length_singleton]; omega)
      simpa only [List.append_assoc, List.singleton_append] using hrest

/-- A color that is kept is added to the shadow that is being read. -/
theorem exists_words_color {color : Option Color} (hkept : ∀ c ∈ color, c.isKept = true) :
    ∃ ws color', (∀ lengths written, lengths.mapM Length.css = .ok written →
        shadowWords lengths color = .ok (written ++ ws.map fun w => String.ofList w.chars)) ∧
      (∀ w ∈ ws, w.IsWord) ∧ (color' == color) = true ∧
      ∀ s : ShadowState, s.current.paint = none → RunsOn (shadowStep allowInset) ws s
        { s with current := { s.current with paint := color'.map .color } } := by
  cases color with
  | none =>
    refine ⟨[], none, fun lengths written h => ?_, fun _ h => absurd h List.not_mem_nil, rfl,
      fun s hs => ?_⟩
    · rw [shadowWords, h, List.map_nil, List.append_nil]
      rfl
    · rw [RunsOn, Option.map_none, ← hs]
  | some c =>
    obtain ⟨w, p, hcss, hw, -, hreads, hp⟩ := readsBack_paint (p := .color c) (hkept c rfl)
    cases p with
    | current => exact absurd hp Bool.false_ne_true
    | color c' =>
      refine ⟨[w], some c', fun lengths written h => ?_, List.forall_mem_singleton.mpr hw, hp,
        fun s hs => ⟨_, stepsOn_paint hw hreads hs, rfl⟩⟩
      have hcolor : c.css = .ok (String.ofList w.chars) := hcss
      rw [shadowWords, h]
      simp only [bind, Except.bind, hcolor]
      rfl

/-- The words of a shadow that is kept are read as the parts of the shadow. -/
theorem exists_words_shadow {lengths : List Length} {color : Option Color} (inset : Bool)
    (hlengths : ∀ l ∈ lengths, keepsNumber l.value = true) (hcolor : ∀ c ∈ color, c.isKept = true)
    (hne : lengths ≠ []) (hcount : lengths.length ≤ 4) (hinset : inset = true → allowInset = true) :
    ∃ ws written lengths' color', shadowWords lengths color = .ok written ∧
      (if inset then ["inset"] else []) ++ written = (ws.map fun w => String.ofList w.chars) ∧
      (∀ w ∈ ws, w.IsWord) ∧ Written.StartsUnlike ["initial", "inherit", "none"] ws ∧
      List.Forall₂ (fun a b : Length => (a == b) = true) lengths' lengths ∧
      (color' == color) = true ∧
      ∀ finished, RunsOn (shadowStep allowInset) ws ⟨finished, .empty⟩
        ⟨finished, ⟨lengths', color'.map .color, inset⟩⟩ := by
  obtain ⟨ws, lengths', hcss, hws, hsame, hbeq, hruns⟩ :=
    exists_words_lengths allowInset hlengths
  obtain ⟨vs, color', hcssColor, hvs, hcolorBeq, hrunsColor⟩ :=
    exists_words_color allowInset hcolor
  have hwords : ∀ w ∈ ws ++ vs, w.IsWord := fun w hw =>
    (List.mem_append.mp hw).elim (fun hw => (hws w hw).1) (hvs w)
  -- after the mark the lengths are read, and after them the color
  have hrest : ∀ finished, RunsOn (shadowStep allowInset) (ws ++ vs) ⟨finished, ⟨[], none, inset⟩⟩
      ⟨finished, ⟨lengths', color'.map .color, inset⟩⟩ := fun finished =>
    (hruns ⟨finished, ⟨[], none, inset⟩⟩ (by simpa using hcount)).append
      (hrunsColor ⟨finished, ⟨lengths', none, inset⟩⟩ rfl)
  obtain ⟨w, us, rfl⟩ := List.exists_cons_of_ne_nil (l := ws) fun h => by
    rw [h] at hsame
    exact hne (List.length_eq_zero_iff.mp hsame.symm)
  cases inset with
  | false =>
    refine ⟨_, _, lengths', color', hcssColor lengths _ hcss, List.map_append.symm, hwords,
      ⟨w, _, rfl, (hws w List.mem_cons_self).1.isBlank, fun k _ => (hws w List.mem_cons_self).2 k⟩,
      hbeq, hcolorBeq, hrest⟩
  | true =>
    obtain rfl := hinset rfl
    refine ⟨insetWord :: (w :: us ++ vs), _, lengths', color', hcssColor lengths _ hcss, ?_,
      List.forall_mem_cons.mpr ⟨isWord_inset, hwords⟩, ⟨insetWord, _, rfl, ?_⟩, hbeq, hcolorBeq,
      fun finished => ⟨_, stepsOn_inset rfl, hrest finished⟩⟩
    · rw [← List.map_append]
      rfl
    · exact ⟨rfl, by decide⟩

/-- A shadow that is kept is written as a phrase that is read as the parts of the shadow. -/
theorem exists_phrase_shadow {lengths : List Length} {color : Option Color} (inset : Bool)
    (hlengths : ∀ l ∈ lengths, keepsNumber l.value = true) (hcolor : ∀ c ∈ color, c.isKept = true)
    (hne : lengths ≠ []) (hcount : lengths.length ≤ 4) (hinset : inset = true → allowInset = true) :
    ∃ ws written lengths' color', shadowWords lengths color = .ok written ∧
      String.intercalate " " ((if inset then ["inset"] else []) ++ written) =
        String.ofList (listChars ws) ∧
      IsPhrase ws ∧ StartsUnlike ["initial", "inherit", "none"] ws ∧
      List.Forall₂ (fun a b : Length => (a == b) = true) lengths' lengths ∧
      (color' == color) = true ∧
      ∀ finished, FoldsOn (shadowStep allowInset) ws ⟨finished, .empty⟩
        ⟨finished, ⟨lengths', color'.map .color, inset⟩⟩ := by
  obtain ⟨ws, written, lengths', color', hwritten, htext, hws, hstarts, hbeq, hcolorBeq, hruns⟩ :=
    exists_words_shadow allowInset inset hlengths hcolor hne hcount hinset
  refine ⟨[space].intercalate (ws.map ([·])), written, lengths', color', hwritten, ?_, ?_, ?_, hbeq,
    hcolorBeq, fun finished => .spaced (fun w hw => (hws w hw).isBlank) (hruns finished)⟩
  · rw [htext, Written.intercalate_space]
  · refine Written.isPhrase_spaced ?_ ?_
    · obtain ⟨w, vs, rfl, -⟩ := hstarts
      simp
    · intro vs hvs
      obtain ⟨w, hw, rfl⟩ := List.mem_map.mp hvs
      exact (hws w hw).phrase
  · obtain ⟨w, vs, rfl, hblank, hkeywords⟩ := hstarts
    exact StartsUnlike.intercalate ⟨w, [], rfl, hblank, hkeywords⟩ _ _

end Shadows

/-! ## Lists of shadows -/

section Lists

variable {allowInset : Bool} {α : Type} [BEq α] {f : ShadowParts → Except Reason α}

/-- The entry of a list is written as a phrase that is read as the parts of an equal entry. -/
def ReadsShadow (allowInset : Bool) (f : ShadowParts → Except Reason α) (css : Except Fault String)
    (e : α) : Prop :=
  ∃ ws parts e', css = .ok (String.ofList (listChars ws)) ∧ IsPhrase ws ∧
    StartsUnlike ["initial", "inherit", "none"] ws ∧
    (∀ finished, FoldsOn (shadowStep allowInset) ws ⟨finished, .empty⟩ ⟨finished, parts⟩) ∧
    (∃ r, parts.finish = .ok r) ∧ f parts = .ok e' ∧ (e' == e) = true

/-- The state of the loop after the entries of a list: every one of them can be finished. -/
def HoldsShadows (f : ShadowParts → Except Reason α) (finished : List ShadowParts) (es : List α)
    (state : ShadowState) : Prop :=
  (∃ r, state.current.finish = .ok r) ∧
    ∃ parts, state.all = finished.reverse ++ parts ∧ parts.mapM f = .ok es

/-- The entries of a list are read one after the other. -/
theorem exists_phrases_shadows {css : α → Except Fault String} {es : List α}
    (h : ∀ e ∈ es, ReadsShadow allowInset f (css e) e) :
    ∃ wss es', es.mapM css = .ok (wss.map fun ws => String.ofList (listChars ws)) ∧
      wss.length = es.length ∧
      (∀ ws ∈ wss, IsPhrase ws ∧ StartsUnlike ["initial", "inherit", "none"] ws) ∧
      (es' == es) = true ∧
      ∀ finished, es ≠ [] → ∃ state, HoldsShadows f finished es' state ∧
        FoldsOn (shadowStep allowInset) ([comma, space].intercalate wss) ⟨finished, .empty⟩
          state := by
  induction es with
  | nil => exact ⟨[], [], rfl, rfl, by simp, rfl, fun _ hne => absurd rfl hne⟩
  | cons e es ih =>
    obtain ⟨ws, parts, e', hcss, hphrase, hstarts, hfolds, ⟨r, hr⟩, hf, he⟩ :=
      h e List.mem_cons_self
    obtain ⟨wss, es', hcsss, hlength, hphrases, hes, hrest⟩ :=
      ih fun d hd => h d (List.mem_cons_of_mem _ hd)
    refine ⟨ws :: wss, e' :: es', ?_, congrArg (· + 1) hlength,
      List.forall_mem_cons.mpr ⟨⟨hphrase, hstarts⟩, hphrases⟩, Bool.and_eq_true_iff.mpr ⟨he, hes⟩,
      fun finished _ => ?_⟩
    · rw [List.mapM_cons, hcss, hcsss]
      rfl
    · cases wss with
      | nil =>
        obtain rfl := List.length_eq_zero_iff.mp hlength.symm
        obtain rfl : es' = [] := by
          cases es' with
          | nil => rfl
          | cons => exact absurd hes Bool.false_ne_true
        refine ⟨⟨finished, parts⟩, ⟨⟨r, hr⟩, [parts], List.reverse_cons, ?_⟩, ?_⟩
        · rw [List.mapM_cons, hf]
          rfl
        · rw [List.intercalate_singleton]
          exact hfolds finished
      | cons vs wss =>
        have hne : es ≠ [] := by
          rintro rfl
          exact absurd hlength (by simp)
        obtain ⟨state, ⟨hfinish, more, hall, hmore⟩, hstate⟩ := hrest (parts :: finished) hne
        refine ⟨state, ⟨hfinish, parts :: more, ?_, ?_⟩, ?_⟩
        · rw [hall, List.reverse_cons, List.append_assoc]
          rfl
        · rw [List.mapM_cons, hf, hmore]
          rfl
        · rw [List.intercalate_cons_cons, List.append_assoc]
          exact (hfolds finished).append (.cons rfl (stepsOn_comma hr) hstate.space)

/-- **A list of shadows is read back, if every entry is.** -/
theorem exists_phrase_shadowList {css : α → Except Fault String} {es : List α} (hne : es ≠ [])
    (h : ∀ e ∈ es, ReadsShadow allowInset f (css e) e) :
    ∃ ws es', Value.cssList css es = .ok (String.ofList (listChars ws)) ∧ IsPhrase ws ∧
      StartsUnlike ["initial", "inherit", "none"] ws ∧ (es' == es) = true ∧
      ∃ parts, (shadowList allowInset).ReadsAll ws (some parts) ∧ parts.mapM f = .ok es' := by
  obtain ⟨wss, es', hcss, hlength, hphrases, hes, hrest⟩ := exists_phrases_shadows h
  obtain ⟨state, ⟨⟨r, hfinish⟩, parts, hall, hparts⟩, hfolds⟩ := hrest [] hne
  obtain ⟨ws, wss, rfl⟩ := List.exists_cons_of_ne_nil (l := wss) fun hnil => by
    rw [hnil] at hlength
    exact hne (List.length_eq_zero_iff.mp hlength.symm)
  have hstarts := (hphrases ws List.mem_cons_self).2.intercalate [comma, space] wss
  refine ⟨[comma, space].intercalate (ws :: wss), es', ?_,
    Written.isPhrase_listed (by simp) fun vs hvs => (hphrases vs hvs).1, hstarts, hes, parts,
    fun source start hat => ?_, hparts⟩
  · rw [Value.cssList, hcss, ← Written.intercalate_comma]
    rfl
  · refine .bind (.isKeywordExhausted (hstarts.head?_words (by simp) start)) ?_
    rw [if_neg Bool.false_ne_true]
    refine .bind .source_ (.bind (hfolds.takes hat) ?_)
    rw [hfinish, hall]
    exact .pure _

end Lists

/-! ## Boxes and text -/

/-- Equal lengths are on the same side of zero, and so are equal optional ones. -/
theorem finish_parts {x y blur : Length} {spread : Option Length} (lengths : List Length)
    (hlengths : lengths = [x, y, blur] ++ spread.toList) (paint : Option Paint) (inset : Bool)
    (hblur : blur.isNegative = false) :
    (ShadowParts.mk lengths paint inset).finish = .ok (x, y, some blur, spread) := by
  subst hlengths
  cases spread <;> simp [ShadowParts.finish, hblur] <;> rfl

theorem color?_map (color : Option Color) : (color.map Paint.color).bind Paint.color? = color := by
  cases color <;> rfl

end Grammar

/-- The numbers and the color of a shadow are kept, and its blur is not negative. -/
def BoxShadow.isKept (s : BoxShadow) : Bool :=
  [s.offsetX, s.offsetY, s.blur, s.spread].all (keepsNumber ·.value) && s.color.all Color.isKept &&
    !s.blur.isNegative

/-- The numbers and the color of a shadow are kept, and its blur is not negative. -/
def TextShadow.isKept (s : TextShadow) : Bool :=
  [s.offsetX, s.offsetY, s.blur].all (keepsNumber ·.value) && s.color.all Color.isKept &&
    !s.blur.isNegative

namespace Grammar

theorem readsShadow_boxShadow {s : BoxShadow} (h : s.isKept = true) :
    ReadsShadow true boxShadowOf s.css s := by
  simp only [BoxShadow.isKept, Bool.and_eq_true, List.all_eq_true, Option.all_eq_true,
    Bool.not_eq_true'] at h
  obtain ⟨⟨hlengths, hcolor⟩, hblur⟩ := h
  obtain ⟨ws, written, lengths', color', hwritten, htext, hphrase, hstarts, hbeq, hcolorBeq,
      hfolds⟩ := exists_phrase_shadow true s.inset hlengths hcolor (by simp) (by simp) fun _ => rfl
  obtain ⟨x, _, hx, h₁, rfl⟩ := List.forall₂_cons_right_iff.mp hbeq
  obtain ⟨y, _, hy, h₂, rfl⟩ := List.forall₂_cons_right_iff.mp h₁
  obtain ⟨blur, _, hblurBeq, h₃, rfl⟩ := List.forall₂_cons_right_iff.mp h₂
  obtain ⟨spread, _, hspread, h₄, rfl⟩ := List.forall₂_cons_right_iff.mp h₃
  obtain rfl := List.forall₂_nil_right_iff.mp h₄
  have hlist : [x, y, blur, spread] = [x, y, blur] ++ (some spread).toList := rfl
  have hfinish := finish_parts _ hlist (color'.map .color) s.inset
    ((isNegative_congr_length hblurBeq).trans hblur)
  refine ⟨ws, _, ⟨x, y, blur, spread, color', s.inset⟩, ?_, hphrase, hstarts, hfolds, ⟨_, hfinish⟩,
    ?_, ?_⟩
  · rw [BoxShadow.css, hwritten]
    exact congrArg Except.ok htext
  · simp only [boxShadowOf, hfinish, bind, Except.bind, ShadowParts.color?, color?_map]
    rfl
  · change (x == s.offsetX && (y == s.offsetY && (blur == s.blur && (spread == s.spread &&
      (color' == s.color && s.inset == s.inset))))) = true
    simp only [hx, hy, hblurBeq, hspread, hcolorBeq, beq_self_eq_true, Bool.and_self]

theorem readsShadow_textShadow {s : TextShadow} (h : s.isKept = true) :
    ReadsShadow false textShadowOf s.css s := by
  simp only [TextShadow.isKept, Bool.and_eq_true, List.all_eq_true, Option.all_eq_true,
    Bool.not_eq_true'] at h
  obtain ⟨⟨hlengths, hcolor⟩, hblur⟩ := h
  obtain ⟨ws, written, lengths', color', hwritten, htext, hphrase, hstarts, hbeq, hcolorBeq,
      hfolds⟩ := exists_phrase_shadow false false hlengths hcolor (by simp) (by simp)
    fun h => absurd h Bool.false_ne_true
  obtain ⟨x, _, hx, h₁, rfl⟩ := List.forall₂_cons_right_iff.mp hbeq
  obtain ⟨y, _, hy, h₂, rfl⟩ := List.forall₂_cons_right_iff.mp h₁
  obtain ⟨blur, _, hblurBeq, h₃, rfl⟩ := List.forall₂_cons_right_iff.mp h₂
  obtain rfl := List.forall₂_nil_right_iff.mp h₃
  have hlist : [x, y, blur] = [x, y, blur] ++ (none : Option Length).toList := rfl
  have hfinish := finish_parts _ hlist (color'.map .color) false
    ((isNegative_congr_length hblurBeq).trans hblur)
  refine ⟨ws, _, ⟨x, y, blur, color'⟩, ?_, hphrase, hstarts, hfolds, ⟨_, hfinish⟩, ?_, ?_⟩
  · rw [TextShadow.css, hwritten]
    exact congrArg Except.ok htext
  · simp only [textShadowOf, hfinish, bind, Except.bind, ShadowParts.color?, color?_map]
    rfl
  · change (x == s.offsetX && (y == s.offsetY && (blur == s.blur && color' == s.color))) = true
    simp only [hx, hy, hblurBeq, hcolorBeq, Bool.and_self]

/-- **A list of shadows of a box that are kept is read back.** -/
theorem readsBack_boxShadow {shadows : List BoxShadow} (hne : shadows ≠ [])
    (h : ∀ s ∈ shadows, s.isKept = true) :
    boxShadow.ReadsBack (Value.cssList BoxShadow.css shadows) (some shadows) := by
  obtain ⟨ws, es, hcss, hphrase, hstarts, hes, parts, hreads, hparts⟩ :=
    exists_phrase_shadowList hne fun s hs => readsShadow_boxShadow (h s hs)
  refine ⟨ws, some es, hcss, hphrase, hstarts.mono (by simp), fun source start hat => ?_, hes⟩
  refine .bind (hreads source start hat) ?_
  simp only [shadowsOf, hparts]
  exact .pure _

/-- **A list of shadows of text that are kept is read back.** -/
theorem readsBack_textShadow {shadows : List TextShadow} (hne : shadows ≠ [])
    (h : ∀ s ∈ shadows, s.isKept = true) :
    textShadow.ReadsBack (Value.cssList TextShadow.css shadows) (some shadows) := by
  obtain ⟨ws, es, hcss, hphrase, hstarts, hes, parts, hreads, hparts⟩ :=
    exists_phrase_shadowList hne fun s hs => readsShadow_textShadow (h s hs)
  refine ⟨ws, some es, hcss, hphrase, hstarts.mono (by simp), fun source start hat => ?_, hes⟩
  refine .bind (hreads source start hat) ?_
  simp only [shadowsOf, hparts]
  exact .pure _

end Grammar

end Styling
