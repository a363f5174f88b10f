import Mathlib
import Styling.Proofs.Grammar.Rereading.Introduction

/-!
# Gradients that are read back

A gradient is written with all of its stops placed.  Stops that are placed in order are left alone
by normalization, so the stops that are read are the stops that were written.

* `normalizeStops_placed` is about normalization.
* `Grammar.exists_phrases_stops` is about the text of stops.
* `Grammar.exists_phrase_gradient` is about the inside of one gradient.
* `Grammar.readsBack_backgroundImage` is the main result.
-/

namespace Styling

open Written (At IsPhrase StartsUnlike comma listChars percentage space words isWord_percentage)

/-! ## Stops that are placed -/

section Placed

variable {κ α ε : Type}

/-- The piece of a stop at its place. -/
def Stop.piece (s : Stop κ α) : StopPiece κ α :=
  .stop s.color (some s.position)

/-- A default position at the end changes nothing where all stops are placed. -/
theorem mapLast_map_piece (default : α) (stops : List (Stop κ α)) :
    StopPiece.mapLast (StopPiece.withDefault default) (stops.map Stop.piece) =
      stops.map Stop.piece := by
  induction stops with
  | nil => rfl
  | cons s stops ih =>
    cases stops with
    | nil => rfl
    | cons t stops => exact congrArg (s.piece :: ·) ih

variable [LT α]

/-- No stop lies before the one in front of it. -/
def Stop.Ascending (stops : List (Stop κ α)) : Prop :=
  stops.IsChain fun s t => ¬ t.position < s.position

variable [Add α] [Sub α] [Mul α] [Div α] [DecidableLT α]

theorem placeFrom_placed (ofNat : Nat → α) (mix : Stop κ α → Stop κ α → α → Except ε κ)
    {before : Stop κ α} {stops : List (Stop κ α)} (h : Stop.Ascending (before :: stops)) :
    StopPiece.placeFrom ofNat mix before (stops.map Stop.piece) = .ok stops := by
  induction stops generalizing before with
  | nil => rw [List.map_nil, StopPiece.placeFrom]; rfl
  | cons s stops ih =>
    obtain ⟨hs, hrest⟩ := List.isChain_cons_cons.mp h
    have hsegment : StopPiece.segment? ((s :: stops).map Stop.piece) =
        some ⟨[], 0, s.color, s.position, stops.map Stop.piece⟩ := rfl
    have hlast : larger s.position before.position = s.position := if_neg hs
    rw [StopPiece.placeFrom]
    split
    next hnone => exact absurd (hsegment.symm.trans hnone) (by simp)
    next t ht =>
      obtain rfl := Option.some.inj (hsegment.symm.trans ht)
      simp only [hlast, StopPiece.placeInner, StopPiece.placeInner.finishStop, bind, Except.bind]
      rw [ih hrest]
      rfl

variable [OfNat α 0] [OfNat α 1]

/-- **Normalization leaves stops alone that are placed in order.** -/
theorem normalizeStops_placed (ofNat : Nat → α) (mix : Stop κ α → Stop κ α → α → Except ε κ)
    {stops : List (Stop κ α)} (hcount : 2 ≤ stops.length) (h : Stop.Ascending stops) :
    normalizeStops ofNat mix (stops.map Stop.piece) = .ok stops := by
  obtain ⟨s, stops, rfl⟩ := List.exists_cons_of_length_pos (Nat.lt_of_lt_of_le Nat.two_pos hcount)
  have hhints : ∀ p ∈ (s :: stops).map Stop.piece, p.isHint = false := by
    intro p hp
    obtain ⟨t, -, rfl⟩ := List.mem_map.mp hp
    rfl
  have hshape : StopPiece.shapeError? ((s :: stops).map Stop.piece) = none := by
    have hall : ((s :: stops).map Stop.piece).filter (fun p => !p.isHint) =
        (s :: stops).map Stop.piece :=
      List.filter_eq_self.mpr fun p hp => by rw [hhints p hp]; rfl
    have hlast : ((s :: stops).map Stop.piece).getLast?.any StopPiece.isHint = false := by
      rw [Option.any_eq_false]
      intro p hp
      rw [hhints p (List.mem_of_getLast? hp)]
    rw [StopPiece.shapeError?, hall, List.length_map, if_neg (by omega),
      if_neg (by rw [List.map_cons]; exact Bool.false_ne_true),
      if_neg (by rw [hlast]; exact Bool.false_ne_true)]
  have hends : StopPiece.withEnds ((s :: stops).map Stop.piece) = (s :: stops).map Stop.piece :=
    mapLast_map_piece 1 (s :: stops)
  rw [normalizeStops, hshape]
  dsimp only
  rw [hends]
  simp only [List.map_cons, Stop.piece]
  rw [← funext (f := Stop.piece) fun _ => rfl, placeFrom_placed ofNat mix h]
  rfl

end Placed

namespace Grammar

/-! ## The stops -/

section Steps

variable {pieces : List (StopPiece Paint Float)} {c : Paint} {x : Float}

theorem isPercentage_of_mayBePaint {d : Component} (h : mayBePaint d = true) :
    StopState.isPercentage d = false := by
  unfold mayBePaint at h
  split at h
  next => rfl
  next => rfl
  next => rfl
  next => exact absurd h Bool.false_ne_true

/-- A color where a stop has to follow. -/
theorem stepsOn_stopColor {w : Written} (hw : w.IsWord) (h : Leaf.Reads paint w c) :
    StepsOn StopState.step w (pieces, .expecting) (pieces, .afterColor c []) := by
  intro source start hat
  have hc := h source start hat
  have hpercentage := isPercentage_of_mayBePaint (mayBePaint_of_paint hc)
  simp only [StopState.step, hpercentage, noVar_of_not_isVar (hw.isVar start), hc, bind,
    Except.bind, Bool.false_eq_true, if_false]
  rfl

/-- The position of a stop. -/
theorem stepsOn_stopPosition {p : NumeralParts}
    (h : (Numeral.ofParts p).quantity.hundredth = .ok x) :
    StepsOn StopState.step (percentage p) (pieces, .afterColor c [])
      (pieces, .afterColor c [x]) := by
  intro source start _
  have hx : Reader.percentageLeaf source ((percentage p).component start) = .ok x := by
    simp only [percentage, Written.component, Reader.percentageLeaf, h]
    rfl
  have hpercentage : StopState.isPercentage ((percentage p).component start) = true := rfl
  simp only [StopState.step, hpercentage, hx]
  rfl

/-- The comma after a stop. -/
theorem stepsOn_stopComma :
    StepsOn StopState.step comma (pieces, .afterColor c [x])
      (pieces ++ [.stop c (some x)], .expecting) :=
  fun _ _ _ => rfl

end Steps

end Grammar

/-- The position and the color of a stop are kept. -/
def Stop.isKept (s : Stop Paint Float) : Bool :=
  keepsPercentage s.position && s.color.isKept

namespace Grammar

/-- A phrase starts with a color that starts no introduction. -/
def StartsWithColor (ws : List Written) : Prop :=
  ∃ w vs c, ws = w :: vs ∧ w.IsWord ∧ (∀ k ∈ Written.reserved, w.isKeyword k = false) ∧
    Leaf.Reads paint w c

theorem StartsWithColor.intercalate {ws : List Written} (h : StartsWithColor ws)
    (sep : List Written) (wss : List (List Written)) :
    StartsWithColor (sep.intercalate (ws :: wss)) := by
  obtain ⟨w, vs, c, rfl, hw⟩ := h
  exact ⟨w, _, c, List.intercalate_cons_cons_left, hw⟩

theorem StartsWithColor.exists_words {ws : List Written} (h : StartsWithColor ws) {source : Source}
    {start : Nat} (hat : At source start (listChars ws)) :
    ∃ d ds, words start ws = d :: ds ∧ StartsStop d := by
  obtain ⟨w, vs, c, rfl, hw, hreserved, hreads⟩ := h
  rw [Written.listChars] at hat
  refine ⟨_, _, Written.words_cons hw.isBlank start vs, hw.isVar start,
    mayBePaint_of_paint (hreads source start hat.left), ?_, ?_⟩
  · rw [Written.isKeyword_component]
    exact hreserved "to" (by decide)
  · rw [Written.isKeyword_component]
    exact hreserved "in" (by decide)

/-- A stop that is kept is written as its color and its position. -/
theorem exists_phrase_stop {s : Stop Paint Float} (h : s.isKept = true) :
    ∃ ws t, LinearGradient.stopCss s = .ok (String.ofList (listChars ws)) ∧ IsPhrase ws ∧
      StartsWithColor ws ∧ (t == s) = true ∧ ∀ pieces,
        FoldsOn StopState.step ws (pieces, .expecting)
          (pieces, .afterColor t.color [t.position]) := by
  obtain ⟨hposition, hcolor⟩ := Bool.and_eq_true_iff.mp h
  obtain ⟨w, c, hcss, hw, hreserved, hreads, hc⟩ := readsBack_paint hcolor
  obtain ⟨p, x, hp, hx, hxbeq⟩ := exists_shows_of_keepsPercentage hposition
  have hpercentage := isWord_percentage hp.plain hp.small
  refine ⟨[w, space, percentage p], ⟨x, c⟩, ?_, hw.phrase.spaced hpercentage.phrase,
    ⟨w, _, c, rfl, hw, hreserved, hreads⟩, Bool.and_eq_true_iff.mpr ⟨hxbeq, hc⟩, fun pieces => ?_⟩
  · rw [LinearGradient.stopCss, hcss, hp.text]
    refine congrArg Except.ok (String.toList_inj.mp ?_)
    simp [Written.listChars, Written.chars, space, percentage, toString]
  · have hrest : FoldsOn StopState.step [percentage p] (pieces, .afterColor c [])
        (pieces, .afterColor c [x]) := .cons rfl (stepsOn_stopPosition hx) (.nil _)
    exact .cons hw.isBlank (stepsOn_stopColor hw hreads) hrest.space

/-- Stops that are kept are read one after the other. -/
theorem exists_phrases_stops {stops : List (Stop Paint Float)} (h : ∀ s ∈ stops, s.isKept = true) :
    ∃ wss ts, stops.mapM LinearGradient.stopCss =
        .ok (wss.map fun ws => String.ofList (listChars ws)) ∧
      (∀ ws ∈ wss, IsPhrase ws ∧ StartsWithColor ws) ∧ wss.length = stops.length ∧
      List.Forall₂ (fun t s : Stop Paint Float => (t == s) = true) ts stops ∧
      ∀ pieces, stops ≠ [] → ∃ before c x,
        before ++ [.stop c (some x)] = pieces ++ ts.map Stop.piece ∧
        FoldsOn StopState.step ([comma, space].intercalate wss) (pieces, .expecting)
          (before, .afterColor c [x]) := by
  induction stops with
  | nil => exact ⟨[], [], rfl, by simp, rfl, .nil, fun _ hne => absurd rfl hne⟩
  | cons s stops ih =>
    obtain ⟨ws, t, hcss, hphrase, hstarts, ht, hfolds⟩ :=
      exists_phrase_stop (h s List.mem_cons_self)
    obtain ⟨wss, ts, hcsss, hphrases, hlength, hts, hrest⟩ :=
      ih fun r hr => h r (List.mem_cons_of_mem _ hr)
    refine ⟨ws :: wss, t :: ts, ?_, List.forall_mem_cons.mpr ⟨⟨hphrase, hstarts⟩, hphrases⟩,
      congrArg (· + 1) hlength, .cons ht hts, fun pieces _ => ?_⟩
    · rw [List.mapM_cons, hcss, hcsss]
      rfl
    · cases wss with
      | nil =>
        obtain rfl := List.length_eq_zero_iff.mp hlength.symm
        obtain rfl := List.forall₂_nil_right_iff.mp hts
        refine ⟨pieces, t.color, t.position, rfl, ?_⟩
        rw [List.intercalate_singleton]
        exact hfolds pieces
      | cons vs wss =>
        have hne : stops ≠ [] := by
          rintro rfl
          exact absurd hlength (by simp)
        obtain ⟨before, c, x, hbefore, hmore⟩ := hrest (pieces ++ [t.piece]) hne
        refine ⟨before, c, x, by rw [hbefore, List.append_assoc]; rfl, ?_⟩
        rw [List.intercalate_cons_cons, List.append_assoc]
        exact (hfolds pieces).append (.cons rfl stepsOn_stopComma hmore.space)

/-! ## Gradients -/

/-- The stops of a gradient are read after its introduction. -/
def gradientStops (angle : GradientAngle) (space : ColorSpace) (hue : HueDirection) :
    Reader LinearGradient := do
  let pieces ← stopPieces
  Reader.expectExhausted
  let stops ← placedStops space hue pieces
  return ⟨angle, stops, space, hue⟩

theorem readsAll_gradientStops {ws : List Written} {before : List (StopPiece Paint Float)}
    {c : Paint} {x : Float} {stops : List (Stop Paint Float)}
    (hstops : before ++ [.stop c (some x)] = stops.map Stop.piece)
    (hfolds : FoldsOn StopState.step ws ([], .expecting) (before, .afterColor c [x]))
    (hcount : 2 ≤ stops.length) (hascending : Stop.Ascending stops) (angle : GradientAngle)
    (space : ColorSpace) (hue : HueDirection) :
    (gradientStops angle space hue).ReadsAll ws ⟨angle, stops, space, hue⟩ := by
  intro source start hat
  have hpieces : stopPieces.Takes source (words start ws) (stops.map Stop.piece) [] := by
    rw [← hstops]
    exact .bind .source_ (.bind (hfolds.takes hat) (.pure _))
  refine .bind hpieces (.bind .expectExhausted (.bind (a := stops) ?_ (.pure _)))
  rw [placedStops, normalizeStops_placed _ _ hcount hascending]
  exact .pure stops

/-- Equal stops are placed in order if the others are. -/
theorem ascending_of_beq {stops ts : List (Stop Paint Float)}
    (h : List.Forall₂ (fun t s : Stop Paint Float => (t == s) = true) ts stops)
    (hascending : Stop.Ascending stops) : Stop.Ascending ts := by
  induction h with
  | nil => exact .nil
  | @cons t s ts stops ht hts ih =>
    cases hts with
    | nil => exact .singleton t
    | @cons u r us rs hu hus =>
      obtain ⟨hr, hrest⟩ := List.isChain_cons_cons.mp hascending
      refine .cons_cons (fun hlt => hr ?_) (ih hrest)
      rw [← Binary64.lt_congr_left (Bool.and_eq_true_iff.mp hu).1,
        ← Binary64.lt_congr_right (Bool.and_eq_true_iff.mp ht).1]
      exact hlt

theorem beq_of_forall₂ {α : Type} [BEq α] {as bs : List α}
    (h : List.Forall₂ (fun a b => (a == b) = true) as bs) : (as == bs) = true := by
  induction h with
  | nil => rfl
  | cons hab _ ih => exact Bool.and_eq_true_iff.mpr ⟨hab, ih⟩

/-- A direction that is kept equals itself. -/
theorem beq_self_angle {a : GradientAngle} (h : a.isKept = true) : (a == a) = true := by
  cases a with
  | side s => exact beq_self_eq_true s
  | radians x => exact Binary64.beq_self_of_isFinite h

end Grammar

/-- The direction and the stops of a gradient are kept, and there are at least two stops, placed in
order. -/
def LinearGradient.isKept (g : LinearGradient) : Bool :=
  g.angle.isKept && g.stops.all Stop.isKept && decide (2 ≤ g.stops.length) &&
    decide (g.stops.IsChain fun s t => ¬ t.position < s.position)

namespace Grammar

/-- The text of the parts of a gradient. -/
theorem css_of_stops {g : LinearGradient} {wss : List (List Written)}
    (hstops : g.stops.mapM LinearGradient.stopCss =
      .ok (wss.map fun ws => String.ofList (listChars ws))) (introduction : List (List Written))
    (htexts : (if g.introduction.isEmpty then [] else [String.intercalate " " g.introduction]) =
      introduction.map fun ws => String.ofList (listChars ws)) :
    g.css = .ok ("linear-gradient(" ++
      String.ofList (listChars ([comma, space].intercalate (introduction ++ wss))) ++ ")") := by
  rw [LinearGradient.css, hstops, ← Written.intercalate_comma, List.map_append, ← htexts]
  rfl

/-- Without an introduction the stops are read from the start. -/
theorem readsAll_linearGradient_of_stops {g g' : LinearGradient} {ws : List Written}
    (hnone : g.introduction = []) (hstarts : StartsWithColor ws)
    (h : (gradientStops g.angle g.space g.hue).ReadsAll ws g') :
    linearGradient.ReadsAll ws g' := by
  intro source start hat
  obtain ⟨d, ds, hwords, hd⟩ := hstarts.exists_words hat
  obtain ⟨hangle, hspace, hhue⟩ := default_of_introduction_eq_nil hnone
  have hstops := h source start hat
  rw [hangle, hspace, hhue, hwords] at hstops
  rw [hwords, linearGradient_eq]
  exact .bind (takes_introduction_none hd) hstops

/-- After an introduction and a comma the stops are read. -/
theorem readsAll_linearGradient_of_introduction {g g' : LinearGradient} {vs ws : List Written}
    (hread : ReadsIntroduction vs g) (h : (gradientStops g.angle g.space g.hue).ReadsAll ws g') :
    linearGradient.ReadsAll (vs ++ comma :: space :: ws) g' := by
  intro source start hat
  rw [Written.listChars_append] at hat
  rw [Written.words_append, Written.words_cons rfl, linearGradient_eq]
  obtain ⟨angle, hasSpace, hsome, hangle, htakes⟩ :=
    hread.2.2 source start (comma.component (start + (listChars vs).length))
      (words (start + (listChars vs).length + 1) (space :: ws)) hat.left rfl
  refine .bind htakes ?_
  rw [hsome, if_pos rfl, hangle]
  exact .bind (.leaf rfl rfl) (h.space source _ hat.right.tail)

/-- The inside of a gradient is read. -/
theorem exists_phrase_gradient {g : LinearGradient} (h : g.isKept = true) :
    ∃ ws g', g.css = .ok ("linear-gradient(" ++ String.ofList (listChars ws) ++ ")") ∧ IsPhrase ws ∧
      linearGradient.ReadsAll ws g' ∧ (g' == g) = true := by
  simp only [LinearGradient.isKept, Bool.and_eq_true, List.all_eq_true, decide_eq_true_eq] at h
  obtain ⟨⟨⟨hangle, hstops⟩, hcount⟩, hascending⟩ := h
  obtain ⟨wss, ts, hcss, hphrases, hlength, hts, hreads⟩ := exists_phrases_stops hstops
  have hne : g.stops ≠ [] := by
    intro hnil
    rw [hnil] at hcount
    exact absurd hcount (by decide)
  obtain ⟨ws, rest, rfl⟩ := List.exists_cons_of_ne_nil (l := wss) fun hnil => by
    rw [hnil] at hlength
    exact hne (List.length_eq_zero_iff.mp hlength.symm)
  obtain ⟨before, c, x, hbefore, hfolds⟩ := hreads [] hne
  have hall := readsAll_gradientStops hbefore hfolds (hts.length_eq ▸ hcount)
    (ascending_of_beq hts hascending) g.angle g.space g.hue
  have hbeq : ((⟨g.angle, ts, g.space, g.hue⟩ : LinearGradient) == g) = true := by
    change (g.angle == g.angle && (ts == g.stops && (g.space == g.space && g.hue == g.hue))) = true
    rw [beq_self_angle hangle, beq_of_forall₂ hts, beq_self_eq_true, beq_self_eq_true]
    rfl
  have hlisted : IsPhrase ([comma, space].intercalate (ws :: rest)) :=
    Written.isPhrase_listed (by simp) fun vs hvs => (hphrases vs hvs).1
  by_cases hnone : g.introduction = []
  · refine ⟨_, _, css_of_stops hcss [] (by rw [hnone]; rfl), hlisted, ?_, hbeq⟩
    have hstarts := (hphrases ws List.mem_cons_self).2.intercalate [comma, space] rest
    exact readsAll_linearGradient_of_stops hnone hstarts hall
  · obtain ⟨vs, hread⟩ := exists_readsIntroduction hangle hnone
    have hempty : g.introduction.isEmpty = false := List.isEmpty_eq_false_iff.mpr hnone
    refine ⟨_, _, css_of_stops hcss [vs] (by rw [hempty, hread.1]; rfl), ?_, ?_, hbeq⟩
    · rw [List.singleton_append, List.intercalate_cons_cons, List.append_assoc]
      exact hread.2.1.listed hlisted
    · rw [List.singleton_append, List.intercalate_cons_cons, List.append_assoc]
      exact readsAll_linearGradient_of_introduction hread hall

/-- The call of a gradient is a word that is read. -/
theorem exists_word_gradient {g : LinearGradient} (h : g.isKept = true) :
    ∃ w g', g.css = .ok (String.ofList w.chars) ∧ w.IsWord ∧ (∀ k, w.isKeyword k = false) ∧
      (∀ start, (w.component start).isComma = false) ∧ Leaf.Reads gradientLeaf w g' ∧
      (g' == g) = true := by
  obtain ⟨ws, g', hcss, hphrase, hreads, hbeq⟩ := exists_phrase_gradient h
  refine ⟨.call "linear-gradient".toList ws, g', ?_,
    Written.isWord_call _ (by decide) (by decide) hphrase, fun _ => rfl, fun _ => rfl,
    fun source start hat => ?_, hbeq⟩
  · rw [hcss]
    refine congrArg Except.ok (String.toList_inj.mp ?_)
    simp [Written.chars]
  · have hinside := hreads.inside_call hat (c := ⟨source, [], 0, 0⟩) rfl
    have hcall : ((Written.call "linear-gradient".toList ws).component start).isCall
        "linear-gradient" = true := by
      have hname : (Text.lowercase (String.ofList "linear-gradient".toList) == "linear-gradient") =
          true := by decide
      exact hname
    rw [← hinside]
    simp only [gradientLeaf, Written.component, Reader.functionLeaf, bind, Except.bind] at hcall ⊢
    rw [if_pos hcall]
    rfl

/-! ## Lists of gradients -/

/-- Gradients that are kept are written as calls that are read. -/
theorem exists_words_gradients {gs : List LinearGradient} (h : ∀ g ∈ gs, g.isKept = true) :
    ∃ ws gs', gs.mapM LinearGradient.css = .ok (ws.map fun w => String.ofList w.chars) ∧
      (∀ w ∈ ws, w.IsWord ∧ (∀ k, w.isKeyword k = false) ∧
        ∀ start, (w.component start).isComma = false) ∧
      List.Forall₂ (Leaf.Reads gradientLeaf) ws gs' ∧
      List.Forall₂ (fun a b : LinearGradient => (a == b) = true) gs' gs := by
  induction gs with
  | nil => exact ⟨[], [], rfl, fun _ h => absurd h List.not_mem_nil, .nil, .nil⟩
  | cons g gs ih =>
    obtain ⟨w, g', hcss, hw, hkeyword, hcomma, hreads, hg⟩ :=
      exists_word_gradient (h g List.mem_cons_self)
    obtain ⟨ws, gs', hcsss, hws, hrest, hgs⟩ := ih fun d hd => h d (List.mem_cons_of_mem _ hd)
    refine ⟨w :: ws, g' :: gs', ?_, List.forall_mem_cons.mpr ⟨⟨hw, hkeyword, hcomma⟩, hws⟩,
      .cons hreads hrest, .cons hg hgs⟩
    rw [List.mapM_cons, hcss, hcsss]
    rfl

/-- A part of a value holds one word. -/
def HoldsWord (source : Source) (part : List Component) (w : Written) : Prop :=
  ∃ start, At source start w.chars ∧ part = [w.component start]

/-- Words with commas between them are the parts between the commas. -/
theorem forall₂_splitAtCommas {ws : List Written} (hne : ws ≠ [])
    (hws : ∀ w ∈ ws, w.IsWord ∧ ∀ start, (w.component start).isComma = false) {start : Nat}
    (hat : At source start (listChars ([comma, space].intercalate (ws.map ([·]))))) (stop : Nat) :
    List.Forall₂ (HoldsWord source)
      ((Cursor.splitAtCommas stop (words start ([comma, space].intercalate (ws.map ([·]))))).map
        (·.1)) ws := by
  induction ws generalizing start with
  | nil => exact absurd rfl hne
  | cons w ws ih =>
    obtain ⟨hw, hcomma⟩ := hws w List.mem_cons_self
    cases ws with
    | nil =>
      rw [List.map_singleton, List.intercalate_singleton] at hat ⊢
      rw [Written.listChars_singleton] at hat
      rw [Written.words_singleton hw.isBlank]
      simp only [Cursor.splitAtCommas, hcomma start, Bool.false_eq_true, if_false,
        List.map_singleton]
      exact .cons ⟨start, hat, rfl⟩ .nil
    | cons v ws =>
      rw [List.map_cons, List.map_cons, List.intercalate_cons_cons, List.append_assoc] at hat ⊢
      rw [Written.listChars_append] at hat
      rw [Written.words_append, Written.words_singleton hw.isBlank, List.cons_append,
        List.nil_append, List.cons_append, Written.words_cons rfl]
      have hrest := ih (List.cons_ne_nil _ _) (fun u hu => hws u (List.mem_cons_of_mem _ hu))
        hat.right.tail.tail
      have hseparator : (comma.component (start + (listChars [w]).length)).isComma = true := rfl
      simp only [Cursor.splitAtCommas, hcomma start, hseparator, Bool.false_eq_true,
        if_false, if_true, List.map_cons]
      rw [Written.listChars_singleton] at hat
      exact .cons ⟨start, hat.left, rfl⟩ hrest

/-- Parts that hold one word each are read one after the other. -/
theorem mapM_inside_leaf {α : Type} {f : Leaf α} {parts : List Cursor} {ws : List Written}
    {as : List α} (hsource : ∀ c ∈ parts, c.source = source)
    (hparts : List.Forall₂ (HoldsWord source) (parts.map Cursor.pending) ws)
    (hws : ∀ w ∈ ws, w.IsWord) (h : List.Forall₂ (Leaf.Reads f) ws as) :
    parts.mapM (Reader.leaf f).inside = .ok as := by
  induction h generalizing parts with
  | nil =>
    obtain rfl := List.map_eq_nil_iff.mp (List.forall₂_nil_right_iff.mp hparts)
    rfl
  | @cons w a ws as hw _ ih =>
    cases parts with
    | nil => exact absurd hparts (by simp)
    | cons c parts =>
      obtain ⟨⟨start, hat, hpending⟩, hrest⟩ := List.forall₂_cons.mp hparts
      have htakes : (Reader.leaf f).Takes source [w.component start] a [] :=
        .leaf ((hws w List.mem_cons_self).isVar start) (hw source start hat)
      rw [List.mapM_cons, htakes.inside (hsource c List.mem_cons_self) hpending,
        ih (fun d hd => hsource d (List.mem_cons_of_mem _ hd)) hrest
          fun v hv => hws v (List.mem_cons_of_mem _ hv)]
      rfl

/-- **A list of gradients that are kept is read back.** -/
theorem readsBack_backgroundImage {gs : List LinearGradient} (hne : gs ≠ [])
    (h : ∀ g ∈ gs, g.isKept = true) :
    backgroundImage.ReadsBack (Value.cssList LinearGradient.css gs) (some gs) := by
  obtain ⟨ws, gs', hcss, hws, hreads, hgs⟩ := exists_words_gradients h
  obtain ⟨w, vs, rfl⟩ := List.exists_cons_of_ne_nil (l := ws) fun hnil => by
    subst hnil
    obtain rfl := List.forall₂_nil_left_iff.mp hreads
    exact hne (List.forall₂_nil_left_iff.mp hgs)
  have hstarts : StartsUnlike ["initial", "inherit", "none"]
      ([comma, space].intercalate ((w :: vs).map ([·]))) :=
    StartsUnlike.intercalate ⟨w, [], rfl, (hws w List.mem_cons_self).1.isBlank,
      fun k _ => (hws w List.mem_cons_self).2.1 k⟩ _ _
  refine ⟨_, some gs', ?_, Written.isPhrase_listed (by simp) fun us hus => ?_,
    hstarts.mono (by simp), fun source start hat => ?_, beq_of_forall₂ hgs⟩
  · rw [Value.cssList, hcss, ← Written.intercalate_comma, List.map_map]
    refine congrArg (fun texts => Except.ok (String.intercalate ", " texts)) ?_
    exact List.map_congr_left fun w _ => congrArg String.ofList (Written.listChars_singleton w).symm
  · obtain ⟨v, hv, rfl⟩ := List.mem_map.mp hus
    exact (hws v hv).1.phrase
  · refine .bind (.isKeywordExhausted (hstarts.head?_words (by simp) start)) ?_
    rw [if_neg Bool.false_ne_true]
    refine .ask fun c hsource hpending => .bind .toEnd ?_
    have hparts : c.commaParts.mapM gradientCall.inside = .ok gs' := by
      rw [gradientCall_eq_leaf]
      refine mapM_inside_leaf (fun d hd => (Cursor.source_of_mem_commaParts hd).trans hsource) ?_
        (fun v hv => (hws v hv).1) hreads
      rw [Cursor.map_pending_commaParts, hpending]
      exact forall₂_splitAtCommas (List.cons_ne_nil _ _)
        (fun v hv => ⟨(hws v hv).1, (hws v hv).2.2⟩) hat c.stop
    exact .bind (.ofExcept hparts) (.pure _)

end Grammar

end Styling
