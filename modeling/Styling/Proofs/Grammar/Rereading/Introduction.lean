import Mathlib
import Styling.Proofs.Grammar.Agreement.Gradient
import Styling.Proofs.Grammar.Rereading.Color

/-!
# Introductions of gradients that are read back

Before its stops, a gradient names its direction and its color space if they are not the default
ones.  What may follow an introduction is no part of it, so just the introduction that was written
is read.

* `Grammar.exists_readsAngle` is about the direction, and `Grammar.takes_space` about the space.
* `Grammar.exists_readsIntroduction` is about an introduction that is written.
* `Grammar.takes_introduction_none` is about the stops of a gradient without one.
-/

namespace Styling

open Written (At IsPhrase comma ident listChars dimension space words isWord_dimension isWord_ident)

namespace Grammar

/-! ## The direction -/

section Refusals

variable (source : Source) {d : Component}

/-- What is read as a paint may be one. -/
theorem mayBePaint_of_paint {source : Source} {p : Paint} (h : paint source d = .ok p) :
    mayBePaint d = true := by
  by_contra hnot
  simp only [paint, if_neg hnot, bind, Except.bind] at h
  split at h
  next => exact absurd h (by simp)
  next => exact absurd h (by simp [Leaf.unexpected])

/-- No angle is read where a paint may be. -/
theorem angle_of_mayBePaint (h : mayBePaint d = true) :
    ∃ reason l, angle source d = .error (.invalid reason l) := by
  unfold mayBePaint at h
  split at h
  next => exact ⟨_, _, rfl⟩
  next => exact ⟨_, _, rfl⟩
  next => exact ⟨_, _, rfl⟩
  next => exact absurd h Bool.false_ne_true

/-- No keyword is read where it does not stand. -/
theorem keywordLeaf_of_not_isKeyword {word : String} (h : d.isKeyword word = false) :
    ∃ reason l, Reader.keywordLeaf [word] source d = .error (.invalid reason l) := by
  unfold Reader.keywordLeaf Reader.identLeaf
  split
  next name span =>
    have hword : (Text.lowercase name == word) = false := h
    simp only [bind, Except.bind, List.contains_cons, hword, List.contains_nil, Bool.or_false,
      Bool.false_eq_true, if_false]
    exact ⟨_, _, rfl⟩
  next => exact ⟨_, _, rfl⟩

theorem keywordLeaf_of_isKeyword {word : String} (h : d.isKeyword word = true) :
    Reader.keywordLeaf [word] source d = .ok word := by
  cases d with
  | token t =>
    obtain ⟨kind, span⟩ := t
    cases kind with
    | ident name =>
      have hword : Text.lowercase name = word := beq_iff_eq.mp h
      simp [Reader.keywordLeaf, Reader.identLeaf, bind, Except.bind, hword]
      rfl
    | _ => exact absurd h Bool.false_ne_true
  | group opener opened cs ending => exact absurd h Bool.false_ne_true

end Refusals

variable {source : Source}

/-- The words that name a side are taken, up to a component that names none. -/
theorem takes_sidesAfter {cs ds : List Component} {done ws : List String} {count : Nat}
    (hcs : cs.map sideWord? = ws.map some) (hnodup : (done ++ ws).Nodup)
    (hcount : ws.length ≤ count) (hend : ∀ d ∈ ds.head?, sideWord? d = none) :
    (sidesAfter done count).Takes source (cs ++ ds) (done ++ ws) ds := by
  induction ws generalizing cs done count with
  | nil =>
    obtain rfl := List.map_eq_nil_iff.mp hcs
    rw [List.nil_append, List.append_nil]
    cases count with
    | zero => exact .pure done
    | succ count =>
      refine .bind .peek ?_
      cases hds : ds.head? with
      | none => exact .pure done
      | some d =>
        simp only [hend d hds]
        exact .pure done
  | cons w ws ih =>
    obtain ⟨c, cs, rfl⟩ := List.exists_cons_of_ne_nil (l := cs) fun h => by
      rw [h] at hcs
      exact absurd hcs (by simp)
    obtain ⟨hc, hcs⟩ := List.cons.inj hcs
    obtain ⟨count, rfl⟩ := Nat.exists_eq_add_of_le' (Nat.lt_of_lt_of_le (Nat.succ_pos _) hcount)
    have hnone := containsVar_of_sideWord? hc
    have hvar : c.isVar = false := Bool.eq_false_iff.mpr fun h =>
      Bool.false_ne_true (hnone.symm.trans (Component.containsVar_of_isVar h))
    have hfresh : done.contains w = false :=
      Bool.eq_false_iff.mpr fun h => (List.nodup_append.mp hnodup).2.2 w
        (List.contains_iff_mem.mp h) w List.mem_cons_self rfl
    refine .bind .peek ?_
    simp only [List.cons_append, List.head?_cons, hc]
    refine .bind (.next hvar) ?_
    rw [hfresh, if_neg Bool.false_ne_true]
    have hmore : ((done ++ [w]) ++ ws).Nodup := by rwa [List.append_assoc]
    have hrest := ih hcs hmore (by simpa using hcount)
    rwa [List.append_assoc] at hrest

/-- Where a paint stands, no direction is read. -/
theorem takes_gradientAngle_none {d : Component} {ds : List Component} (hvar : d.isVar = false)
    (hpaint : mayBePaint d = true) (hto : d.isKeyword "to" = false) :
    (Reader.attempt gradientAngle).Takes source (d :: ds) none (d :: ds) := by
  obtain ⟨reason, l, hangle⟩ := angle_of_mayBePaint source hpaint
  obtain ⟨reason', l', hkeyword⟩ := keywordLeaf_of_not_isKeyword source hto
  have hside : gradientSide.Refuses source (d :: ds) := by
    rw [gradientSide_eq]
    exact (Reader.Refuses.leaf hvar hkeyword).bind _
  exact Reader.Refuses.attempt (.after (Reader.Refuses.leaf hvar hangle).attempt (hside.bind _))

/-- A side is read after the word `to`. -/
theorem takes_gradientAngle_side {s : GradientSide} {c : Component} {cs ds : List Component}
    (hvar : c.isVar = false) (hpaint : mayBePaint c = true) (hto : c.isKeyword "to" = true)
    (hcs : cs.map sideWord? = s.words.map some) (hend : ∀ d ∈ ds.head?, sideWord? d = none) :
    (Reader.attempt gradientAngle).Takes source (c :: cs ++ ds) (some (.side s)) ds := by
  obtain ⟨reason, l, hangle⟩ := angle_of_mayBePaint source hpaint
  have hwords : s.words.length ≤ 2 ∧ s.words.Nodup ∧ sideOf s.words = pure s := by
    cases s <;> exact ⟨by decide, by decide, rfl⟩
  refine .attempt (.bind (Reader.Refuses.leaf hvar hangle).attempt ?_)
  refine .bind ?_ (.pure _)
  rw [gradientSide_eq]
  refine .bind (.leaf hvar (keywordLeaf_of_isKeyword source hto)) ?_
  have hsides : (sidesAfter [] 2).Takes source (cs ++ ds) s.words ds :=
    takes_sidesAfter hcs hwords.2.1 hwords.1 hend
  refine .bind hsides ?_
  rw [hwords.2.2]
  exact .pure s

/-- The texts of a direction that is not the default one. -/
def angleTexts : GradientAngle → List String
  | .side .bottom => []
  | .side s => [s.keyword]
  | .radians angle => [literal angle ++ "rad"]

/-- A direction is written as a phrase that is read as the direction, if no name of a side
follows. -/
def ReadsAngle (ws : List Written) (a : GradientAngle) : Prop :=
  angleTexts a = [String.ofList (listChars ws)] ∧ IsPhrase ws ∧
    ∀ source start ds, At source start (listChars ws) → (∀ d ∈ ds.head?, sideWord? d = none) →
      (Reader.attempt gradientAngle).Takes source (words start ws ++ ds) (some a) ds

end Grammar

/-- An angle is finite. -/
def GradientAngle.isKept : GradientAngle → Bool
  | side _ => true
  | radians angle => angle.isFinite

namespace Grammar

theorem readsAngle_radians {x : Float} (h : x.isFinite = true) :
    ∃ ws, ReadsAngle ws (.radians x) := by
  obtain ⟨p, hplain, hsmall, htext, hvalue⟩ := exists_literal h
  have hends : ∀ rest, EndsNumeral (['r', 'a', 'd'] ++ rest) :=
    fun rest => .cons rfl (by decide) (by decide)
  have hword := isWord_dimension ['r', 'a', 'd'] hplain hsmall (by decide) hends
  refine ⟨[dimension p ['r', 'a', 'd']], ?_, hword.phrase, fun source start ds hat _ => ?_⟩
  · rw [angleTexts, htext, Written.listChars_singleton, dimension, Written.chars,
      String.ofList_append]
  · rw [Written.words_singleton rfl]
    have hangle : angle source ((dimension p ['r', 'a', 'd']).component start) = .ok x := by
      have hlookup : angleUnits.lookup (Text.lowercase (String.ofList ['r', 'a', 'd'])) =
          some 1.0 := by decide
      simp only [dimension, Written.component, angle, hlookup, float_eq_ok hvalue, bind,
        Except.bind]
      rw [Binary64.mul_one h]
      rfl
    exact .attempt (.bind (.attempt (.leaf rfl hangle)) (.pure _))

/-- Names with spaces between them. -/
def nameWords (names : List String) : List Written :=
  [space].intercalate (names.map fun name => [ident name.toList])

theorem isPhrase_nameWords {names : List String} (hne : names ≠ [])
    (h : ∀ name ∈ names, Written.IsName name.toList) : IsPhrase (nameWords names) := by
  refine Written.isPhrase_spaced (by simpa using hne) fun ws hws => ?_
  obtain ⟨name, hname, rfl⟩ := List.mem_map.mp hws
  exact (isWord_ident _ (h name hname)).phrase

theorem ofList_nameWords (names : List String) :
    String.ofList (listChars (nameWords names)) = String.intercalate " " names := by
  have htext := Written.intercalate_space (names.map fun name => ident name.toList)
  rw [List.map_map, List.map_map] at htext
  rw [nameWords, show names.map (fun name => [ident name.toList]) =
    names.map ((fun w => [w]) ∘ fun name => ident name.toList) from rfl, ← htext]
  congr 1
  refine (List.map_congr_left fun name _ => ?_).trans (List.map_id names)
  exact String.ofList_toList

/-- A component is the identifier of a name. -/
def IsIdent (c : Component) (name : String) : Prop :=
  ∃ span, c = .token ⟨.ident name, span⟩

/-- The components of names are their identifiers. -/
theorem words_nameWords (names : List String) (start : Nat) :
    List.Forall₂ IsIdent (words start (nameWords names)) names := by
  have hword : ∀ (name : String) start, IsIdent ((ident name.toList).component start) name :=
    fun name start => ⟨_, by rw [ident, String.ofList_toList]; rfl⟩
  induction names generalizing start with
  | nil => exact .nil
  | cons name names ih =>
    rw [nameWords, List.map_cons]
    cases names with
    | nil =>
      rw [List.map_nil, List.intercalate_singleton, Written.words_singleton rfl]
      exact .cons (hword name start) .nil
    | cons next names =>
      rw [List.map_cons, List.intercalate_cons_cons, List.append_assoc, Written.words_append,
        Written.words_singleton rfl]
      exact .cons (hword name start) (ih (start + (listChars [ident name.toList]).length + 1))

theorem map_sideWord?_of_forall₂ {cs : List Component} {names : List String}
    (h : List.Forall₂ IsIdent cs names) (hnames : ∀ name ∈ names,
      Text.lowercase name = name ∧ sideWords.contains name = true) :
    cs.map sideWord? = names.map some := by
  induction h with
  | nil => rfl
  | @cons c name cs names hc _ ih =>
    obtain ⟨span, rfl⟩ := hc
    obtain ⟨hlower, hside⟩ := hnames name List.mem_cons_self
    have hname : sideWord? (.token ⟨.ident name, span⟩) = some name := by
      simp only [sideWord?, hlower, hside, if_true]
    rw [List.map_cons, List.map_cons, hname, ih fun n hn => hnames n (List.mem_cons_of_mem _ hn)]

theorem readsAngle_side {s : GradientSide} (h : s ≠ .bottom) : ∃ ws, ReadsAngle ws (.side s) := by
  have hnames : ∀ name ∈ "to" :: s.words, Written.IsName name.toList := by
    cases s <;> decide
  refine ⟨nameWords ("to" :: s.words), ?_, isPhrase_nameWords (by simp) hnames,
    fun source start ds _ hend => ?_⟩
  · rw [ofList_nameWords]
    cases s <;> first | rfl | exact absurd rfl h
  · obtain ⟨_, cs, ⟨span, rfl⟩, hcs, hwords⟩ :=
      List.forall₂_cons_right_iff.mp (words_nameWords ("to" :: s.words) start)
    rw [hwords]
    refine takes_gradientAngle_side rfl rfl (by decide : (Text.lowercase "to" == "to") = true)
      (map_sideWord?_of_forall₂ hcs ?_) hend
    cases s <;> decide

/-- A direction that is not the default one is read. -/
theorem exists_readsAngle {a : GradientAngle} (h : a.isKept = true) (hne : a ≠ .side .bottom) :
    ∃ ws, ReadsAngle ws a := by
  cases a with
  | side s => exact readsAngle_side fun hs => hne (congrArg _ hs)
  | radians x => exact readsAngle_radians h

/-! ## The color space -/

/-- The texts of a color space and the direction of its hue, if they are not the default ones. -/
def spaceTexts (space : ColorSpace) (hue : HueDirection) : List String :=
  (if space = .srgb ∧ hue = .shorter then [] else ["in " ++ space.keyword]) ++
    if hue = .shorter then [] else [hue.keyword ++ " hue"]

/-- The words of a color space and the direction of its hue. -/
def spaceNames (space : ColorSpace) (hue : HueDirection) : List String :=
  "in" :: space.keyword :: if hue = .shorter then [] else [hue.keyword, "hue"]

theorem colorSpace_keyword (space : ColorSpace) (source : Source) (span : Span) :
    colorSpace source (.token ⟨.ident space.keyword, span⟩) = .ok space := by
  have hkeyword : ColorSpace.notSupported.contains (Text.lowercase space.keyword) = false ∧
      ColorSpace.ofKeyword? (Text.lowercase space.keyword) = some space := by
    cases space <;> decide
  simp only [colorSpace, hkeyword.1, hkeyword.2, Bool.false_eq_true, if_false]

/-- A direction of the hue is read with the word after it. -/
theorem takes_hueDirection {hue : HueDirection} {c d : Component} {ds : List Component}
    (hc : IsIdent c hue.keyword) (hd : IsIdent d "hue") :
    hueDirection.Takes source (c :: d :: ds) hue ds := by
  obtain ⟨span, rfl⟩ := hc
  obtain ⟨span', rfl⟩ := hd
  have hkeyword : keyword (HueDirection.all.map fun d => (d.keyword, d)) source
      (.token ⟨.ident hue.keyword, span⟩) = .ok hue := by
    have hlookup : (HueDirection.all.map fun d => (d.keyword, d)).lookup
        (Text.lowercase hue.keyword) = some hue := by
      cases hue <;> decide
    simp only [keyword, hlookup]
  exact .bind (.leaf rfl hkeyword) (.bind (.leaf rfl (keywordLeaf_of_isKeyword source
    (by decide : (Text.lowercase "hue" == "hue") = true))) (.pure hue))

/-- At a comma no direction of the hue is read. -/
theorem refuses_hueDirection {d : Component} {ds : List Component} (hd : d.isComma = true) :
    hueDirection.Refuses source (d :: ds) := by
  cases d with
  | token t =>
    obtain ⟨kind, span⟩ := t
    cases kind with
    | comma => exact (Reader.Refuses.leaf rfl rfl).bind _
    | _ => exact absurd hd Bool.false_ne_true
  | group opener opened cs ending => exact absurd hd Bool.false_ne_true

/-- A color space is read before a comma. -/
theorem takes_space (source : Source) {space : ColorSpace} {hue : HueDirection}
    {cs : List Component} (ds : List Component) {d : Component}
    (hcs : List.Forall₂ IsIdent cs (spaceNames space hue)) (hd : d.isComma = true) :
    ∃ rest, (Reader.tryKeyword ["in"]).Takes source (cs ++ d :: ds) (some "in") rest ∧
      interpolation.Takes source rest (space, hue) (d :: ds) := by
  obtain ⟨_, cs, ⟨span, rfl⟩, hrest, rfl⟩ := List.forall₂_cons_right_iff.mp hcs
  obtain ⟨_, hues, ⟨span', rfl⟩, hhues, rfl⟩ := List.forall₂_cons_right_iff.mp hrest
  refine ⟨_, .attempt (.leaf rfl (keywordLeaf_of_isKeyword source
    (by decide : (Text.lowercase "in" == "in") = true))),
    .bind (.leaf rfl (colorSpace_keyword space source span')) ?_⟩
  by_cases hhue : hue = .shorter
  · rw [if_pos hhue] at hhues
    obtain rfl := List.forall₂_nil_right_iff.mp hhues
    subst hhue
    exact .bind (refuses_hueDirection hd).attempt (.pure _)
  · rw [if_neg hhue] at hhues
    obtain ⟨b, _, hb, hlast, rfl⟩ := List.forall₂_cons_right_iff.mp hhues
    obtain ⟨c, _, hc, hnil, rfl⟩ := List.forall₂_cons_right_iff.mp hlast
    obtain rfl := List.forall₂_nil_right_iff.mp hnil
    exact .bind (.attempt (takes_hueDirection hb hc)) (.pure _)

/-! ## The introduction -/

/-- What stands before the stops: the direction, whether there is a color space, and the space. -/
def gradientIntroduction : Reader (Option GradientAngle × Bool × ColorSpace × HueDirection) := do
  let angle ← Reader.attempt gradientAngle
  let hasSpace := (← Reader.tryKeyword ["in"]).isSome
  let space ← if hasSpace then interpolation else pure (.srgb, .shorter)
  return (angle, hasSpace, space)

theorem linearGradient_eq : linearGradient = (do
    let i ← gradientIntroduction
    if i.1.isSome || i.2.1 then Reader.expectComma
    let pieces ← stopPieces
    Reader.expectExhausted
    let stops ← placedStops i.2.2.1 i.2.2.2 pieces
    return ⟨i.1.getD (.side .bottom), stops, i.2.2.1, i.2.2.2⟩) := by
  simp only [linearGradient, gradientIntroduction, bind_assoc, pure_bind]
  congr 1
  funext angle
  congr 1
  funext word
  split <;> simp only [bind_assoc, pure_bind]

theorem introduction_eq (g : LinearGradient) :
    g.introduction = angleTexts g.angle ++ spaceTexts g.space g.hue :=
  List.append_assoc _ _ _

/-- A stop starts with the component, and an introduction does not. -/
structure StartsStop (d : Component) : Prop where
  isVar : d.isVar = false
  mayBePaint : mayBePaint d = true
  isKeyword : d.isKeyword "to" = false ∧ d.isKeyword "in" = false

/-- Where a stop starts, nothing is taken for an introduction. -/
theorem takes_introduction_none {d : Component} {ds : List Component} (h : StartsStop d) :
    gradientIntroduction.Takes source (d :: ds) (none, false, .srgb, .shorter) (d :: ds) := by
  obtain ⟨reason, l, hin⟩ := keywordLeaf_of_not_isKeyword source h.isKeyword.2
  exact .bind (takes_gradientAngle_none h.isVar h.mayBePaint h.isKeyword.1)
    (.bind (Reader.Refuses.leaf h.isVar hin).attempt (.bind (.pure _) (.pure _)))

theorem angleTexts_ne_nil {a : GradientAngle} (h : a ≠ .side .bottom) : angleTexts a ≠ [] := by
  cases a with
  | side s => cases s <;> first | exact absurd rfl h | exact List.cons_ne_nil _ _
  | radians x => exact List.cons_ne_nil _ _

/-- The texts before the stops, of which there is one, are written as a phrase that is read. -/
def ReadsIntroduction (ws : List Written) (g : LinearGradient) : Prop :=
  String.intercalate " " g.introduction = String.ofList (listChars ws) ∧ IsPhrase ws ∧
    ∀ source start d ds, At source start (listChars ws) → d.isComma = true →
      ∃ angle hasSpace, (angle.isSome || hasSpace) = true ∧ angle.getD (.side .bottom) = g.angle ∧
        gradientIntroduction.Takes source (words start ws ++ d :: ds)
          (angle, hasSpace, g.space, g.hue) (d :: ds)

section Introduction

variable {g : LinearGradient}

/-- At a comma no color space is read. -/
theorem takes_tryKeyword_of_isComma {d : Component} {ds : List Component} {word : String}
    (hd : d.isComma = true) : (Reader.tryKeyword [word]).Takes source (d :: ds) none (d :: ds) := by
  have hplain : d.isVar = false ∧ d.isKeyword word = false := by
    cases d with
    | token t =>
      obtain ⟨kind, span⟩ := t
      cases kind with
      | comma => exact ⟨rfl, rfl⟩
      | _ => exact absurd hd Bool.false_ne_true
    | group opener opened cs ending => exact absurd hd Bool.false_ne_true
  obtain ⟨reason, l, hin⟩ := keywordLeaf_of_not_isKeyword source hplain.2
  exact (Reader.Refuses.leaf hplain.1 hin).attempt

theorem sideWord?_of_isComma {d : Component} (hd : d.isComma = true) : sideWord? d = none := by
  unfold sideWord?
  split
  next => exact absurd hd Bool.false_ne_true
  next => rfl

/-- A direction alone is read. -/
theorem readsIntroduction_angle {ws : List Written} (h : ReadsAngle ws g.angle)
    (hdefault : g.space = .srgb ∧ g.hue = .shorter) : ReadsIntroduction ws g := by
  obtain ⟨htext, hphrase, hreads⟩ := h
  have hspace : spaceTexts g.space g.hue = [] := by
    rw [spaceTexts, if_pos hdefault, if_pos hdefault.2]
    rfl
  refine ⟨?_, hphrase, fun source start d ds hat hd => ?_⟩
  · rw [introduction_eq, htext, hspace, List.append_nil, String.intercalate_singleton]
  · refine ⟨some g.angle, false, rfl, rfl, ?_⟩
    rw [hdefault.1, hdefault.2]
    refine .bind (hreads source start _ hat fun e he => ?_) ?_
    · obtain rfl := Option.some.inj he
      exact sideWord?_of_isComma hd
    · exact .bind (takes_tryKeyword_of_isComma hd) (.bind (.pure _) (.pure _))

/-- The texts of a color space are those of its words. -/
theorem intercalate_spaceTexts {space : ColorSpace} {hue : HueDirection}
    (h : ¬ (space = .srgb ∧ hue = .shorter)) :
    spaceTexts space hue ≠ [] ∧ String.intercalate " " (spaceTexts space hue) =
      String.intercalate " " (spaceNames space hue) := by
  cases space <;> cases hue <;> first | exact absurd ⟨rfl, rfl⟩ h | exact ⟨by decide, by decide⟩

theorem isPhrase_spaceNames (space : ColorSpace) (hue : HueDirection) :
    IsPhrase (nameWords (spaceNames space hue)) := by
  refine isPhrase_nameWords (List.cons_ne_nil _ _) ?_
  cases space <;> cases hue <;> decide

/-- The color space is read after what was taken for the direction. -/
theorem takes_introduction_space {source : Source} {angle : Option GradientAngle}
    (start : Nat) {cs ds : List Component} {d : Component} (hd : d.isComma = true)
    (hangle : (Reader.attempt gradientAngle).Takes source cs angle
      (words start (nameWords (spaceNames g.space g.hue)) ++ d :: ds)) :
    gradientIntroduction.Takes source cs (angle, true, g.space, g.hue) (d :: ds) := by
  obtain ⟨rest, hin, hspace⟩ := takes_space source ds
    (words_nameWords (spaceNames g.space g.hue) start) hd
  exact .bind hangle (.bind hin (.bind hspace (.pure _)))

/-- The first word of a color space is no direction. -/
theorem exists_words_spaceNames (space : ColorSpace) (hue : HueDirection) (start : Nat) :
    ∃ c cs, words start (nameWords (spaceNames space hue)) = c :: cs ∧ IsIdent c "in" := by
  obtain ⟨c, cs, hc, -, hwords⟩ :=
    List.forall₂_cons_right_iff.mp (words_nameWords (spaceNames space hue) start)
  exact ⟨c, cs, hwords, hc⟩

/-- A color space alone is read. -/
theorem readsIntroduction_space (hangle : g.angle = .side .bottom)
    (h : ¬ (g.space = .srgb ∧ g.hue = .shorter)) :
    ReadsIntroduction (nameWords (spaceNames g.space g.hue)) g := by
  refine ⟨?_, isPhrase_spaceNames _ _, fun source start d ds hat hd => ?_⟩
  · rw [introduction_eq, hangle, ofList_nameWords, ← (intercalate_spaceTexts h).2]
    rfl
  · refine ⟨none, true, rfl, hangle.symm, takes_introduction_space start hd ?_⟩
    obtain ⟨c, cs, hwords, span, rfl⟩ := exists_words_spaceNames g.space g.hue start
    rw [hwords]
    exact takes_gradientAngle_none rfl rfl (by decide : (Text.lowercase "in" == "to") = false)

/-- A direction and a color space are read. -/
theorem readsIntroduction_both {ws : List Written} (h : ReadsAngle ws g.angle)
    (hspace : ¬ (g.space = .srgb ∧ g.hue = .shorter)) :
    ReadsIntroduction (ws ++ space :: nameWords (spaceNames g.space g.hue)) g := by
  obtain ⟨htext, hphrase, hreads⟩ := h
  refine ⟨?_, hphrase.spaced (isPhrase_spaceNames _ _), fun source start d ds hat hd => ?_⟩
  · rw [introduction_eq, htext, List.singleton_append,
      String.intercalate_cons_of_ne_nil (intercalate_spaceTexts hspace).1,
      (intercalate_spaceTexts hspace).2, ← ofList_nameWords, Written.listChars_append,
      String.ofList_append, String.append_assoc]
    refine congrArg (String.ofList (listChars ws) ++ ·) (String.toList_inj.mp ?_)
    simp [Written.listChars, Written.chars, space]
  · refine ⟨some g.angle, true, rfl, rfl, ?_⟩
    rw [Written.listChars_append] at hat
    rw [Written.words_append, List.append_assoc]
    refine takes_introduction_space _ hd (hreads source start _ hat.left fun e he => ?_)
    obtain ⟨c, cs, hwords, span, rfl⟩ :=
      exists_words_spaceNames g.space g.hue (start + (listChars ws).length + 1)
    have hhead : words (start + (listChars ws).length)
        (space :: nameWords (spaceNames g.space g.hue)) = .token ⟨.ident "in", span⟩ :: cs := hwords
    rw [hhead] at he
    obtain rfl := Option.some.inj he
    rfl

/-- **An introduction is written as a phrase that is read.** -/
theorem exists_readsIntroduction (hkept : g.angle.isKept = true) (hne : g.introduction ≠ []) :
    ∃ ws, ReadsIntroduction ws g := by
  by_cases hangle : g.angle = .side .bottom
  · refine ⟨_, readsIntroduction_space hangle fun hdefault => hne ?_⟩
    rw [introduction_eq, hangle, spaceTexts, if_pos hdefault, if_pos hdefault.2]
    rfl
  · obtain ⟨ws, hws⟩ := exists_readsAngle hkept hangle
    by_cases hspace : g.space = .srgb ∧ g.hue = .shorter
    · exact ⟨ws, readsIntroduction_angle hws hspace⟩
    · exact ⟨_, readsIntroduction_both hws hspace⟩

/-- Without an introduction everything is as by default. -/
theorem default_of_introduction_eq_nil (h : g.introduction = []) :
    g.angle = .side .bottom ∧ g.space = .srgb ∧ g.hue = .shorter := by
  rw [introduction_eq, List.append_eq_nil_iff] at h
  refine ⟨?_, ?_⟩
  · by_contra hangle
    exact angleTexts_ne_nil hangle h.1
  · by_contra hspace
    exact (intercalate_spaceTexts hspace).1 h.2

end Introduction

end Grammar

end Styling
