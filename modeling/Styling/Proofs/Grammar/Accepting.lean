import Styling.Proofs.Grammar.Clearing
import Styling.Proofs.Property.Range
import Styling.Proofs.Value.Painting
import Styling.Property.Reading

/-!
# What every grammar takes and what it gives

Each grammar has the property of `Styling.Proofs.Value.Accepting`: it gives a value only if it
recognized everything it took, the arguments of nested functions included.  Where the value is a
number with a range, the value it gives lies in the range.  Where it has colors, they are those that
were written or mixtures of them; what `Cursor.Paints` says of the ones and `Paint.PassesToHints` of
the others holds of them.

The leaves come first.  All but `paint` refuse groups and closing brackets, so they take tokens; the
grammars of several components follow from the ways they are put together.

* `Grammar.accepts_positiveLength` and its like are about leaves.
* `Grammar.accepts_gradientCall` and `Grammar.accepts_transform` are about nested calls.
* `Shorthand.accepts_reader` is about shorthands.  They declare longhands with values that suit
  them: of their sorts, and in their ranges unless the longhand is loose.
-/

namespace Styling

namespace Grammar

/-! ## Leaves -/

theorem accepts_length : Leaf.Accepts length fun _ => True :=
  .of_tokens (fun _ _ _ => ⟨_, rfl⟩) fun _ _ _ _ _ => ⟨_, rfl⟩

theorem accepts_positiveLength : Leaf.Accepts positiveLength fun l => l.isNegative = false := by
  refine .and_of_forall (.of_tokens (fun _ _ _ => ⟨_, rfl⟩) fun _ _ _ _ _ => ⟨_, rfl⟩)
    fun source c l h => ?_
  obtain ⟨l', -, h⟩ := exists_of_bind_eq_ok h
  split at h
  next => exact absurd h (by simp [Leaf.refuse])
  next hsign =>
    obtain rfl := Except.ok.inj h
    exact Bool.eq_false_iff.mpr hsign

theorem accepts_size : Leaf.Accepts size fun _ => True :=
  .of_tokens (fun _ _ _ => ⟨_, rfl⟩) fun _ _ _ _ _ => ⟨_, rfl⟩

theorem accepts_positiveSize : Leaf.Accepts positiveSize fun s => s.isNegative = false := by
  refine .and_of_forall (.of_tokens (fun _ _ _ => ⟨_, rfl⟩) fun _ _ _ _ _ => ⟨_, rfl⟩)
    fun source c s h => ?_
  obtain ⟨s', -, h⟩ := exists_of_bind_eq_ok h
  split at h
  next => exact absurd h (by simp [Leaf.refuse])
  next hsign =>
    obtain rfl := Except.ok.inj h
    exact Bool.eq_false_iff.mpr hsign

theorem accepts_angle : Leaf.Accepts angle fun _ => True :=
  .of_tokens (fun _ _ _ => ⟨_, rfl⟩) fun _ _ _ _ _ => ⟨_, rfl⟩

/-- What holds of the paints that are written holds of the one that is read. -/
theorem accepts_paint {c : Cursor} {P : Paint → Prop} (hc : c.Paints P) :
    (Reader.leaf paint).Accepts c P :=
  .leaf_of_forall fun d hd _ h => ⟨.paint h, (hc d hd).here h⟩

theorem accepts_integer : Leaf.Accepts integer fun _ => True :=
  .of_tokens (fun _ _ _ => ⟨_, rfl⟩) fun _ _ _ _ _ => ⟨_, rfl⟩

/-- A number that was moved into an interval lies there. -/
theorem admits_clamp {low high x : Float} (hlow : low.isNaN = false) (hhigh : high.isNaN = false)
    (hbounds : ¬ low < low ∧ ¬ high < high ∧ ¬ high < low) (hx : x.isNaN = false) :
    (Range.between low high).admits (.real (clamp low high x)) = true := by
  simpa [Range.admits] using clamp_mem hlow hhigh hx hbounds

theorem accepts_opacity {source : Source} {d : Component} (hd : d.IsComparable) {x : Float}
    (h : opacity source d = .ok x) :
    d.Recognized source ∧ (Range.between 0.0 1.0).admits (.real x) = true := by
  unfold opacity at h
  split at h
  next n span =>
    obtain ⟨y, hy, h⟩ := exists_of_bind_eq_ok h
    obtain rfl := Except.ok.inj h
    have hnumber : n.quantity.isNaN = false := hd _ (List.mem_singleton_self _)
    have hy := Quantity.isNaN_hundredth hnumber (ok_of_ofFault hy)
    exact ⟨.token rfl, admits_clamp rfl rfl (by decide) hy⟩
  next n span =>
    obtain ⟨y, hy, h⟩ := exists_of_bind_eq_ok h
    obtain rfl := Except.ok.inj h
    have hnumber : n.quantity.isNaN = false := hd _ (List.mem_singleton_self _)
    have hy := Quantity.isNaN_toFloat hnumber (ok_of_ofFault hy)
    exact ⟨.token rfl, admits_clamp rfl rfl (by decide) hy⟩
  next => exact absurd h (by simp [Leaf.unexpected])

theorem accepts_keyword {α : Type} (table : List (String × α)) :
    Leaf.Accepts (keyword table) fun _ => True :=
  .of_tokens (fun _ _ _ => ⟨_, rfl⟩) fun _ _ _ _ _ => ⟨_, rfl⟩

/-- The meaning of a keyword is one of those in the table. -/
theorem exists_mem_of_keyword {α : Type} {table : List (String × α)} {source : Source}
    {c : Component} {a : α} (h : keyword table source c = .ok a) : ∃ word, (word, a) ∈ table := by
  unfold keyword at h
  split at h
  next name span =>
    split at h
    next b hlookup =>
      obtain rfl := Except.ok.inj h
      obtain ⟨before, after, hsplit, -⟩ := List.lookup_eq_some_iff.mp hlookup
      refine ⟨Text.lowercase name, ?_⟩
      rw [hsplit]
      exact List.mem_append_right before List.mem_cons_self
    next => exact absurd h (by simp [Leaf.unexpected])
  next => exact absurd h (by simp [Leaf.unexpected])

theorem accepts_fontSize : Leaf.Accepts fontSize fun x =>
    Range.nonnegative.admits (.real x) = true := by
  refine .and_of_forall (.of_tokens (fun _ _ _ => ⟨_, rfl⟩) fun _ _ _ _ _ => ⟨_, rfl⟩)
    fun source c x h => ?_
  have hcheck : ∀ y : Float, (if y < 0.0 then Leaf.refuse .negativeFontSize source c else pure y) =
      (.ok x : Except ReadError Float) → Range.nonnegative.admits (.real x) = true := by
    intro y hy
    split at hy
    next => exact absurd hy (by simp [Leaf.refuse])
    next hsign =>
      obtain rfl := Except.ok.inj hy
      simp [Range.admits, hsign]
  unfold fontSize at h
  split at h
  next =>
    obtain ⟨y, -, h⟩ := exists_of_bind_eq_ok h
    exact hcheck y h
  next =>
    split at h
    next =>
      obtain ⟨y, -, h⟩ := exists_of_bind_eq_ok h
      exact hcheck y h
    next => exact absurd h (by simp [Leaf.unsupported, bind, Except.bind])
  next => exact absurd h (by simp [Leaf.unexpected, bind, Except.bind])

theorem accepts_fontWeight {source : Source} {d : Component} (hd : d.IsComparable) {x : Float}
    (h : fontWeight source d = .ok x) :
    d.Recognized source ∧ (Range.between 1.0 1000.0).admits (.real x) = true := by
  unfold fontWeight at h
  split at h
  next =>
    refine ⟨.token rfl, ?_⟩
    dsimp only at h
    split at h
    next =>
      obtain rfl := Except.ok.inj h
      decide
    next =>
      split at h
      next =>
        obtain rfl := Except.ok.inj h
        decide
      next =>
        split at h
        next => exact absurd h (by simp [Leaf.unsupported])
        next => exact absurd h (by simp [Leaf.unexpected])
  next n span =>
    obtain ⟨y, hy, h⟩ := exists_of_bind_eq_ok h
    obtain rfl := Except.ok.inj h
    have hnumber : n.quantity.isNaN = false := hd _ (List.mem_singleton_self _)
    have hy := Quantity.isNaN_toFloat hnumber (ok_of_ofFault hy)
    exact ⟨.token rfl, admits_clamp rfl rfl (by decide) hy⟩
  next => exact absurd h (by simp [Leaf.unexpected])

/-- No keyword stands for a negative font width. -/
theorem admits_fontWidths : ∀ entry ∈ fontWidths,
    Range.fontWidth.admits (.fontWidth entry.2) = true := by
  have hall : fontWidths.all (fun entry => Range.fontWidth.admits (.fontWidth entry.2)) = true := by
    decide +kernel
  exact List.all_eq_true.mp hall

theorem accepts_fontWidth : Leaf.Accepts fontWidth fun x =>
    Range.fontWidth.admits (.fontWidth x) = true := by
  intro source c x h
  unfold fontWidth at h
  split at h
  next =>
    split at h
    next => exact absurd h (by simp [Leaf.refuse])
    next hsign =>
      have hnot := Quantity.not_hundredth_lt_zero (Bool.eq_false_iff.mpr hsign) (ok_of_ofFault h)
      exact ⟨.token rfl, by simp [Range.admits, hnot]⟩
  next =>
    obtain ⟨word, hmem⟩ := exists_mem_of_keyword h
    exact ⟨(accepts_keyword fontWidths source c x h).1, admits_fontWidths (word, x) hmem⟩

theorem accepts_lineWidth : Leaf.Accepts lineWidth fun l => l.isNegative = false := by
  intro source c l h
  unfold lineWidth at h
  split at h
  next =>
    obtain ⟨x, hx, h⟩ := exists_of_bind_eq_ok h
    obtain rfl := Except.ok.inj h
    obtain ⟨word, hmem⟩ := exists_mem_of_keyword hx
    have hwidths : ∀ entry ∈ lineWidths, (Length.px entry.2).isNegative = false := by decide
    exact ⟨.token rfl, hwidths (word, x) hmem⟩
  next => exact accepts_positiveLength source c l h

theorem accepts_distance : Leaf.Accepts distance fun _ => True :=
  .of_tokens (fun _ _ _ => ⟨_, rfl⟩) fun _ _ _ _ _ => ⟨_, rfl⟩

theorem accepts_colorSpace : Leaf.Accepts colorSpace fun _ => True :=
  .of_tokens (fun _ _ _ => ⟨_, rfl⟩) fun _ _ _ _ _ => ⟨_, rfl⟩

/-! ## Fonts -/

variable {c : Cursor}

theorem recognized_of_familyState {source : Source} {state state' : FamilyState} {d : Component}
    (h : FamilyState.step source state d = .ok state') : d.Recognized source := by
  obtain ⟨-, -, h⟩ := exists_of_bind_eq_ok h
  dsimp only at h
  split at h
  all_goals first
    | exact .token rfl
    | exact absurd h (by simp [StepError.ofLeaf, Leaf.unexpected])

theorem accepts_fontFamily : fontFamily.Accepts c fun _ => True := by
  refine .ask (.source ?_)
  refine (Reader.Accepts.foldAll (P := fun _ => True) trivial fun s d _ s' _ h =>
    ⟨recognized_of_familyState h, trivial⟩).bind fun state _ _ _ => ?_
  split
  next => exact .refuse _
  next => exact .ask (.pure trivial)

theorem accepts_fontStyle (strict : Bool) : (fontStyle strict).Accepts c fun _ => True := by
  refine (Reader.Accepts.leaf (accepts_keyword _)).bind fun style c' _ _ => ?_
  split
  next =>
    refine .source (.ask ?_)
    split
    next => exact .pure trivial
    next n unit span hpeek =>
      split
      next =>
        refine (Reader.Accepts.next_of_peek hpeek (.token rfl)).bind fun _ _ _ _ => ?_
        exact (Reader.Accepts.ofExcept (P := fun _ => True) fun _ _ => trivial).bind
          fun _ _ _ _ => .pure trivial
      next =>
        split
        next => exact .error rfl
        next => exact .pure trivial
    next =>
      exact (Reader.Accepts.ofExcept (P := fun _ => True) fun _ _ => trivial).bind
        fun _ _ _ _ => .pure trivial
  next => exact .pure trivial

/-! ## Gradients -/

/-- A word that names a side is a token. -/
theorem recognized_of_sideWord? {source : Source} {d : Component} {word : String}
    (h : sideWord? d = some word) : d.Recognized source := by
  unfold sideWord? at h
  split at h
  next => exact .token rfl
  next => exact absurd h (by simp)

theorem accepts_sidesAfter (words : List String) (count : Nat) :
    (sidesAfter words count).Accepts c fun _ => True := by
  induction count generalizing words c with
  | zero => exact .pure trivial
  | succ count ih =>
    refine .ask ?_
    split
    next => exact .pure trivial
    next d hpeek =>
      split
      next => exact .pure trivial
      next word hword =>
        have hd : d.Recognized c.source := recognized_of_sideWord? hword
        refine (Reader.Accepts.next_of_peek hpeek hd).bind fun _ _ _ _ => ?_
        split
        next => exact .source (.error rfl)
        next => exact ih _

theorem accepts_gradientSide : gradientSide.Accepts c fun _ => True := by
  refine (Reader.Accepts.keyword _).bind fun _ _ _ _ => ?_
  refine (accepts_sidesAfter [] 2).bind fun words _ _ _ => ?_
  split
  next => exact .pure trivial
  next => exact .refuse _

theorem accepts_gradientAngle : gradientAngle.Accepts c fun _ => True := by
  refine (Reader.Accepts.leaf accepts_angle).attempt.bind fun radians _ _ _ => ?_
  split
  next => exact .pure trivial
  next => exact accepts_gradientSide.bind fun _ _ _ _ => .pure trivial

theorem accepts_hueDirection : hueDirection.Accepts c fun _ => True := by
  refine (Reader.Accepts.leaf (accepts_keyword _)).bind fun _ _ _ _ => ?_
  exact (Reader.Accepts.keyword _).bind fun _ _ _ _ => .pure trivial

theorem accepts_interpolation : interpolation.Accepts c fun _ => True := by
  refine (Reader.Accepts.leaf accepts_colorSpace).bind fun _ _ _ _ => ?_
  exact accepts_hueDirection.attempt.bind fun _ _ _ _ => .pure trivial

variable {P : Paint → Prop}

/-- What was read of the stops so far, with the stop that is being read, has colors that satisfy
`P`. -/
def StopState.IsPainted (P : Paint → Prop) (s : List (StopPiece Paint Float) × StopState) : Prop :=
  StopPiece.AllColors P (s.1 ++ s.2.pending)

/-- However many positions a color has, its pieces have that color. -/
theorem StopState.allColors_stopPieces {p : Paint} {positions : List Float} :
    StopPiece.AllColors P (stopPieces p positions) ↔ P p := by
  cases positions with
  | nil => simp [stopPieces, StopPiece.AllColors, StopPiece.color?]
  | cons position positions =>
    simp only [stopPieces, StopPiece.AllColors, List.forall_mem_map, StopPiece.color?,
      Option.some.injEq, forall_eq']
    exact ⟨fun h => h position List.mem_cons_self, fun h _ _ => h⟩

theorem recognized_of_stopState {source : Source}
    {s s' : List (StopPiece Paint Float) × StopState} {d : Component} (hs : StopState.IsPainted P s)
    (hd : d.Paints source P) (h : StopState.step source s d = .ok (some s')) :
    d.Recognized source ∧ StopState.IsPainted P s' := by
  have hcomma {o : List (StopPiece Paint Float) × StopState} (ho : StopState.IsPainted P o)
      (h : (if d.isComma = true then (.ok (some o) : Except ReadError _) else .ok none) =
        .ok (some s')) : d.Recognized source ∧ StopState.IsPainted P s' := by
    split at h
    next hd => exact ⟨Component.recognized_of_isComma hd, Option.some_inj.mp (Except.ok.inj h) ▸ ho⟩
    next => exact absurd h (by simp)
  have hleaf := ok_of_ofLeaf h
  clear h
  split at hleaf
  next pieces =>
    have hpieces : StopPiece.AllColors P pieces := fun p hp => hs p (List.mem_append_left _ hp)
    split at hleaf
    next =>
      obtain ⟨x, hx, hleaf⟩ := exists_of_bind_eq_ok hleaf
      obtain rfl := Option.some_inj.mp (Except.ok.inj hleaf)
      refine ⟨(Leaf.accepts_percentageLeaf source d x hx).1, ?_⟩
      have hhint : StopPiece.AllColors P [(.hint (some x) : StopPiece Paint Float)] := by
        simp [StopPiece.AllColors, StopPiece.color?]
      exact StopPiece.allColors_append (StopPiece.allColors_append hpieces hhint)
        fun p hp => absurd hp List.not_mem_nil
    next =>
      obtain ⟨-, -, hleaf⟩ := exists_of_bind_eq_ok hleaf
      obtain ⟨p, hp, hleaf⟩ := exists_of_bind_eq_ok hleaf
      obtain rfl := Option.some_inj.mp (Except.ok.inj hleaf)
      have hpending : StopPiece.AllColors P (StopState.stopPieces p []) :=
        StopState.allColors_stopPieces.mpr (hd.here hp)
      exact ⟨.paint hp, StopPiece.allColors_append hpieces hpending⟩
  next pieces p positions =>
    have hpieces : StopPiece.AllColors P pieces := fun p hp => hs p (List.mem_append_left _ hp)
    have hp : P p := StopState.allColors_stopPieces.mp fun q hq => hs q (List.mem_append_right _ hq)
    split at hleaf
    next =>
      obtain ⟨x, hx, hleaf⟩ := exists_of_bind_eq_ok hleaf
      obtain rfl := Option.some_inj.mp (Except.ok.inj hleaf)
      have hpending : StopPiece.AllColors P (StopState.stopPieces p (positions ++ [x])) :=
        StopState.allColors_stopPieces.mpr hp
      exact ⟨(Leaf.accepts_percentageLeaf source d x hx).1,
        StopPiece.allColors_append hpieces hpending⟩
    next =>
      have hdone : StopPiece.AllColors P (pieces ++ StopState.stopPieces p positions) := hs
      exact hcomma (StopPiece.allColors_append hdone fun q hq => absurd hq List.not_mem_nil) hleaf
  next pieces =>
    have hdone : StopState.IsPainted P (pieces, .expecting) := hs
    exact hcomma hdone hleaf

theorem accepts_stopPieces (hc : c.Paints P) :
    stopPieces.Accepts c (StopPiece.AllColors P) := by
  refine .source ?_
  have hstart : StopState.IsPainted P ([], .expecting) := fun p hp => absurd hp List.not_mem_nil
  refine (Reader.Accepts.foldWhile hstart fun s d hd s' hs h =>
    recognized_of_stopState hs (hc d hd) h).bind fun state _ hstate _ => ?_
  dsimp only
  split
  next => exact .leaf fun _ _ _ h => absurd h (by simp [Leaf.unexpected])
  next => exact .pure hstate

theorem accepts_placedStops (hhints : Paint.PassesToHints P) (space : ColorSpace)
    (direction : HueDirection) {pieces : List (StopPiece Paint Float)}
    (hpieces : StopPiece.AllColors P pieces) :
    (placedStops space direction pieces).Accepts c fun stops => ∀ s ∈ stops, P s.color := by
  unfold placedStops
  split
  next stops hstops => exact .pure (forall_of_normalizeStops hhints hpieces hstops)
  next => exact .refuse _
  next => exact .error rfl
  next => exact .error rfl

/-- A gradient has the colors that are written for it, and mixtures of them. -/
theorem accepts_linearGradient (hhints : Paint.PassesToHints P) (hc : c.Paints P) :
    linearGradient.Accepts c fun g => ∀ s ∈ g.stops, P s.color := by
  have hstops (angle : Option GradientAngle) (space : ColorSpace) (direction : HueDirection)
      {c : Cursor} (hc : c.Paints P) : (do
        let pieces ← stopPieces
        Reader.expectExhausted
        let stops ← placedStops space direction pieces
        return (⟨angle.getD (.side .bottom), stops, space, direction⟩ : LinearGradient) :
          Reader LinearGradient).Accepts c fun g => ∀ s ∈ g.stops, P s.color := by
    refine (accepts_stopPieces hc).bind fun pieces _ hpieces _ => ?_
    refine Reader.Accepts.expectExhausted.bind fun _ _ _ _ => ?_
    exact (accepts_placedStops hhints space direction hpieces).bind fun _ _ hplaced _ =>
      .pure hplaced
  have hspace (angle : Option GradientAngle) (hasSpace : Bool) (space : ColorSpace × HueDirection)
      {c : Cursor} (hc : c.Paints P) : (do
        if angle.isSome || hasSpace then Reader.expectComma
        let pieces ← stopPieces
        Reader.expectExhausted
        let stops ← placedStops space.1 space.2 pieces
        return (⟨angle.getD (.side .bottom), stops, space.1, space.2⟩ : LinearGradient) :
          Reader LinearGradient).Accepts c fun g => ∀ s ∈ g.stops, P s.color := by
    dsimp only
    split
    next =>
      exact Reader.Accepts.expectComma.bind fun _ _ _ hpass =>
        hstops angle space.1 space.2 (hpass.paints hc)
    next => exact hstops angle space.1 space.2 hc
  unfold linearGradient
  refine accepts_gradientAngle.attempt.bind fun angle _ _ hangle => ?_
  refine (Reader.Accepts.tryKeyword _).bind fun word _ _ hword => ?_
  have hc := hword.paints (hangle.paints hc)
  dsimp only
  split
  next =>
    exact accepts_interpolation.bind fun space _ _ hpass =>
      hspace angle word.isSome space (hpass.paints hc)
  next => exact hspace angle word.isSome (.srgb, .shorter) hc

theorem recognized_of_gradientLeaf (hhints : Paint.PassesToHints P) {source : Source}
    {d : Component} {g : LinearGradient} (hd : d.Paints source P)
    (h : gradientLeaf source d = .ok g) :
    d.Recognized source ∧ ∀ s ∈ g.stops, P s.color := by
  obtain ⟨f, hf, h⟩ := exists_of_bind_eq_ok h
  unfold Reader.functionLeaf at hf
  split at hf
  next =>
    obtain rfl := Except.ok.inj hf
    split at h
    next =>
      refine Reader.recognized_of_children (accepts_linearGradient hhints ?_) ⟨_, _, _, _, rfl⟩ h
      exact Cursor.paints_ofComponents fun e he => hd.of_mem_children he
    next => exact absurd h (by simp [Leaf.unexpected])
  next => exact absurd hf (by simp [Leaf.unexpected])

theorem accepts_gradientCall (hhints : Paint.PassesToHints P) (hc : c.Paints P) :
    gradientCall.Accepts c fun g => ∀ s ∈ g.stops, P s.color :=
  gradientCall_eq_leaf ▸ .leaf_of_forall fun d hd _ h =>
    recognized_of_gradientLeaf hhints (hc d hd) h

/-- Cutting at commas loses nothing but commas. -/
theorem forall_of_splitAtCommas {P : Component → Prop} (hcomma : ∀ d, d.isComma = true → P d)
    {stop : Nat} {cs : List Component}
    (h : ∀ part ∈ Cursor.splitAtCommas stop cs, ∀ d ∈ part.1, P d) : ∀ d ∈ cs, P d := by
  induction cs with
  | nil => exact fun d hd => absurd hd List.not_mem_nil
  | cons x cs ih =>
    rw [Cursor.splitAtCommas] at h
    intro d hd
    split at h
    next hx =>
      rcases List.mem_cons.mp hd with rfl | hd
      · exact hcomma d hx
      · exact ih (fun part hpart => h part (List.mem_cons_of_mem _ hpart)) d hd
    next =>
      split at h
      next part partStop parts hsplit =>
        have hfirst := h _ List.mem_cons_self
        rcases List.mem_cons.mp hd with rfl | hd
        · exact hfirst d List.mem_cons_self
        · refine ih (fun part' hpart' => ?_) d hd
          rw [hsplit] at hpart'
          rcases List.mem_cons.mp hpart' with rfl | hpart'
          · exact fun y hy => hfirst y (List.mem_cons_of_mem x hy)
          · exact h part' (List.mem_cons_of_mem _ hpart')
      next hsplit => exact absurd hsplit (Cursor.splitAtCommas_ne_nil stop cs)

theorem accepts_backgroundImage (hhints : Paint.PassesToHints P) (hc : c.Paints P) :
    backgroundImage.Accepts c fun o =>
      ∀ gs, o = some gs → ∀ g ∈ gs, ∀ s ∈ g.stops, P s.color := by
  refine (Reader.Accepts.isKeywordExhausted _).bind fun lone c' _ hpass => ?_
  split
  next => exact .pure fun gs hgs => absurd hgs (by simp)
  next =>
    intro o c'' hrun
    simp only [Reader.bind_apply, Reader.ask_apply, Reader.modify_apply] at hrun
    cases hparts : c'.commaParts.mapM gradientCall.inside with
    | error e =>
      rw [hparts] at hrun
      exact absurd hrun (by simp)
    | ok gradients =>
      rw [hparts] at hrun
      obtain ⟨rfl, rfl⟩ := EStateM.Result.ok.inj hrun
      have hcall : ∀ part ∈ c'.commaParts, gradientCall.Accepts part fun g =>
          ∀ s ∈ g.stops, P s.color := by
        intro part hpart
        obtain ⟨cut, hcut, rfl⟩ := List.mem_map.mp hpart
        exact accepts_gradientCall hhints
          fun d hd => hpass.paints hc d (Cursor.mem_of_mem_splitAtCommas hcut hd)
      refine ⟨fun gs hgs g hg => ?_, rfl, c'.rest_toEnd ▸ List.nil_subset _, fun _ => ?_⟩
      · obtain rfl := Option.some_inj.mp hgs
        obtain ⟨part, hpart, hread⟩ := exists_mem_of_mapM_eq_ok hparts g hg
        exact (Reader.recognized_of_inside (hcall part hpart) hread).1
      · have hcut : ∀ cut ∈ Cursor.splitAtCommas c'.stop c'.rest, ∀ d ∈ cut.1,
            d.Recognized c'.source := by
          intro cut hcut
          have hpart : Cursor.ofComponents c'.source cut.1 cut.2 ∈ c'.commaParts :=
            List.mem_map_of_mem hcut
          obtain ⟨g, hg⟩ := exists_of_mapM_eq_ok hparts _ hpart
          exact (Reader.recognized_of_inside (hcall _ hpart) hg).2
        exact forall_of_splitAtCommas (fun _ => Component.recognized_of_isComma) hcut

/-! ## Transforms -/

theorem accepts_secondArgument {α : Type} {leaf : Leaf α} (h : leaf.Accepts fun _ => True) :
    (secondArgument leaf).Accepts c fun _ => True := by
  refine .ask ?_
  split
  next => exact .pure trivial
  next =>
    refine Reader.Accepts.tryComma.bind fun _ _ _ _ => ?_
    exact (Reader.Accepts.leaf h).bind fun _ _ _ _ => .pure trivial

theorem accepts_moreNumbers (n : Nat) : (moreNumbers n).Accepts c fun _ => True := by
  induction n generalizing c with
  | zero => exact .pure trivial
  | succ n ih =>
    refine Reader.Accepts.tryComma.bind fun _ _ _ _ => ?_
    refine (Reader.Accepts.leaf Leaf.accepts_numberLeaf).bind fun _ _ _ _ => ?_
    exact ih.bind fun _ _ _ _ => .pure trivial

theorem accepts_translate : translate.Accepts c fun _ => True := by
  refine (Reader.Accepts.leaf accepts_distance).bind fun _ _ _ _ => ?_
  exact (accepts_secondArgument accepts_distance).bind fun _ _ _ _ => .pure trivial

theorem accepts_rotate : rotate.Accepts c fun _ => True := by
  have hvalue : ∀ {x : Except ReadError Float} {c : Cursor},
      (Reader.ofExcept x).Accepts c fun _ => True := .ofExcept fun _ _ => trivial
  refine (Reader.Accepts.leaf accepts_angle).bind fun _ _ _ _ => ?_
  exact hvalue.bind fun _ _ _ _ => hvalue.bind fun _ _ _ _ => .pure trivial

theorem accepts_scale : scale.Accepts c fun _ => True := by
  refine (Reader.Accepts.leaf Leaf.accepts_numberLeaf).bind fun _ _ _ _ => ?_
  exact (accepts_secondArgument Leaf.accepts_numberLeaf).bind fun _ _ _ _ => .pure trivial

theorem accepts_skew : skew.Accepts c fun _ => True := by
  have hvalue : ∀ {x : Except ReadError Float} {c : Cursor},
      (Reader.ofExcept x).Accepts c fun _ => True := .ofExcept fun _ _ => trivial
  refine (Reader.Accepts.leaf accepts_angle).bind fun _ _ _ _ => ?_
  refine (accepts_secondArgument accepts_angle).bind fun _ _ _ _ => ?_
  exact hvalue.bind fun _ _ _ _ => hvalue.bind fun _ _ _ _ => .pure trivial

theorem accepts_matrix : matrix.Accepts c fun _ => True := by
  refine (Reader.Accepts.leaf Leaf.accepts_numberLeaf).bind fun _ _ _ _ => ?_
  exact (accepts_moreNumbers 5).bind fun _ _ _ _ => .pure trivial

theorem accepts_transformFunctions {name : String} {arguments : Reader (Affine Float)}
    (h : transformFunctions.lookup name = some arguments) :
    arguments.Accepts c fun _ => True := by
  rcases lookup_transformFunctions h with rfl | rfl | rfl | rfl | rfl
  · exact accepts_translate
  · exact accepts_rotate
  · exact accepts_scale
  · exact accepts_skew
  · exact accepts_matrix

theorem recognized_of_transformCall {source : Source} {d : Component} {m : Affine Float}
    (hsource : c.source = source) (h : transformCall c source d = .ok m) :
    d.Recognized source := by
  subst hsource
  obtain ⟨-, -, h⟩ := exists_of_bind_eq_ok h
  cases d with
  | token t => exact absurd h (by simp [Leaf.unexpected])
  | group opener opened children ending =>
    cases opener with
    | function name =>
      dsimp only at h
      split at h
      next arguments hlookup =>
        exact (Reader.recognized_of_children (accepts_transformFunctions hlookup)
          ⟨_, _, _, _, rfl⟩ h).1
      next => exact absurd h (by simp [Leaf.unsupported])
    | _ => exact absurd h (by simp [Leaf.unexpected])

theorem accepts_transform : transform.Accepts c fun _ => True := by
  refine (Reader.Accepts.isKeywordExhausted _).bind fun lone c' _ _ => ?_
  split
  next => exact .pure trivial
  next =>
    refine .ask ?_
    refine (Reader.Accepts.foldAll (P := fun _ => True) trivial fun maps d _ maps' _ h => ?_).bind
      fun _ _ _ _ => .pure trivial
    obtain ⟨m, hm, -⟩ := exists_of_bind_eq_ok (ok_of_ofLeaf h)
    exact ⟨recognized_of_transformCall rfl hm, trivial⟩

/-! ## Shadows -/

/-- The color of the shadow, if it has one of its own, satisfies `P`. -/
def ShadowParts.IsPainted (P : Paint → Prop) (p : ShadowParts) : Prop :=
  ∀ color, p.color? = some color → P (.color color)

/-- The colors of the shadows that were read so far satisfy `P`. -/
def ShadowState.IsPainted (P : Paint → Prop) (s : ShadowState) : Prop :=
  ∀ p ∈ s.current :: s.finished, p.IsPainted P

theorem ShadowParts.isPainted_empty : ShadowParts.empty.IsPainted P :=
  fun _ h => absurd h (by simp [ShadowParts.color?, ShadowParts.empty])

/-- A mark finishes the shadow or makes it inset, and leaves the colors as they are. -/
theorem recognized_of_stepMark {source : Source} {allowInset : Bool} {s s' : ShadowState}
    {d : Component} (hs : s.IsPainted P)
    (h : ShadowState.stepMark source allowInset s d = .ok s') :
    d.Recognized source ∧ s'.IsPainted P := by
  obtain ⟨hcurrent, hfinished⟩ := List.forall_mem_cons.mp hs
  unfold ShadowState.stepMark at h
  split at h
  next hcomma =>
    refine ⟨Component.recognized_of_isComma hcomma, ?_⟩
    split at h
    next =>
      obtain rfl := Except.ok.inj h
      exact List.forall_mem_cons.mpr ⟨ShadowParts.isPainted_empty, hs⟩
    next => exact absurd h (by simp)
  next =>
    split at h
    next hinset =>
      have hkeyword := (Bool.and_eq_true_iff.mp (Bool.and_eq_true_iff.mp hinset).1).2
      obtain rfl := Except.ok.inj h
      exact ⟨Component.recognized_of_isKeyword hkeyword,
        List.forall_mem_cons.mpr ⟨hcurrent, hfinished⟩⟩
    next => exact absurd h (by simp [StepError.ofLeaf, Leaf.unexpected])

theorem recognized_of_shadowState {source : Source} {allowInset : Bool} {s s' : ShadowState}
    {d : Component} (hs : s.IsPainted P) (hd : d.Paints source P)
    (h : ShadowState.step source allowInset s d = .ok s') :
    d.Recognized source ∧ s'.IsPainted P := by
  obtain ⟨hcurrent, hfinished⟩ := List.forall_mem_cons.mp hs
  obtain ⟨-, -, h⟩ := exists_of_bind_eq_ok h
  obtain ⟨paint?, hpaint, h⟩ := exists_of_bind_eq_ok h
  cases paint? with
  | some p =>
    have hp := ok_of_attempted (ok_of_ofLeaf hpaint)
    refine ⟨.paint hp, ?_⟩
    dsimp only at h
    split at h
    next => exact absurd h (by simp [throw, throwThe, MonadExceptOf.throw, bind, Except.bind])
    next =>
      obtain rfl := Except.ok.inj h
      refine List.forall_mem_cons.mpr ⟨fun color hcolor => ?_, hfinished⟩
      exact Paint.color?_eq_some_iff.mp hcolor ▸ hd.here hp
  | none =>
    obtain ⟨length?, hlength, h⟩ := exists_of_bind_eq_ok h
    cases length? with
    | some l =>
      refine ⟨(accepts_length source d l (ok_of_attempted (ok_of_ofLeaf hlength))).1, ?_⟩
      dsimp only at h
      split at h
      next => exact absurd h (by simp [throw, throwThe, MonadExceptOf.throw, bind, Except.bind])
      next =>
        obtain rfl := Except.ok.inj h
        exact List.forall_mem_cons.mpr ⟨hcurrent, hfinished⟩
    | none => exact recognized_of_stepMark hs h

theorem accepts_shadowList (hc : c.Paints P) (allowInset : Bool) :
    (shadowList allowInset).Accepts c fun o =>
      ∀ parts, o = some parts → ∀ p ∈ parts, p.IsPainted P := by
  refine (Reader.Accepts.isKeywordExhausted _).bind fun lone c' _ hpass => ?_
  split
  next => exact .pure fun parts h => absurd h (by simp)
  next =>
    refine .source ?_
    have hstart : ShadowState.start.IsPainted P :=
      List.forall_mem_singleton.mpr ShadowParts.isPainted_empty
    refine (Reader.Accepts.foldAll hstart fun s d hd s' hs h =>
      recognized_of_shadowState hs (hpass.paints hc d hd) h).bind fun state _ hstate _ => ?_
    split
    next =>
      refine .pure fun parts h p hp => ?_
      obtain rfl := Option.some_inj.mp h
      exact hstate p (List.mem_reverse.mp hp)
    next => exact .refuse _

/-- Shadows have the colors of what they were read from. -/
theorem accepts_shadowsOf {α : Type} {f : ShadowParts → Except Reason α} {color : α → Option Color}
    (hf : ∀ {p s}, f p = .ok s → color s = p.color?) {parts : List ShadowParts}
    (hparts : ∀ p ∈ parts, p.IsPainted P) :
    (shadowsOf f parts).Accepts c fun shadows =>
      ∀ s ∈ shadows, ∀ col, color s = some col → P (.color col) := by
  unfold shadowsOf
  split
  next shadows hshadows =>
    refine .pure fun s hs col hcol => ?_
    obtain ⟨p, hp, hread⟩ := exists_mem_of_mapM_eq_ok hshadows s hs
    exact hparts p hp col (hf hread ▸ hcol)
  next => exact .refuse _

theorem color_of_boxShadowOf {p : ShadowParts} {s : BoxShadow} (h : boxShadowOf p = .ok s) :
    s.color = p.color? := by
  obtain ⟨⟨x, y, blur, spread⟩, -, h⟩ := exists_of_bind_eq_ok h
  obtain rfl := Except.ok.inj h
  rfl

theorem color_of_textShadowOf {p : ShadowParts} {s : TextShadow} (h : textShadowOf p = .ok s) :
    s.color = p.color? := by
  obtain ⟨⟨x, y, blur, spread⟩, -, h⟩ := exists_of_bind_eq_ok h
  dsimp only at h
  split at h
  next => exact absurd h (by simp [throw, throwThe, MonadExceptOf.throw, bind, Except.bind])
  next =>
    obtain rfl := Except.ok.inj h
    rfl

theorem accepts_boxShadow (hc : c.Paints P) : boxShadow.Accepts c fun o =>
    ∀ shadows, o = some shadows → (Value.boxShadows shadows).IsPainted P := by
  refine (accepts_shadowList hc true).bind fun parts _ hparts _ => ?_
  split
  next parts =>
    refine (accepts_shadowsOf color_of_boxShadowOf (hparts parts rfl)).bind
      fun shadows _ hshadows _ => .pure fun shadows' h color hcolor => ?_
    obtain rfl := Option.some_inj.mp h
    obtain ⟨s, hs, hcolor⟩ := List.mem_filterMap.mp hcolor
    exact hshadows s hs color hcolor
  next => exact .pure fun _ h => absurd h (by simp)

theorem accepts_textShadow (hc : c.Paints P) : textShadow.Accepts c fun o =>
    ∀ shadows, o = some shadows → (Value.textShadows shadows).IsPainted P := by
  refine (accepts_shadowList hc false).bind fun parts _ hparts _ => ?_
  split
  next parts =>
    refine (accepts_shadowsOf color_of_textShadowOf (hparts parts rfl)).bind
      fun shadows _ hshadows _ => .pure fun shadows' h color hcolor => ?_
    obtain rfl := Option.some_inj.mp h
    obtain ⟨s, hs, hcolor⟩ := List.mem_filterMap.mp hcolor
    exact hshadows s hs color hcolor
  next => exact .pure fun _ h => absurd h (by simp)

/-! ## Shorthands -/

theorem suits_fanOut {ls : List Longhand} {value : PropertyValue}
    (h : ∀ l ∈ ls, ∀ v, value = .exact v → l.Suits P v) :
    ∀ p ∈ fanOut ls value, p.Suits P := by
  intro p hp
  obtain ⟨l, hl, rfl⟩ := List.mem_map.mp hp
  exact Property.suits_longhand (h l hl)

theorem accepts_wideKeyword (P : Paint → Prop) (ls : List Longhand) :
    (wideKeyword ls).Accepts c fun o => ∀ ps, o = some ps → ∀ p ∈ ps, p.Suits P := by
  have hwide : ∀ value : PropertyValue, value.isExact = false →
      ∀ p ∈ fanOut ls value, p.Suits P := by
    intro value hvalue
    refine suits_fanOut fun l _ v hv => ?_
    rw [hv] at hvalue
    exact absurd hvalue (by simp [PropertyValue.isExact])
  refine (Reader.Accepts.isKeywordExhausted _).bind fun initial _ _ _ => ?_
  split
  next => exact .pure fun ps hps => Option.some_inj.mp hps ▸ hwide .initial rfl
  next =>
    refine (Reader.Accepts.isKeywordExhausted _).bind fun inherit _ _ _ => ?_
    split
    next => exact .pure fun ps hps => Option.some_inj.mp hps ▸ hwide .inherit rfl
    next => exact .pure fun ps hps => absurd hps (by simp)

theorem accepts_quad {α : Type} {leaf : Leaf α} {Q : α → Prop}
    (h : ∀ {c'}, c.Passes c' → (Reader.leaf leaf).Accepts c' Q) :
    (quad leaf).Accepts c fun q => ∀ a ∈ q.toList, Q a := by
  have hfour : ∀ {a b d e : α}, Q a → Q b → Q d → Q e →
      ∀ x ∈ (Quad.mk a b d e).toList, Q x := by
    intro a b d e ha hb hd he x hx
    simp only [Quad.toList, List.mem_cons, List.not_mem_nil, or_false] at hx
    rcases hx with rfl | rfl | rfl | rfl
    · exact ha
    · exact hb
    · exact hd
    · exact he
  refine (h (.refl c)).bind fun first _ h₁ hpass₁ => .ask ?_
  split
  next => exact .pure (hfour h₁ h₁ h₁ h₁)
  next =>
    refine (h hpass₁).bind fun second _ h₂ hpass₂ => .ask ?_
    split
    next => exact .pure (hfour h₁ h₂ h₁ h₂)
    next =>
      refine (h (hpass₁.trans hpass₂)).bind fun third _ h₃ hpass₃ => .ask ?_
      split
      next => exact .pure (hfour h₁ h₂ h₃ h₂)
      next =>
        have hpass := hpass₁.trans (hpass₂.trans hpass₃)
        refine (h hpass).bind fun fourth _ h₄ _ => ?_
        exact Reader.Accepts.expectExhausted.bind fun _ _ _ _ => .pure (hfour h₁ h₂ h₃ h₄)

/-- A shorthand of four values gives values that suit the longhands if its leaf does. -/
theorem accepts_quadShorthand {α : Type} {leaf : Leaf α} {Q : α → Prop}
    (h : ∀ {c'}, c.Passes c' → (Reader.leaf leaf).Accepts c' Q) {ls : List Longhand}
    {value : α → Value} (hvalue : ∀ l ∈ ls, ∀ a, Q a → l.Suits P (value a)) :
    (quadShorthand ls leaf value).Accepts c fun ps => ∀ p ∈ ps, p.Suits P := by
  refine (accepts_wideKeyword P ls).bind fun wide _ hwide hpass => ?_
  cases wide with
  | some ps => exact .pure (hwide ps rfl)
  | none =>
    refine (accepts_quad fun hpass' => h (hpass.trans hpass')).bind fun q _ hq _ =>
      .pure fun p hp => ?_
    rw [← List.map_uncurry_zip_eq_zipWith] at hp
    obtain ⟨⟨l, a⟩, hmem, rfl⟩ := List.mem_map.mp hp
    obtain ⟨hl, ha⟩ := List.of_mem_zip hmem
    refine Property.suits_longhand fun v hv => ?_
    obtain rfl := PropertyValue.exact.inj hv
    exact hvalue l hl a (hq a ha)

theorem recognized_of_stepStyle {source : Source} {s s' : StrokeState} {d : Component}
    (h : StrokeState.stepStyle source s d = .ok s') :
    d.Recognized source ∧ s'.properties = s.properties := by
  unfold StrokeState.stepStyle at h
  split at h
  next =>
    dsimp only at h
    split at h
    next => exact absurd h (by simp)
    next =>
      split at h
      next =>
        obtain rfl := Except.ok.inj h
        exact ⟨.token rfl, rfl⟩
      next => exact absurd h (by simp [StepError.ofLeaf, Leaf.unexpected])
  next => exact absurd h (by simp [StepError.ofLeaf, Leaf.unexpected])

/-- One more part of a line suits the longhands of the line. -/
theorem recognized_of_strokeState {source : Source} {colors widths : List Longhand}
    (hcolors : ∀ l ∈ colors, ∀ p, P p → l.Suits P (.paint p))
    (hwidths : ∀ l ∈ widths, ∀ w : Length, w.isNegative = false → l.Suits P (.length w))
    {s s' : StrokeState} {d : Component} (hs : ∀ p ∈ s.properties, p.Suits P)
    (hd : d.Paints source P) (h : StrokeState.step source colors widths s d = .ok s') :
    d.Recognized source ∧ ∀ p ∈ s'.properties, p.Suits P := by
  have hadd : ∀ {ps : List Property}, (∀ p ∈ ps, p.Suits P) →
      ∀ p ∈ s.properties ++ ps, p.Suits P := by
    intro ps hps p hp
    exact (List.mem_append.mp hp).elim (hs p) (hps p)
  obtain ⟨-, -, h⟩ := exists_of_bind_eq_ok h
  obtain ⟨paint?, hpaint, h⟩ := exists_of_bind_eq_ok h
  cases paint? with
  | some p =>
    have hp := ok_of_attempted (ok_of_ofLeaf hpaint)
    refine ⟨.paint hp, ?_⟩
    dsimp only at h
    split at h
    next => exact absurd h (by simp [throw, throwThe, MonadExceptOf.throw, bind, Except.bind])
    next =>
      obtain rfl := Except.ok.inj h
      refine hadd (suits_fanOut fun l hl v hv => ?_)
      obtain rfl := PropertyValue.exact.inj hv
      exact hcolors l hl p (hd.here hp)
  | none =>
    obtain ⟨width?, hwidth, h⟩ := exists_of_bind_eq_ok h
    cases width? with
    | some w =>
      obtain ⟨hd, hw⟩ := accepts_lineWidth source d w (ok_of_attempted (ok_of_ofLeaf hwidth))
      refine ⟨hd, ?_⟩
      dsimp only at h
      split at h
      next => exact absurd h (by simp [throw, throwThe, MonadExceptOf.throw, bind, Except.bind])
      next =>
        obtain rfl := Except.ok.inj h
        refine hadd (suits_fanOut fun l hl v hv => ?_)
        obtain rfl := PropertyValue.exact.inj hv
        exact hwidths l hl w hw
    | none =>
      obtain ⟨hd, hproperties⟩ := recognized_of_stepStyle h
      exact ⟨hd, hproperties ▸ hs⟩

theorem accepts_strokeShorthand {colors widths : List Longhand} (hc : c.Paints P)
    (hcolors : ∀ l ∈ colors, ∀ p, P p → l.Suits P (.paint p))
    (hwidths : ∀ l ∈ widths, ∀ w : Length, w.isNegative = false → l.Suits P (.length w)) :
    (strokeShorthand colors widths).Accepts c fun ps => ∀ p ∈ ps, p.Suits P := by
  refine (accepts_wideKeyword P _).bind fun wide _ hwide hpass => ?_
  cases wide with
  | some ps => exact .pure (hwide ps rfl)
  | none =>
    refine .source ?_
    refine (Reader.Accepts.foldAll (P := fun s : StrokeState => ∀ p ∈ s.properties, p.Suits P)
      (fun _ hp => absurd hp List.not_mem_nil) fun s d hd s' hs h =>
        recognized_of_strokeState hcolors hwidths hs (hpass.paints hc d hd) h).bind
          fun state _ hstate _ => ?_
    exact .pure hstate

/-- What was read of the start of a font lies in the ranges. -/
structure FontParts.IsAdmitted (p : FontParts) : Prop where
  weight : ∀ x, p.weight = some x → (Range.between 1.0 1000.0).admits (.real x) = true
  width : ∀ x, p.width = some x → Range.fontWidth.admits (.fontWidth x) = true

/-- A part that may have been read already, and otherwise is read if it stands here. -/
theorem accepts_optionalPart {α β : Type} {missing : Bool} {r : Reader α} {P : α → Prop}
    {Q : β → Prop} {k : Option α → Reader β} {rest : Reader β} (hr : r.Accepts c P)
    (hsome : ∀ a c', P a → (k (some a)).Accepts c' Q) (hnone : k none = rest)
    (hrest : ∀ c', c.Passes c' → rest.Accepts c' Q) :
    (if missing = true then Reader.attempt r >>= k else rest).Accepts c Q := by
  split
  next =>
    refine hr.attempt.bind fun o c' ho hpass => ?_
    cases o with
    | some a => exact hsome a c' (ho a rfl)
    | none => exact hnone ▸ hrest c' hpass
  next => exact hrest c (.refl c)

theorem accepts_fontPart (hc : c.IsComparable) {p : FontParts} (hp : p.IsAdmitted) :
    (fontPart p).Accepts c fun o => ∀ p', o = some p' → p'.IsAdmitted := by
  unfold fontPart
  refine accepts_optionalPart (accepts_fontStyle false) (fun style _ _ => ?_) rfl
    fun c' hpass => ?_
  · exact .pure fun p' h => Option.some_inj.mp h ▸ ⟨hp.weight, hp.width⟩
  have hweight := Reader.Accepts.leaf_of_forall fun d hd _ h =>
    accepts_fontWeight (hpass.isComparable hc d hd) h
  refine accepts_optionalPart hweight (fun weight _ hweight => ?_) rfl fun _ _ => ?_
  · exact .pure fun p' h => Option.some_inj.mp h ▸
      ⟨fun x hx => Option.some_inj.mp hx ▸ hweight, hp.width⟩
  refine accepts_optionalPart (.leaf accepts_fontWidth) (fun width _ hwidth => ?_) rfl
    fun _ _ => ?_
  · exact .pure fun p' h => Option.some_inj.mp h ▸
      ⟨hp.weight, fun x hx => Option.some_inj.mp hx ▸ hwidth⟩
  exact .pure fun p' h => absurd h (by simp)

theorem accepts_fontParts (hc : c.IsComparable) {p : FontParts} (hp : p.IsAdmitted) (count : Nat) :
    (fontParts p count).Accepts c FontParts.IsAdmitted := by
  induction count generalizing p c with
  | zero => exact .pure hp
  | succ count ih =>
    refine (accepts_fontPart hc hp).bind fun more _ hmore hpass => ?_
    split
    next p' => exact ih (hpass.isComparable hc) (hmore p' rfl)
    next => exact .pure hp

theorem accepts_fontLineHeight : fontLineHeight.Accepts c fun value =>
    ∀ v, value = .exact v → ∃ z, v = .size z := by
  have hinitial : ∀ {c : Cursor}, (pure .initial : Reader PropertyValue).Accepts c fun value =>
      ∀ v, value = .exact v → ∃ z, v = .size z :=
    .pure fun _ hv => absurd hv (by simp)
  refine .ask ?_
  split
  next d hpeek =>
    split
    next h =>
      have hd : d.Recognized c.source := Component.recognized_of_isTokenOf (fun _ => rfl) h
      refine (Reader.Accepts.next_of_peek hpeek hd).bind fun _ _ _ _ => ?_
      refine (Reader.Accepts.tryKeyword _).bind fun _ _ _ _ => ?_
      split
      next => exact hinitial
      next =>
        exact (Reader.Accepts.leaf accepts_size).bind fun z _ _ _ =>
          .pure fun _ hv => ⟨z, (PropertyValue.exact.inj hv).symm⟩
    next => exact hinitial
  next => exact hinitial

/-- What is declared for a part that may be missing suits the longhand. -/
theorem suits_exactOrInitial {α : Type} {l : Longhand} {value : α → Value} {o : Option α}
    (h : ∀ a, o = some a → l.Suits P (value a)) :
    (Property.longhand l (exactOrInitial value o)).Suits P := by
  refine Property.suits_longhand fun v hv => ?_
  cases o with
  | none => exact absurd hv (by simp [exactOrInitial])
  | some a =>
    obtain rfl := PropertyValue.exact.inj hv
    exact h a rfl

theorem accepts_fontShorthand (hc : c.IsComparable) :
    fontShorthand.Accepts c fun ps => ∀ p ∈ ps, p.Suits P := by
  refine (accepts_wideKeyword P _).bind fun wide _ hwide hpass => ?_
  cases wide with
  | some ps => exact .pure (hwide ps rfl)
  | none =>
    have hstart : (FontParts.mk none none none).IsAdmitted :=
      ⟨fun _ h => absurd h (by simp), fun _ h => absurd h (by simp)⟩
    refine (accepts_fontParts (hpass.isComparable hc) hstart 3).bind fun parts _ hparts _ => ?_
    refine (Reader.Accepts.leaf accepts_fontSize).bind fun points _ hpoints _ => ?_
    refine accepts_fontLineHeight.bind fun lineHeight _ hlineHeight _ => ?_
    refine accepts_fontFamily.bind fun family _ _ _ => .pure fun p hp => ?_
    simp only [List.mem_cons, List.not_mem_nil, or_false] at hp
    rcases hp with rfl | rfl | rfl | rfl | rfl | rfl
    · exact suits_exactOrInitial fun _ _ => .of_uncolored rfl rfl (.inr rfl)
    · exact suits_exactOrInitial fun x hx => .of_uncolored rfl rfl (.inr (hparts.weight x hx))
    · exact suits_exactOrInitial fun x hx => .of_uncolored rfl rfl (.inr (hparts.width x hx))
    · exact Property.suits_longhand fun v hv =>
        PropertyValue.exact.inj hv ▸ .of_uncolored rfl rfl (.inr hpoints)
    · refine Property.suits_longhand fun v hv => ?_
      obtain ⟨z, rfl⟩ := hlineHeight v hv
      exact .of_uncolored rfl rfl (.inl rfl)
    · exact Property.suits_longhand fun v hv =>
        PropertyValue.exact.inj hv ▸ .of_uncolored rfl rfl (.inr rfl)

end Grammar

/-- The grammar of a shorthand recognizes what it takes, and declares longhands with values that
suit them. -/
theorem Shorthand.accepts_reader (s : Shorthand) {c : Cursor} {P : Paint → Prop}
    (hc : c.IsComparable) (hpaints : c.Paints P) :
    s.reader.Accepts c fun ps => ∀ p ∈ ps, p.Suits P := by
  have hcolors : ∀ l ∈ borderColors, ∀ p, P p → l.Suits P (.paint p) := by
    intro l hl p hp
    obtain ⟨side, -, rfl⟩ := List.mem_map.mp hl
    exact ⟨rfl, .inr rfl, Value.isPainted_paint hp⟩
  have hwidths : ∀ l ∈ borderWidths, ∀ w : Length, w.isNegative = false →
      l.Suits P (.length w) := by
    intro l hl w hw
    obtain ⟨side, -, rfl⟩ := List.mem_map.mp hl
    exact .of_uncolored rfl rfl (.inr (congrArg not hw))
  cases s with
  | border => exact Grammar.accepts_strokeShorthand hpaints hcolors hwidths
  | borderSide side =>
    refine Grammar.accepts_strokeShorthand hpaints (fun l hl p hp => ?_) fun l hl w hw => ?_
    · obtain rfl := List.mem_singleton.mp hl
      exact ⟨rfl, .inr rfl, Value.isPainted_paint hp⟩
    · obtain rfl := List.mem_singleton.mp hl
      exact .of_uncolored rfl rfl (.inr (congrArg not hw))
  | outline =>
    refine Grammar.accepts_strokeShorthand hpaints (fun l hl p hp => ?_) fun l hl w hw => ?_
    · obtain rfl := List.mem_singleton.mp hl
      exact ⟨rfl, .inr rfl, Value.isPainted_paint hp⟩
    · obtain rfl := List.mem_singleton.mp hl
      exact .of_uncolored rfl rfl (.inr (congrArg not hw))
  | borderColor =>
    exact Grammar.accepts_quadShorthand
      (fun hpass => Grammar.accepts_paint (hpass.paints hpaints)) hcolors
  | borderWidth =>
    exact Grammar.accepts_quadShorthand (fun _ => .leaf Grammar.accepts_lineWidth) hwidths
  | borderRadius =>
    refine Grammar.accepts_quadShorthand (fun _ => .leaf Grammar.accepts_positiveLength)
      fun l hl w hw => ?_
    obtain ⟨corner, -, rfl⟩ := List.mem_map.mp hl
    exact .of_uncolored rfl rfl (.inr (congrArg not hw))
  | space =>
    refine Grammar.accepts_quadShorthand (fun _ => .leaf Grammar.accepts_size) fun l hl _ _ => ?_
    obtain ⟨side, -, rfl⟩ := List.mem_map.mp hl
    exact .of_uncolored rfl rfl (.inr rfl)
  | childSpace =>
    refine Grammar.accepts_quadShorthand (fun _ => .leaf Grammar.accepts_size) fun l hl _ _ => ?_
    obtain ⟨side, -, rfl⟩ := List.mem_map.mp hl
    exact .of_uncolored rfl rfl (.inl rfl)
  | font => exact Grammar.accepts_fontShorthand hc

end Styling
