import Mathlib
import Styling.Proofs.Value.Painting
import Styling.Value.Gradient

/-!
# Which lists of pieces are gradients

A list of pieces has a shape: it begins and ends with a stop, has two stops at least, and no hint
stands next to another.  Normalization takes the lists of this shape and no others, whatever the
positions are, as long as the hints have some and the colors can be mixed.

What becomes of the colors can be said without the positions too.  The pieces are read from left to
right, and a hint waits for the stop after it; by then the stop in front of it is known, so that its
color is mixed from the two stops that stand next to it.  `Stop.Follow` says this of a list of stops
and the colors of its pieces, one after the other, and goes together with how a list is split into
segments: stops that follow on one segment and stops that follow on the next are joined.

* `StopPiece.IsWellFormed` is the shape of a gradient.
* `StopPiece.placeInner_cases` is about one segment and `StopPiece.placeFrom_cases` about all of
  them.
* `normalizeStops_cases` is about a list of pieces.
* `normalizeStops_hintPaintBy` says it of paints, over any way to mix two colors.
-/

namespace Styling

/-! ## Hints between stops -/

/-- How far between two positions another one lies; the middle if they hardly differ. -/
def hintFraction (before after position : Float) : Float :=
  let span := after - before
  if stopEpsilon < span.abs then clamp 0.0 1.0 ((position - before) / span) else 0.5

/-- The paint of a hint between two stops, over any way to mix two colors. -/
def hintPaintBy (mix : Color → Color → Float → ColorSpace → HueDirection → Except Fault Color)
    (space : ColorSpace) (direction : HueDirection) (before after : Stop Paint Float)
    (position : Float) : Except Fault Paint :=
  match before.color, after.color with
  | .color first, .color second => do
    return .color
      (← mix first second (hintFraction before.position after.position position) space direction)
  | _, _ => .ok .current

/-- In a gradient the colors are mixed as in any other place. -/
theorem hintPaint_eq_hintPaintBy : hintPaint = hintPaintBy Color.mix := rfl

/-! ## Stops and the colors of their pieces -/

/-- The stops behind a stop, up to a last one, have the colors of their pieces, and where a piece
has none it is mixed from the stops on both sides. -/
inductive Stop.Follow {κ α ε : Type} (mix : Stop κ α → Stop κ α → α → Except ε κ) :
    Stop κ α → List (Option κ) → List (Stop κ α) → Stop κ α → Prop
  | nil (before : Stop κ α) : Follow mix before [] [] before
  | stop {before stop last : Stop κ α} {colors : List (Option κ)} {stops : List (Stop κ α)}
    (h : Follow mix stop colors stops last) :
    Follow mix before (some stop.color :: colors) (stop :: stops) last
  | hint {before hint stop last : Stop κ α} {colors : List (Option κ)} {stops : List (Stop κ α)}
    (hmix : mix before stop hint.position = .ok hint.color)
    (h : Follow mix stop colors stops last) :
    Follow mix before (none :: some stop.color :: colors) (hint :: stop :: stops) last

namespace Stop.Follow

variable {κ α ε : Type} {mix : Stop κ α → Stop κ α → α → Except ε κ}
  {before middle last : Stop κ α} {colors moreColors : List (Option κ)}
  {stops moreStops : List (Stop κ α)}

/-- Stops that follow on each other are joined. -/
theorem append (h : Follow mix before colors stops middle)
    (hmore : Follow mix middle moreColors moreStops last) :
    Follow mix before (colors ++ moreColors) (stops ++ moreStops) last := by
  induction h with
  | nil before => exact hmore
  | stop _ ih => exact .stop (ih hmore)
  | hint hmix _ ih => exact .hint hmix (ih hmore)

theorem length_eq (h : Follow mix before colors stops last) : stops.length = colors.length := by
  induction h with
  | nil before => rfl
  | stop _ ih => exact congrArg (· + 1) ih
  | hint _ _ ih => exact congrArg (· + 2) ih

/-- A piece with a color becomes a stop of this color. -/
theorem exists_stop (h : Follow mix before colors stops last) {i : Nat} {color : κ}
    (hi : (some before.color :: colors)[i]? = some (some color)) :
    ∃ s, (before :: stops)[i]? = some s ∧ s.color = color := by
  induction h generalizing i with
  | nil before =>
    cases i with
    | zero => exact ⟨before, rfl, Option.some_inj.mp (Option.some_inj.mp hi)⟩
    | succ i => exact absurd hi (by simp)
  | @stop before _ _ _ _ _ ih =>
    cases i with
    | zero => exact ⟨before, rfl, Option.some_inj.mp (Option.some_inj.mp hi)⟩
    | succ i => exact ih hi
  | @hint before _ _ _ _ _ _ _ ih =>
    match i with
    | 0 => exact ⟨before, rfl, Option.some_inj.mp (Option.some_inj.mp hi)⟩
    | 1 => exact absurd hi (by simp)
    | i + 2 => exact ih hi

/-- A piece without a color stands between two with a color, and becomes a stop of a mixture. -/
theorem exists_hint (h : Follow mix before colors stops last) {i : Nat}
    (hi : (some before.color :: colors)[i]? = some none) :
    ∃ j first hint second, i = j + 1 ∧
      (some before.color :: colors)[j]? = some (some first.color) ∧
      (some before.color :: colors)[j + 2]? = some (some second.color) ∧
      (before :: stops)[j]? = some first ∧ (before :: stops)[j + 1]? = some hint ∧
      (before :: stops)[j + 2]? = some second ∧
      mix first second hint.position = .ok hint.color := by
  induction h generalizing i with
  | nil before =>
    cases i with
    | zero => exact absurd hi (by simp)
    | succ i => exact absurd hi (by simp)
  | stop _ ih =>
    cases i with
    | zero => exact absurd hi (by simp)
    | succ i =>
      obtain ⟨j, first, hint, second, rfl, hstops⟩ := ih hi
      exact ⟨j + 1, first, hint, second, rfl, hstops⟩
  | @hint before hint stop _ _ _ hmix _ ih =>
    match i with
    | 0 => exact absurd hi (by simp)
    | 1 => exact ⟨0, before, hint, stop, rfl, rfl, rfl, rfl, rfl, rfl, hmix⟩
    | i + 2 =>
      obtain ⟨j, first, hint, second, rfl, hstops⟩ := ih hi
      exact ⟨j + 2, first, hint, second, rfl, hstops⟩

end Stop.Follow

namespace StopPiece

variable {κ α ε : Type}

/-! ## The shape of a gradient -/

/-- No hint stands next to another. -/
def IsApart (ps : List (StopPiece κ α)) : Prop :=
  ps.IsChain fun p q => ¬ (p.isHint = true ∧ q.isHint = true)

/-- There are two stops at least, one at the beginning and one at the end, and no hint stands next
to another. -/
structure IsWellFormed (ps : List (StopPiece κ α)) : Prop where
  two : 2 ≤ (ps.filter fun p => !p.isHint).length
  head : ∀ p, ps.head? = some p → p.isHint = false
  last : ∀ p, ps.getLast? = some p → p.isHint = false
  apart : IsApart ps

/-- Every hint has a position. -/
def HintsPlaced (ps : List (StopPiece κ α)) : Prop :=
  hint none ∉ ps

theorem isHint_eq_isNone_color? (p : StopPiece κ α) : p.isHint = p.color?.isNone := by
  cases p <;> rfl

/-- A piece with a color is a stop. -/
theorem exists_stop_of_color? {ps : List (StopPiece κ α)} {i : Nat} {color : κ}
    (h : (ps.map color?)[i]? = some (some color)) :
    ∃ position, ps[i]? = some (stop color position) := by
  rw [List.getElem?_map] at h
  obtain ⟨p, hp, hcolor⟩ := Option.map_eq_some_iff.mp h
  cases p with
  | stop c position => exact ⟨position, Option.some_inj.mp hcolor ▸ hp⟩
  | hint position => exact absurd hcolor (by simp [color?])

/-- Whether hints stand next to each other does not depend on the positions. -/
theorem isApart_congr {ps qs : List (StopPiece κ α)} (h : ps.map color? = qs.map color?) :
    IsApart ps ↔ IsApart qs := by
  have hmap : ∀ rs : List (StopPiece κ α), IsApart rs ↔
      (rs.map color?).IsChain fun c d => ¬ (c.isNone = true ∧ d.isNone = true) := by
    intro rs
    rw [List.isChain_map]
    simp only [IsApart, isHint_eq_isNone_color?]
  rw [hmap, hmap, h]

/-- A stop keeps what is in front of it apart from what is behind it. -/
theorem isApart_append_stop {ps qs : List (StopPiece κ α)} {color : κ} {position : Option α} :
    IsApart (ps ++ stop color position :: qs) ↔ IsApart ps ∧ IsApart qs := by
  constructor
  · intro h
    obtain ⟨hps, hqs, -⟩ := List.isChain_append.mp h
    exact ⟨hps, (List.isChain_cons.mp hqs).2⟩
  · rintro ⟨hps, hqs⟩
    refine List.isChain_append.mpr ⟨hps, List.isChain_cons.mpr ⟨?_, hqs⟩, ?_⟩
    · exact fun q _ hhints => absurd hhints.1 Bool.false_ne_true
    · rintro p - q hq ⟨-, hhint⟩
      obtain rfl := Option.some_inj.mp hq
      exact absurd hhint Bool.false_ne_true

theorem isApart_cons_stop {qs : List (StopPiece κ α)} {color : κ} {position : Option α} :
    IsApart (stop color position :: qs) ↔ IsApart qs :=
  (@isApart_append_stop κ α [] qs color position).trans (and_iff_right .nil)

/-- The list has the shape of a gradient, apart from hints next to each other. -/
theorem shapeError?_eq_none_iff {ps : List (StopPiece κ α)} :
    shapeError? ps = none ↔ 2 ≤ (ps.filter fun p => !p.isHint).length ∧
      (∀ p, ps.head? = some p → p.isHint = false) ∧
      ∀ p, ps.getLast? = some p → p.isHint = false := by
  have hany : ∀ o : Option (StopPiece κ α), o.any isHint = true ↔
      ¬ ∀ p, o = some p → p.isHint = false := by
    intro o
    cases o <;> simp
  unfold shapeError?
  split_ifs with htwo hhead hlast
  · exact iff_of_false (by simp) fun h => absurd h.1 (Nat.not_le.mpr htwo)
  · exact iff_of_false (by simp) fun h => (hany _).mp hhead h.2.1
  · exact iff_of_false (by simp) fun h => (hany _).mp hlast h.2.2
  · exact iff_of_true rfl ⟨Nat.not_lt.mp htwo, not_not.mp (mt (hany _).mpr hhead),
      not_not.mp (mt (hany _).mpr hlast)⟩

/-! ## The ends of a list -/

/-- The piece is a stop with a position. -/
def IsPlaced (p : StopPiece κ α) : Prop :=
  ∃ color position, p = stop color (some position)

theorem isPlaced_withDefault (default : α) {p : StopPiece κ α} (h : p.isHint = false) :
    (p.withDefault default).IsPlaced := by
  cases p with
  | stop color position => exact ⟨color, _, rfl⟩
  | hint position => exact absurd h (by simp [isHint])

theorem getLast?_mapLast (f : StopPiece κ α → StopPiece κ α) (ps : List (StopPiece κ α)) :
    (mapLast f ps).getLast? = ps.getLast?.map f := by
  fun_induction mapLast f ps with
  | case1 => rfl
  | case2 p => rfl
  | case3 p ps hps ih =>
    obtain ⟨q, qs, rfl⟩ := List.exists_cons_of_ne_nil hps
    rw [List.getLast?_cons_cons, ← ih]
    cases qs <;> rfl

/-- A default position at the end gives no hint another position. -/
theorem hintsPlaced_mapLast (default : α) {ps : List (StopPiece κ α)} (h : HintsPlaced ps) :
    HintsPlaced (mapLast (withDefault default) ps) := by
  fun_induction mapLast (withDefault default) ps with
  | case1 => exact h
  | case2 p =>
    cases p with
    | stop color position =>
      exact fun hmem => absurd (List.mem_singleton.mp hmem) (by simp [withDefault])
    | hint position => exact h
  | case3 p ps _ ih =>
    obtain ⟨hp, hps⟩ := not_or.mp (mt List.mem_cons.mpr h)
    exact mt List.mem_cons.mp (not_or.mpr ⟨hp, ih hps⟩)

/-! ## Placing -/

/-- A segment with its end and what is behind it makes up the list. -/
theorem eq_of_segment?_eq_some {ps : List (StopPiece κ α)} {s : Segment κ α}
    (h : segment? ps = some s) :
    ps = s.inner ++ stop s.endColor (some s.endPosition) :: s.rest := by
  fun_induction segment? ps generalizing s with
  | case1 => exact absurd h (by simp)
  | case2 color position ps =>
    obtain rfl := Option.some_inj.mp h
    rfl
  | case3 p ps _ ih =>
    obtain ⟨t, ht, rfl⟩ := Option.map_eq_some_iff.mp h
    exact congrArg (p :: ·) (ih ht)

/-- A list that ends with a placed stop has a first segment, unless it is empty. -/
theorem eq_nil_of_segment?_eq_none {ps : List (StopPiece κ α)} (h : segment? ps = none)
    (hlast : ∀ p, ps.getLast? = some p → p.IsPlaced) : ps = [] := by
  fun_induction segment? ps with
  | case1 => rfl
  | case2 color position ps => exact absurd h (by simp)
  | case3 p ps hp ih =>
    have hps := ih (Option.map_eq_none_iff.mp h)
    cases ps with
    | nil =>
      obtain ⟨color, position, rfl⟩ := hlast p rfl
      exact absurd rfl (hp color position)
    | cons q qs => exact absurd (hps (by simpa using hlast)) (by simp)

section Placing

variable (ofNat : Nat → α) {mix : Stop κ α → Stop κ α → α → Except ε κ} {P : κ → Prop}
  (hmix : ∀ before after : Stop κ α, P before.color → P after.color →
    ∀ position, ∃ color, mix before after position = .ok color)

include hmix

/-- A hint that waits for a stop is mixed from the stop in front and this one. -/
theorem exists_finishStop [LT α] [DecidableLT α] {before stop : Stop κ α}
    {waiting : Option (Option α)} (hwaiting : waiting ≠ some none) (hbefore : P before.color)
    (hstop : P stop.color) :
    ∃ stops, placeInner.finishStop mix before waiting stop = .ok stops ∧
      Stop.Follow mix before ((waiting.toList.map hint).map color? ++ [some stop.color]) stops
        stop := by
  match waiting with
  | none => exact ⟨_, rfl, .stop (.nil stop)⟩
  | some none => exact absurd rfl hwaiting
  | some (some raw) =>
    obtain ⟨color, hcolor⟩ :=
      hmix before stop hbefore hstop (clamp before.position stop.position raw)
    refine ⟨[⟨clamp before.position stop.position raw, color⟩, stop], ?_, .hint hcolor (.nil stop)⟩
    simp only [placeInner.finishStop, hcolor]

/-- The pieces of a segment are placed if no hints stand next to each other, and the stops follow on
the one in front of the segment.  A hint that waits counts as a piece. -/
theorem placeInner_cases [Add α] [Mul α] [LT α] [DecidableLT α] (start step : α)
    (last before : Stop κ α) (placed : Nat) (waiting : Option (Option α))
    {ps : List (StopPiece κ α)} (hhints : HintsPlaced (waiting.toList.map hint ++ ps))
    (hall : AllColors P ps) (hbefore : P before.color) (hlast : P last.color) :
    (IsApart (waiting.toList.map hint ++ ps) ∧ ∃ stops,
        placeInner ofNat mix start step last placed before waiting ps = .ok stops ∧
        Stop.Follow mix before
          ((waiting.toList.map hint ++ ps).map color? ++ [some last.color]) stops last) ∨
      ¬ IsApart (waiting.toList.map hint ++ ps) ∧
        placeInner ofNat mix start step last placed before waiting ps =
          .error (.malformed .hintsAdjacent) := by
  induction ps generalizing placed before waiting with
  | nil =>
    have hwaiting : waiting ≠ some none := by
      rintro rfl
      exact hhints (by simp)
    obtain ⟨stops, hstops, hfollow⟩ := exists_finishStop hmix hwaiting hbefore hlast
    rw [List.append_nil]
    refine Or.inl ⟨?_, stops, hstops, hfollow⟩
    cases waiting with
    | none => exact .nil
    | some position => exact .singleton _
  | cons p ps ih =>
    obtain ⟨hp, hps⟩ := allColors_cons.mp hall
    cases p with
    | hint position =>
      cases waiting with
      | none => exact ih before placed (some position) hhints hps hbefore
      | some waiting =>
        refine Or.inr ⟨fun hapart => ?_, rfl⟩
        exact (List.isChain_cons_cons.mp hapart).1 ⟨rfl, rfl⟩
    | stop color position =>
      have hwaiting : waiting ≠ some none := by
        rintro rfl
        exact hhints (by simp)
      let placedStop : Stop κ α := ⟨start + step * ofNat (placed + 1), color⟩
      have hcolor : P placedStop.color := hp color rfl
      obtain ⟨stops, hstops, hfollow⟩ := exists_finishStop hmix hwaiting hbefore hcolor
      have hhints' : HintsPlaced ps := fun hmem => hhints (by simp [hmem])
      have happend : IsApart (waiting.toList.map hint ++ stop color position :: ps) ↔
          IsApart ps := by
        rw [isApart_append_stop, and_iff_right]
        cases waiting with
        | none => exact .nil
        | some position => exact .singleton _
      rw [happend]
      rcases ih placedStop (placed + 1) none hhints' hps hcolor with
        ⟨hapart, more, hmore, hfollowMore⟩ | ⟨hapart, herror⟩
      · refine Or.inl ⟨hapart, stops ++ more, ?_, ?_⟩
        · rw [placeInner, hstops]
          exact congrArg (· >>= fun more => .ok (stops ++ more)) hmore
        · rw [List.map_append, List.append_assoc]
          exact List.append_assoc _ [some color] _ ▸ hfollow.append hfollowMore
      · refine Or.inr ⟨hapart, ?_⟩
        rw [placeInner, hstops]
        exact congrArg (· >>= fun more => .ok (stops ++ more)) herror

/-- The pieces behind a stop are placed, segment by segment, if no hints stand next to each
other. -/
theorem placeFrom_cases [Add α] [Sub α] [Mul α] [Div α] [LT α] [DecidableLT α] (before : Stop κ α)
    {ps : List (StopPiece κ α)} (hhints : HintsPlaced ps)
    (hclosed : ∀ p, ps.getLast? = some p → p.IsPlaced) (hall : AllColors P ps)
    (hbefore : P before.color) :
    (IsApart ps ∧ ∃ stops last, placeFrom ofNat mix before ps = .ok stops ∧
        Stop.Follow mix before (ps.map color?) stops last) ∨
      ¬ IsApart ps ∧ placeFrom ofNat mix before ps = .error (.malformed .hintsAdjacent) := by
  fun_induction placeFrom ofNat mix before ps with
  | case1 before ps hnone =>
    obtain rfl := eq_nil_of_segment?_eq_none hnone hclosed
    exact Or.inl ⟨.nil, [], before, rfl, .nil before⟩
  | case2 before ps s hsegment last step =>
    rename_i ih
    obtain ⟨hinner, hend, hrest⟩ := allColors_segment? hsegment hall
    obtain rfl := eq_of_segment?_eq_some hsegment
    have hhintsInner : HintsPlaced s.inner := fun hmem => hhints (List.mem_append_left _ hmem)
    have hhintsRest : HintsPlaced s.rest := fun hmem =>
      hhints (List.mem_append_right _ (List.mem_cons_of_mem _ hmem))
    have hclosedRest : ∀ p, s.rest.getLast? = some p → p.IsPlaced := fun p hp =>
      hclosed p (by rw [List.getLast?_append, List.getLast?_cons, hp]; rfl)
    rw [isApart_append_stop]
    rcases placeInner_cases ofNat hmix before.position step last before 0 none hhintsInner hinner
        hbefore hend with
      ⟨hapart, stops, hstops, hfollow⟩ | ⟨hapart, herror⟩
    · rw [hstops]
      rcases ih hhintsRest hclosedRest hrest hend with
        ⟨hapartRest, more, final, hmore, hfollowMore⟩ | ⟨hapartRest, herror⟩
      · refine Or.inl ⟨⟨hapart, hapartRest⟩, stops ++ more, final, ?_, ?_⟩
        · exact congrArg (· >>= fun more => .ok (stops ++ more)) hmore
        · rw [List.map_append]
          exact List.append_assoc _ [some s.endColor] _ ▸ hfollow.append hfollowMore
      · refine Or.inr ⟨fun h => hapartRest h.2, ?_⟩
        exact congrArg (· >>= fun more => .ok (stops ++ more)) herror
    · rw [herror]
      exact Or.inr ⟨fun h => hapart h.1, rfl⟩

end Placing

end StopPiece

/-! ## Lists of pieces -/

/-- **A list of pieces is a gradient if it has the shape of one, and is malformed otherwise.**  Its
colors can be mixed and its hints have positions.  The first of the stops belongs to the first
piece, and the others follow on it. -/
theorem normalizeStops_cases {κ α ε : Type} [Add α] [Sub α] [Mul α] [Div α] [LT α] [DecidableLT α]
    [OfNat α 0] [OfNat α 1] (ofNat : Nat → α) {mix : Stop κ α → Stop κ α → α → Except ε κ}
    {P : κ → Prop}
    (hmix : ∀ before after : Stop κ α, P before.color → P after.color →
      ∀ position, ∃ color, mix before after position = .ok color)
    {pieces : List (StopPiece κ α)} (hhints : StopPiece.HintsPlaced pieces)
    (hall : StopPiece.AllColors P pieces) :
    (StopPiece.IsWellFormed pieces ∧ ∃ first stops last colors,
        normalizeStops ofNat mix pieces = .ok (first :: stops) ∧
        pieces.map StopPiece.color? = some first.color :: colors ∧
        Stop.Follow mix first colors stops last) ∨
      ¬ StopPiece.IsWellFormed pieces ∧
        ∃ reason, normalizeStops ofNat mix pieces = .error (.malformed reason) := by
  cases hshape : StopPiece.shapeError? pieces with
  | some reason =>
    refine Or.inr ⟨fun ⟨two, head, last, _⟩ => ?_, reason, by rw [normalizeStops, hshape]⟩
    exact absurd (StopPiece.shapeError?_eq_none_iff.mpr ⟨two, head, last⟩) (by simp [hshape])
  | none =>
    obtain ⟨htwo, hhead, hlast⟩ := StopPiece.shapeError?_eq_none_iff.mp hshape
    match pieces with
    | [] => exact absurd htwo (by simp)
    | [p] => exact absurd (htwo.trans (List.length_filter_le _ _)) (by simp)
    | .hint position :: q :: qs => exact absurd (hhead _ rfl) (by simp [StopPiece.isHint])
    | .stop color position :: q :: qs =>
      let first : Stop κ α := ⟨position.getD 0, color⟩
      obtain ⟨hcolor, hqs⟩ := StopPiece.allColors_cons.mp hall
      have hmap : (StopPiece.mapLast (StopPiece.withDefault 1) (q :: qs)).map StopPiece.color? =
          (q :: qs).map StopPiece.color? :=
        StopPiece.map_color?_mapLast (StopPiece.color?_withDefault 1) _
      have hclosed : ∀ p,
          (StopPiece.mapLast (StopPiece.withDefault 1) (q :: qs)).getLast? = some p →
            p.IsPlaced := by
        intro p hp
        rw [StopPiece.getLast?_mapLast] at hp
        obtain ⟨r, hr, rfl⟩ := Option.map_eq_some_iff.mp hp
        exact StopPiece.isPlaced_withDefault 1 (hlast r (List.getLast?_cons_cons.trans hr))
      have hplaced : normalizeStops ofNat mix (.stop color position :: q :: qs) =
          StopPiece.placeFrom ofNat mix first
            (StopPiece.mapLast (StopPiece.withDefault 1) (q :: qs)) >>=
              fun rest => .ok (first :: rest) := by
        rw [normalizeStops, hshape]
        rfl
      have hapart : StopPiece.IsApart (.stop color position :: q :: qs) ↔
          StopPiece.IsApart (StopPiece.mapLast (StopPiece.withDefault 1) (q :: qs)) := by
        rw [StopPiece.isApart_congr hmap]
        exact StopPiece.isApart_cons_stop
      rcases StopPiece.placeFrom_cases ofNat hmix first
          (StopPiece.hintsPlaced_mapLast 1 fun hmem => hhints (List.mem_cons_of_mem _ hmem)) hclosed
          (StopPiece.AllColors.of_map_color? hqs hmap) (hcolor color rfl) with
        ⟨happ, stops, last, hstops, hfollow⟩ | ⟨happ, herror⟩
      · refine Or.inl ⟨⟨htwo, hhead, hlast, hapart.mpr happ⟩, first, stops, last, _, ?_,
          congrArg (some color :: ·) hmap.symm, hfollow⟩
        rw [hplaced, hstops]
        rfl
      · refine Or.inr ⟨fun h => happ (hapart.mp h.apart), .hintsAdjacent, ?_⟩
        rw [hplaced, herror]
        rfl

/-- The paint of a hint between two stops: the color of the text if one of them has it, otherwise
the mixture of their colors at the place of the hint between them. -/
def IsHintPaint (mix : Color → Color → Float → ColorSpace → HueDirection → Except Fault Color)
    (space : ColorSpace) (direction : HueDirection) (before hint after : Stop Paint Float) : Prop :=
  match before.color, after.color with
  | .color first, .color second => ∃ color, hint.color = .color color ∧
      mix first second (hintFraction before.position after.position hint.position) space direction =
        .ok color
  | _, _ => hint.color = .current

theorem isHintPaint_of_hintPaintBy
    {mix : Color → Color → Float → ColorSpace → HueDirection → Except Fault Color}
    {space : ColorSpace} {direction : HueDirection} {before hint after : Stop Paint Float}
    (h : hintPaintBy mix space direction before after hint.position = .ok hint.color) :
    IsHintPaint mix space direction before hint after := by
  unfold hintPaintBy at h
  unfold IsHintPaint
  split at h
  next =>
    obtain ⟨color, hcolor, h⟩ := exists_of_bind_eq_ok h
    exact ⟨color, (Except.ok.inj h).symm, hcolor⟩
  next => exact (Except.ok.inj h).symm

/-- A hint between two stops has a paint if their colors can be mixed. -/
theorem exists_hintPaintBy
    {mix : Color → Color → Float → ColorSpace → HueDirection → Except Fault Color}
    {space : ColorSpace} {direction : HueDirection} {before after : Stop Paint Float}
    (h : ∀ first second, before.color = .color first → after.color = .color second →
      ∀ t, ∃ color, mix first second t space direction = .ok color) (position : Float) :
    ∃ p, hintPaintBy mix space direction before after position = .ok p := by
  unfold hintPaintBy
  split
  next first second hfirst hsecond =>
    obtain ⟨color, hcolor⟩ := h first second hfirst hsecond
      (hintFraction before.position after.position position)
    exact ⟨.color color, by rw [hcolor]; rfl⟩
  next => exact ⟨.current, rfl⟩

/-- **Normalization takes the lists that have the shape of a gradient, and keeps them.**  Each hint
has a position, and colors of the pieces can be mixed.  Then a list of another shape is malformed;
one of this shape becomes as many stops, a stop keeps its color, and a hint gets its paint from the
stops right in front of it and right behind it. -/
theorem normalizeStops_hintPaintBy
    (mix : Color → Color → Float → ColorSpace → HueDirection → Except Fault Color)
    (space : ColorSpace) (direction : HueDirection) (pieces : List (StopPiece Paint Float))
    (hhints : ∀ p ∈ pieces, p ≠ .hint none)
    (hmix : ∀ first second : Color, ∀ p ∈ pieces, ∀ q ∈ pieces,
      p.color? = some (.color first) → q.color? = some (.color second) →
        ∀ t, ∃ color, mix first second t space direction = .ok color) :
    ((∃ reason, normalizeStops Float.ofNat (hintPaintBy mix space direction) pieces =
        .error (.malformed reason)) ↔ ¬ StopPiece.IsWellFormed pieces) ∧
    (StopPiece.IsWellFormed pieces → ∃ stops,
      normalizeStops Float.ofNat (hintPaintBy mix space direction) pieces = .ok stops ∧
      stops.length = pieces.length ∧
      (∀ (i : Nat) color position, pieces[i]? = some (.stop color position) →
        ∃ s, stops[i]? = some s ∧ s.color = color) ∧
      ∀ (i : Nat) position, pieces[i]? = some (.hint position) →
        ∃ j first hint second p q, i = j + 1 ∧ pieces[j]? = some (.stop first.color p) ∧
          pieces[j + 2]? = some (.stop second.color q) ∧ stops[j]? = some first ∧
          stops[j + 1]? = some hint ∧ stops[j + 2]? = some second ∧
          IsHintPaint mix space direction first hint second) := by
  have htotal : ∀ before after : Stop Paint Float,
      some before.color ∈ pieces.map StopPiece.color? →
      some after.color ∈ pieces.map StopPiece.color? →
      ∀ position, ∃ p, hintPaintBy mix space direction before after position = .ok p := by
    intro before after hbefore hafter position
    obtain ⟨p, hp, hpcolor⟩ := List.mem_map.mp hbefore
    obtain ⟨q, hq, hqcolor⟩ := List.mem_map.mp hafter
    exact exists_hintPaintBy (fun first second hfirst hsecond =>
      hmix first second p hp q hq (hfirst ▸ hpcolor) (hsecond ▸ hqcolor)) position
  have hall : StopPiece.AllColors (fun color => some color ∈ pieces.map StopPiece.color?) pieces :=
    fun p hp color hcolor => List.mem_map.mpr ⟨p, hp, hcolor⟩
  have hplaced : StopPiece.HintsPlaced pieces := fun hmem => hhints _ hmem rfl
  rcases normalizeStops_cases Float.ofNat htotal hplaced hall with
    ⟨hwell, first, stops, last, colors, hstops, hcolors, hfollow⟩ | ⟨hwell, reason, herror⟩
  · refine ⟨iff_of_false (fun ⟨reason, h⟩ => ?_) (not_not.mpr hwell),
      fun _ => ⟨_, hstops, ?_, ?_, ?_⟩⟩
    · exact absurd (hstops.symm.trans h) (by simp)
    · have hlength := congrArg List.length hcolors
      rw [List.length_map, List.length_cons] at hlength
      rw [hlength, List.length_cons, hfollow.length_eq]
    · intro i color position hi
      refine hfollow.exists_stop (hcolors ▸ ?_)
      rw [List.getElem?_map, hi]
      rfl
    · intro i position hi
      have hnone : (some first.color :: colors)[i]? = some none := by
        rw [← hcolors, List.getElem?_map, hi]
        rfl
      obtain ⟨j, before, hint, after, rfl, hbefore, hafter, hj, hhint, hj', hmixed⟩ :=
        hfollow.exists_hint hnone
      obtain ⟨p, hp⟩ := StopPiece.exists_stop_of_color? (hcolors ▸ hbefore)
      obtain ⟨q, hq⟩ := StopPiece.exists_stop_of_color? (hcolors ▸ hafter)
      exact ⟨j, before, hint, after, p, q, rfl, hp, hq, hj, hhint, hj',
        isHintPaint_of_hintPaintBy hmixed⟩
  · exact ⟨iff_of_true ⟨reason, herror⟩ hwell, fun h => absurd h hwell⟩

/-- A hint between two colors and one next to the color of the text; the stop between them has no
position.  With two hints next to each other the list is malformed. -/
theorem normalizeStops_hintPaintBy_srgb :
    ∃ red blue : Color,
      (∃ stops first hint second mixture waiting,
        normalizeStops Float.ofNat (hintPaint .srgb .shorter) [.stop (.color red) none,
          .hint (some 0.25), .stop (.color blue) none, .hint (some 0.75), .stop .current none] =
            .ok stops ∧ stops.length = 5 ∧ stops[0]? = some first ∧ first.color = .color red ∧
        stops[1]? = some hint ∧ hint.color = .color mixture ∧ stops[2]? = some second ∧
        Color.mix red blue (hintFraction first.position second.position hint.position) .srgb
          .shorter = .ok mixture ∧ stops[3]? = some waiting ∧ waiting.color = .current) ∧
      ∃ reason, normalizeStops Float.ofNat (hintPaint .srgb .shorter) [.stop (.color red) none,
        .hint (some 0.25), .hint (some 0.75), .stop (.color blue) none] =
          .error (.malformed reason) := by
  let red : Color := ⟨1.0, 0.0, 0.0, 1.0⟩
  let blue : Color := ⟨0.0, 0.0, 1.0, 1.0⟩
  refine ⟨red, blue, ?_, ?_⟩
  · have hwell : StopPiece.IsWellFormed ([.stop (.color red) none, .hint (some 0.25),
        .stop (.color blue) none, .hint (some 0.75), .stop .current none] :
          List (StopPiece Paint Float)) :=
      ⟨by decide, by simp [StopPiece.isHint], by simp [StopPiece.isHint],
        by simp [StopPiece.IsApart, StopPiece.isHint]⟩
    obtain ⟨stops, hstops, hlength, -, hhints⟩ :=
      (normalizeStops_hintPaintBy Color.mix .srgb .shorter _ (by simp)
        fun _ _ _ _ _ _ _ _ _ => ⟨_, rfl⟩).2 hwell
    obtain ⟨j, first, hint, second, p, q, hj, hfirst, hsecond, hbefore, hhint, hafter, hpaint⟩ :=
      hhints 1 _ rfl
    obtain rfl : 0 = j := Nat.succ_injective hj
    obtain ⟨hfirst, -⟩ := StopPiece.stop.inj (Option.some_inj.mp hfirst)
    obtain ⟨hsecond, -⟩ := StopPiece.stop.inj (Option.some_inj.mp hsecond)
    rw [IsHintPaint, ← hfirst, ← hsecond] at hpaint
    obtain ⟨mixture, hcolor, hmixture⟩ := hpaint
    obtain ⟨j, _, waiting, last, _, _, hj, -, hlast, -, hwaiting, -, hcurrent⟩ := hhints 3 _ rfl
    obtain rfl : 2 = j := Nat.succ_injective hj
    obtain ⟨hlast, -⟩ := StopPiece.stop.inj (Option.some_inj.mp hlast)
    refine ⟨stops, first, hint, second, mixture, waiting, hstops, hlength, hbefore, hfirst.symm,
      hhint, hcolor, hafter, hmixture, hwaiting, ?_⟩
    unfold IsHintPaint at hcurrent
    split at hcurrent
    next hpaint => exact absurd (hlast.trans hpaint) (by simp)
    next => exact hcurrent
  · exact (normalizeStops_hintPaintBy Color.mix .srgb .shorter _ (by simp)
      fun _ _ _ _ _ _ _ _ _ => ⟨_, rfl⟩).1.mpr fun h => by
        simpa [StopPiece.IsApart, StopPiece.isHint] using h.apart

end Styling
