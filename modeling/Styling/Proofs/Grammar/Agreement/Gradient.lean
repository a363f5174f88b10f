import Styling.Proofs.Grammar.Agreement.Leaf

/-!
# Gradients read alike up to a `var()` call

A background image is cut at its commas, and each part is a gradient call that is read by a reader
of its inside.  There is one exception to the general statement: the direction of a gradient looks
at what comes after the word `to` and finds no side in a `var()` call.  So nothing is said about a
gradient call that starts with these two, which `sideAwaitsVar` tells.

* `Grammar.agrees_gradientSide` is about the side, and `Grammar.agrees_linearGradient` about the
  inside of a gradient call.
* `Grammar.PartsAgree` is the relation between the parts of two values, and
  `Grammar.partsAgree_splitAtCommas` says that values that agree have parts that do.
* `Grammar.agrees_backgroundImage` collects the parts.
-/

namespace Styling

namespace Grammar

variable {S T : Source}

/-! ## Gradients -/

/-- The inside of a gradient starts with the word `to` and a `var()` call. -/
def sideAwaitsVar (cs : List Component) : Bool :=
  match cs.dropWhile Component.isWhitespace with
  | [] => false
  | word :: rest =>
    word.isKeyword "to" && (rest.dropWhile Component.isWhitespace).head?.any Component.isVar

/-- The side that words name, if they name one. -/
def sideOf (words : List String) : Reader GradientSide :=
  (GradientSide.ofWords? words).elim (Reader.refuse .sideMissing) pure

theorem gradientSide_eq : gradientSide = (do
    let _ ← Reader.keyword ["to"]
    let words ← sidesAfter [] 2
    sideOf words) := by
  unfold gradientSide
  congr 1
  funext _
  congr 1
  funext words
  unfold sideOf
  cases GradientSide.ofWords? words <;> rfl

theorem sideWord?_eq {x y : Component} (h : x.Paired S T y) : sideWord? x = sideWord? y := by
  cases h <;> rfl

theorem sideWord?_of_isVar {x : Component} (h : x.isVar = true) : sideWord? x = none := by
  cases x with
  | token t => exact absurd h Bool.false_ne_true
  | group opener opened xs ending => rfl

theorem tracks_sideOf {may : Prop} (words : List String) :
    Reader.Tracks S T may (sideOf words) (sideOf words) := by
  unfold sideOf
  cases GradientSide.ofWords? words with
  | none => exact .refuse _
  | some side => exact .pure side

theorem mem_sideWords_of_sideWord? {x : Component} {word : String} (h : sideWord? x = some word) :
    word ∈ sideWords := by
  unfold sideWord? at h
  split at h
  · dsimp only at h
    split at h
    next hmem =>
      rw [← Option.some_inj.mp h]
      exact List.contains_iff_mem.mp hmem
    next => exact absurd h (by simp)
  · exact absurd h (by simp)

/-- The words of a side are read alike while no `var()` call comes next. -/
theorem agrees_sidesAfter {may : Prop} {words : List String} {count : Nat} {c d : Cursor}
    {x y : Component} (hcd : c.AgreeToVar S T d) (hc : c.peek = some x) (hd : d.peek = some y)
    (h : x.Paired S T y) (rest : x.containsVar = false → c.advance.AgreeToVar S T d.advance)
    (hmore : ∀ word ∈ sideWords, Reader.Tracks S T may
      (sidesAfter (words ++ [word]) count >>= sideOf)
      (sidesAfter (words ++ [word]) count >>= sideOf)) :
    Reader.Agrees S T may ((sidesAfter words (count + 1) >>= sideOf) c)
      ((sidesAfter words (count + 1) >>= sideOf) d) := by
  rw [sidesAfter, bind_assoc, Reader.bind_apply, Reader.bind_apply, Reader.ask_apply,
    Reader.ask_apply, hc, hd]
  simp only [← sideWord?_eq h]
  cases hword : sideWord? x with
  | none =>
    simp only [pure_bind]
    exact tracks_sideOf words c d hcd
  | some word =>
    have hnone := containsVar_of_sideWord? hword
    rcases h.containsVar with ⟨hx, -⟩ | ⟨rfl, hshared⟩
    · exact absurd (hx.symm.trans hnone) (by decide)
    have hnext : Reader.Agrees S T False (Reader.next c) (Reader.next d) :=
      Reader.agrees_next hc hd hshared (rest hnone)
    simp only [bind_assoc]
    refine hnext.andThen fun _ c' d' _ hcd' => ?_
    split
    · rw [bind_assoc]
      exact Reader.Tracks.source (fun c d _ => .refused c d rfl rfl) c' d' hcd'
    · exact hmore word (mem_sideWords_of_sideWord? hword) c' d' hcd'

/-- One word that names a side is enough, so a second one need not be there. -/
theorem follows_secondSide {word : String} (h : word ∈ sideWords) :
    Reader.Follows S T True (sidesAfter [word] 1 >>= sideOf) (sidesAfter [word] 1 >>= sideOf) := by
  obtain ⟨side, hside⟩ : ∃ side, sideOf [word] = pure side := by
    simp only [sideWords, List.mem_cons, List.not_mem_nil, or_false] at h
    rcases h with rfl | rfl | rfl | rfl <;> exact ⟨_, rfl⟩
  have hcall : ∀ c, c.AtVar S → Reader.Waits S True ((sidesAfter [word] 1 >>= sideOf) c) := by
    intro c hc
    obtain ⟨x, hpeek, hx⟩ := hc.next
    rw [sidesAfter, bind_assoc, Reader.bind_apply, Reader.ask_apply, hpeek]
    simp only [sideWord?_of_isVar hx, pure_bind, hside]
    exact ⟨trivial, hc⟩
  refine ⟨hcall, fun c d hcd => ?_⟩
  cases hcd.next with
  | call h => exact .waits (hcall c h)
  | exhausted hc hd =>
    rw [sidesAfter, bind_assoc, Reader.bind_apply, Reader.bind_apply, Reader.ask_apply,
      Reader.ask_apply, hc, hd]
    exact tracks_sideOf [word] c d hcd
  | paired hc hd h rest =>
    refine agrees_sidesAfter hcd hc hd h rest fun second _ => ?_
    rw [sidesAfter, pure_bind]
    exact tracks_sideOf _

theorem isKeyword_of_keywordLeaf {words : List String} {word : String} {source : Source}
    {x : Component} (h : Reader.keywordLeaf words source x = .ok word) :
    x.isKeyword word = true ∧ word ∈ words := by
  unfold Reader.keywordLeaf Reader.identLeaf at h
  split at h
  next name span =>
    simp only [bind, Except.bind] at h
    split at h
    next hmem =>
      obtain rfl := Except.ok.inj h
      exact ⟨beq_self_eq_true _, List.contains_iff_mem.mp hmem⟩
    next => exact absurd h (by simp [Leaf.unexpected])
  next => exact absurd h (by simp [Leaf.unexpected, bind, Except.bind])

/-- A keyword that was read stood at the cursor. -/
theorem peek_of_keyword {words : List String} {word : String} {c c' : Cursor}
    (h : Reader.keyword words c = .ok word c') :
    ∃ x, c.peek = some x ∧ x.isKeyword word = true ∧ word ∈ words ∧ c' = c.advance := by
  cases hpeek : c.peek with
  | none =>
    rw [Reader.keyword, Reader.leaf_of_peek_none hpeek] at h
    exact absurd h (by simp)
  | some x =>
    cases hvar : x.isVar with
    | true =>
      rw [Reader.keyword, Reader.leaf_of_peek_isVar hpeek hvar] at h
      exact absurd h (by simp)
    | false =>
      rw [Reader.keyword, Reader.leaf_of_peek hpeek hvar] at h
      cases hrun : Reader.keywordLeaf words c.source x with
      | error e =>
        rw [hrun] at h
        exact absurd h (by simp)
      | ok w =>
        rw [hrun] at h
        obtain ⟨rfl, rfl⟩ := EStateM.Result.ok.inj h
        obtain ⟨hkeyword, hmem⟩ := isKeyword_of_keywordLeaf hrun
        exact ⟨x, rfl, hkeyword, hmem, rfl⟩

/-- The side of a gradient is read alike unless a `var()` call comes after the word `to`. -/
theorem agrees_gradientSide {c d : Cursor} (h : c.AgreeToVar S T d)
    (hside : sideAwaitsVar c.rest = false) :
    Reader.Agrees S T True (gradientSide c) (gradientSide d) := by
  rw [gradientSide_eq]
  refine ((Reader.Follows.keyword ["to"]).tracks c d h).andThen fun word c' d' hrun hcd' => ?_
  -- Before a call the reader would find no side, and be refused without meeting the call.
  have hcall : ¬ c'.AtVar S := by
    intro hvar
    obtain ⟨x, hpeek, hx, hword, rfl⟩ := peek_of_keyword hrun
    obtain ⟨v, hv, hisVar⟩ := hvar.next
    rw [sideAwaitsVar, Cursor.rest_of_peek hpeek] at hside
    rw [Cursor.peek] at hv
    rw [List.mem_singleton.mp hword] at hx
    simp [hx, hv, hisVar] at hside
  cases hcd'.next with
  | call h => exact absurd h hcall
  | exhausted hc hd =>
    rw [sidesAfter, bind_assoc, Reader.bind_apply, Reader.bind_apply, Reader.ask_apply,
      Reader.ask_apply, hc, hd]
    exact tracks_sideOf [] c' d' hcd'
  | paired hc hd h rest =>
    exact agrees_sidesAfter hcd' hc hd h rest fun word hword => (follows_secondSide hword).tracks

theorem agrees_gradientAngle {c d : Cursor} (h : c.AgreeToVar S T d)
    (hside : sideAwaitsVar c.rest = false) :
    Reader.Agrees S T True (gradientAngle c) (gradientAngle d) := by
  have hangle := (Reader.Follows.leaf follows_angle clears_angle).attempt.tracks c d h
  refine hangle.andThen fun radians c' d' hrun hcd' => ?_
  cases radians with
  | some x => exact Reader.Tracks.pure _ c' d' hcd'
  | none =>
    have hback : c' = c := Reader.eq_of_attempt_none hrun
    rw [hback] at hcd' ⊢
    have hgradientSide := agrees_gradientSide hcd' hside
    exact hgradientSide.bind (fun _ _ c' hc' => ⟨trivial, hc'⟩)
      fun side c' d' _ => Reader.Tracks.pure _ c' d'

theorem follows_hueDirection : Reader.Follows S T True hueDirection hueDirection := by
  refine (Reader.Follows.leaf (follows_keyword _) (clears_keyword _)).bind fun direction => ?_
  exact (Reader.Follows.keyword _).bind fun _ => .pure direction

theorem follows_interpolation : Reader.Follows S T True interpolation interpolation := by
  refine (Reader.Follows.leaf follows_colorSpace clears_colorSpace).bind fun space => ?_
  exact follows_hueDirection.attempt.bind fun direction => .pure (space, direction.getD .shorter)

theorem isPercentage_eq {x y : Component} (h : x.Paired S T y) :
    StopState.isPercentage x = StopState.isPercentage y := by
  cases h <;> rfl

theorem follows_stopState (s : List (StopPiece Paint Float) × StopState) {x y : Component}
    (h : x.Paired S T y) :
    Follows StepError.isOrdinary (StopState.step S s x) (StopState.step T s y) := by
  refine Follows.ofLeaf ?_
  have hcomma : x.isComma = y.isComma := h.isTokenOf_eq _
  have hpercentage := Leaf.follows_percentageLeaf S T x y h
  obtain ⟨pieces, state⟩ := s
  cases state with
  | expecting =>
    dsimp only
    rw [← isPercentage_eq h]
    split
    · exact hpercentage.bind fun _ _ => .refl _
    · refine (follows_noVar h).bind fun _ _ => ?_
      exact (follows_paint S T x y h).bind fun _ _ => .refl _
  | afterColor p positions =>
    dsimp only
    rw [← isPercentage_eq h, ← hcomma]
    split
    · exact hpercentage.bind fun _ _ => .refl _
    · exact .refl _
  | afterHint =>
    dsimp only
    rw [← hcomma]
    exact .refl _

/-- A `var()` call ends a list of stops where the list may end. -/
theorem stopState_of_isVar {source : Source} {x : Component} (h : x.isVar = true)
    (s : List (StopPiece Paint Float) × StopState) :
    StopState.step source s x = .ok none ∨
      ∃ e, StopState.step source s x = .error e ∧ e.isOrdinary = false := by
  cases x with
  | token t => exact absurd h Bool.false_ne_true
  | group opener opened xs ending =>
    obtain ⟨pieces, state⟩ := s
    cases state with
    | expecting =>
      refine Or.inr ⟨.here (.varCall (source.locationOf (.group opener opened xs ending))), ?_, rfl⟩
      simp only [StopState.step, StopState.isPercentage, noVar_of_isVar h]
      rfl
    | afterColor p positions => exact Or.inl rfl
    | afterHint => exact Or.inl rfl

theorem follows_stopPieces : Reader.Follows S T True stopPieces stopPieces := by
  refine .source ?_
  have hfold : Reader.Follows S T True
      (Reader.foldWhile (StopState.step S) ([], .expecting))
      (Reader.foldWhile (StopState.step T) ([], .expecting)) := by
    refine .foldWhile (fun s x hx => ?_) (fun s x y h => follows_stopState s h)
      (fun s x s' hrun => ?_) _
    · exact (stopState_of_isVar hx s).imp_left fun h => ⟨trivial, h⟩
    · have hclears := clears_stopState S s x
      rw [hrun] at hclears
      exact (hclears s' rfl).2
  refine hfold.bind fun s => ?_
  obtain ⟨pieces, state⟩ := s
  cases state with
  | expecting => exact (Reader.Follows.leaf Leaf.follows_unexpected Leaf.clears_unexpected).weaken
  | afterHint => exact .pure _
  | afterColor p positions => exact .pure _

theorem tracks_placedStops {may : Prop} (space : ColorSpace) (direction : HueDirection)
    (pieces : List (StopPiece Paint Float)) :
    Reader.Tracks S T may (placedStops space direction pieces)
      (placedStops space direction pieces) := by
  unfold placedStops
  cases normalizeStops Float.ofNat (hintPaint space direction) pieces with
  | ok stops => exact .pure stops
  | error e =>
    cases e with
    | malformed reason => exact .refuse reason
    | unplacedHint => exact fun c d hcd => .waits rfl
    | mixing fault => exact fun c d hcd => .waits rfl

/-- The stops of a gradient up to its end. -/
def stopsOf (angle : Option GradientAngle) (space : ColorSpace × HueDirection) :
    Reader LinearGradient := do
  let pieces ← stopPieces
  Reader.expectExhausted
  let stops ← placedStops space.1 space.2 pieces
  return ⟨angle.getD (.side .bottom), stops, space.1, space.2⟩

theorem follows_stopsOf (angle : Option GradientAngle) (space : ColorSpace × HueDirection) :
    Reader.Follows S T False (stopsOf angle space) (stopsOf angle space) := by
  refine follows_stopPieces.bind fun pieces => ?_
  refine Reader.Follows.expectExhausted.bindTracks fun _ c d hcd => ?_
  have hplaced : Reader.Agrees S T False (placedStops space.1 space.2 pieces c)
      (placedStops space.1 space.2 pieces d) := tracks_placedStops space.1 space.2 pieces c d hcd
  exact hplaced.andThen fun _ c' d' _ => Reader.Tracks.pure _ c' d'

/-- The stops of a gradient, behind a comma if the gradient has a direction or a color space. -/
def stopsAfter (angle : Option GradientAngle) (hasSpace : Bool)
    (space : ColorSpace × HueDirection) : Reader LinearGradient := do
  if angle.isSome || hasSpace then Reader.expectComma
  stopsOf angle space

theorem follows_stopsAfter (angle : Option GradientAngle) (hasSpace : Bool)
    (space : ColorSpace × HueDirection) :
    Reader.Follows S T False (stopsAfter angle hasSpace space)
      (stopsAfter angle hasSpace space) := by
  unfold stopsAfter
  split
  · exact Reader.Follows.expectComma.bind fun _ => follows_stopsOf angle space
  · exact follows_stopsOf angle space

/-- The inside of a gradient is read alike unless a `var()` call comes after the word `to`. -/
theorem agrees_linearGradient {c d : Cursor} (h : c.AgreeToVar S T d)
    (hside : sideAwaitsVar c.rest = false) :
    Reader.Agrees S T False (linearGradient c) (linearGradient d) := by
  obtain ⟨rest, heq, hrest⟩ : ∃ rest : Option GradientAngle → Reader LinearGradient,
      linearGradient = Reader.attempt gradientAngle >>= rest ∧
        ∀ angle, Reader.Follows S T False (rest angle) (rest angle) := by
    refine ⟨_, rfl, fun angle => (Reader.Follows.tryKeyword _).bind fun word => ?_⟩
    dsimp only
    split
    · exact follows_interpolation.bind fun space => follows_stopsAfter angle word.isSome space
    · exact follows_stopsAfter angle word.isSome (.srgb, .shorter)
  rw [heq]
  exact ((agrees_gradientAngle h hside).attempt h).bind (fun _ angle => (hrest angle).waits)
    fun angle c' d' _ => (hrest angle).tracks c' d'

/-- A gradient call is read alike unless it awaits the side in a `var()` call. -/
theorem follows_gradientLeaf {x y : Component} (h : x.Paired S T y)
    (hside : x.isCall "linear-gradient" = true → sideAwaitsVar x.children = false) :
    Follows ReadError.isOrdinary (gradientLeaf S x) (gradientLeaf T y) := by
  have hcalls := h.isCall_eq "linear-gradient"
  have hchildren := h.children_agree
  rcases h.token_or_groups with ⟨t, rfl, rfl⟩ | ⟨opener, opened, opened', xs, ys, ending, ending',
    rfl, rfl⟩
  · exact .errors rfl
  · cases opener with
    | bracket b => exact .errors rfl
    | function name =>
      simp only [gradientLeaf, Reader.functionLeaf, bind, Except.bind, ← hcalls]
      split
      next hcall =>
        exact Reader.follows_inside (agrees_linearGradient ⟨rfl, rfl, hchildren⟩ (hside hcall))
      next => exact .errors rfl

theorem listContainsVar_of_head {cs : List Component}
    (h : (cs.dropWhile Component.isWhitespace).head?.any Component.isVar = true) :
    Component.listContainsVar cs = true := by
  rw [← Component.listContainsVar_dropWhile_isWhitespace]
  cases hcs : cs.dropWhile Component.isWhitespace with
  | nil =>
    rw [hcs] at h
    exact absurd h (by simp)
  | cons x xs =>
    rw [hcs] at h
    rw [Component.listContainsVar_cons, Component.containsVar_of_isVar h, Bool.true_or]

/-- The first component that holds a `var()` call is no gradient call that awaits its side. -/
def NoSideAwaited (first? : Option Component) : Prop :=
  ∀ x ∈ first?, x.isCall "linear-gradient" = true → sideAwaitsVar x.children = false

/-- A gradient that awaits its side holds a `var()` call. -/
theorem sideAwaitsVar_eq_false {cs : List Component} (h : Component.listContainsVar cs = false) :
    sideAwaitsVar cs = false := by
  rw [← Component.listContainsVar_dropWhile_isWhitespace] at h
  rw [sideAwaitsVar]
  split
  next => rfl
  next word rest hcs =>
    rw [hcs, Component.listContainsVar_cons] at h
    have hrest := (Bool.or_eq_false_iff.mp h).2
    have hnone : (rest.dropWhile Component.isWhitespace).head?.any Component.isVar = false := by
      by_contra hvar
      rw [listContainsVar_of_head (Bool.not_eq_false _ ▸ hvar)] at hrest
      exact absurd hrest.symm Bool.false_ne_true
    rw [hnone, Bool.and_false]

theorem find?_containsVar_eq_none {cs : List Component}
    (h : Component.listContainsVar cs = false) : cs.find? Component.containsVar = none := by
  rwa [Component.listContainsVar_eq_any, ← List.isSome_find?, Option.isSome_eq_false_iff,
    Option.isNone_iff_eq_none] at h

/-- The next component comes first among those that hold a `var()` call, if it is one of them. -/
theorem find?_containsVar_of_peek {c : Cursor} {x : Component} (h : c.peek = some x)
    (hx : x.containsVar = true) : c.rest.find? Component.containsVar = some x := by
  have hblanks := find?_containsVar_eq_none
    (Component.listContainsVar_takeWhile_isWhitespace c.rest)
  rw [← List.takeWhile_append_dropWhile (p := Component.isWhitespace) (l := c.rest),
    List.find?_append, hblanks, Cursor.rest_of_peek h, List.find?_cons_of_pos hx]
  rfl

theorem agrees_gradientCall {c d : Cursor} (h : c.AgreeToVar S T d)
    (hside : NoSideAwaited (c.rest.find? Component.containsVar)) :
    Reader.Agrees S T False (gradientCall c) (gradientCall d) := by
  rw [gradientCall_eq_leaf]
  refine Reader.agrees_leaf h (fun x y hpeek hpair => ?_) clears_gradientLeaf
  refine follows_gradientLeaf hpair fun hcall => ?_
  cases hx : x.containsVar with
  | true => exact hside x (find?_containsVar_of_peek hpeek hx) hcall
  | false =>
    rw [Component.containsVar_eq_children (isVar_of_isCall hcall)] at hx
    exact sideAwaitsVar_eq_false hx

/-- The parts of two values agree, one after the other, up to the part with the `var()` call. -/
inductive PartsAgree (S T : Source) :
    List (List Component × Nat) → List (List Component × Nat) → Prop
  | nil : PartsAgree S T [] []
  | cons {p q : List Component × Nat} {ps qs : List (List Component × Nat)}
    (head : AgreeToVar S T p.1 q.1)
    (tail : Component.listContainsVar p.1 = false → PartsAgree S T ps qs) :
    PartsAgree S T (p :: ps) (q :: qs)

/-- The first component that holds a `var()` call is the first one in the parts. -/
theorem findSome?_splitAtCommas (stop : Nat) (cs : List Component) :
    (Cursor.splitAtCommas stop cs).findSome? (fun p => p.1.find? Component.containsVar) =
      cs.find? Component.containsVar := by
  induction cs with
  | nil => rfl
  | cons x cs ih =>
    cases hcomma : x.isComma with
    | true =>
      have hx : ¬ x.containsVar = true := by
        rw [Component.containsVar_of_isTokenOf hcomma]
        exact Bool.false_ne_true
      rw [Cursor.splitAtCommas, if_pos hcomma, List.findSome?_cons, List.find?_nil,
        List.find?_cons_of_neg hx]
      exact ih
    | false =>
      obtain ⟨p, ps, hsplit, hcons⟩ := Cursor.exists_splitAtCommas_cons hcomma stop cs
      rw [hsplit, List.findSome?_cons] at ih
      rw [hcons, List.findSome?_cons, List.find?_cons, List.find?_cons]
      cases hx : x.containsVar with
      | true => rfl
      | false => exact ih

/-- A `var()` call that comes next is in the first part. -/
theorem exists_splitAtCommas_of_isVar {cs : List Component}
    (h : (cs.dropWhile Component.isWhitespace).head?.any Component.isVar = true) (stop : Nat) :
    ∃ p ps, Cursor.splitAtCommas stop cs = p :: ps ∧
      (p.1.dropWhile Component.isWhitespace).head?.any Component.isVar = true := by
  have hcomma : ∀ {x : Component}, x.isWhitespace = true ∨ x.isVar = true → x.isComma = false := by
    intro x hx
    cases x with
    | group opener opened xs ending => rfl
    | token t =>
      obtain ⟨kind, span⟩ := t
      cases kind with
      | comma => rcases hx with hx | hx <;> exact absurd hx Bool.false_ne_true
      | _ => rfl
  induction cs with
  | nil => exact absurd h (by simp)
  | cons x cs ih =>
    cases hx : x.isWhitespace with
    | true =>
      obtain ⟨q, qs, hsplit, hcons⟩ := Cursor.exists_splitAtCommas_cons (hcomma (Or.inl hx)) stop cs
      rw [List.dropWhile_cons_of_pos hx] at h
      obtain ⟨p, ps, hp, hvar⟩ := ih h
      obtain ⟨rfl, rfl⟩ := List.cons.inj (hsplit.symm.trans hp)
      refine ⟨_, _, hcons, ?_⟩
      rwa [List.dropWhile_cons_of_pos hx]
    | false =>
      have hneg : ¬ x.isWhitespace = true := Bool.eq_false_iff.mp hx
      rw [List.dropWhile_cons_of_neg hneg] at h
      obtain ⟨q, qs, hsplit, hcons⟩ := Cursor.exists_splitAtCommas_cons (hcomma (Or.inr h)) stop cs
      refine ⟨_, _, hcons, ?_⟩
      rw [List.dropWhile_cons_of_neg hneg]
      exact h

/-- Values that agree up to a `var()` call have parts that do. -/
theorem partsAgree_splitAtCommas {cs ds : List Component} (h : AgreeToVar S T cs ds)
    (stop stop' : Nat) :
    PartsAgree S T (Cursor.splitAtCommas stop cs) (Cursor.splitAtCommas stop' ds) := by
  induction h with
  | nil => exact .cons .nil fun _ => .nil
  | @call cs ds next =>
    obtain ⟨p, ps, hsplit, hvar⟩ := exists_splitAtCommas_of_isVar next stop
    rw [hsplit]
    cases hsplit' : Cursor.splitAtCommas stop' ds with
    | nil => exact absurd hsplit' (Cursor.splitAtCommas_ne_nil stop' ds)
    | cons q qs =>
      refine .cons (.call hvar) fun hnone => ?_
      rw [listContainsVar_of_head hvar] at hnone
      exact absurd hnone.symm Bool.false_ne_true
  | @shared x cs ds head tail ih =>
    cases hcomma : x.isComma with
    | true =>
      rw [Cursor.splitAtCommas, Cursor.splitAtCommas, if_pos hcomma, if_pos hcomma]
      exact .cons .nil fun _ => ih
    | false =>
      obtain ⟨p, ps, hsplit, hcons⟩ := Cursor.exists_splitAtCommas_cons hcomma stop cs
      obtain ⟨q, qs, hsplit', hcons'⟩ := Cursor.exists_splitAtCommas_cons hcomma stop' ds
      rw [hsplit, hsplit'] at ih
      rw [hcons, hcons']
      cases ih with
      | cons agree rest =>
        refine .cons (.shared head agree) fun hnone => rest ?_
        rw [Component.listContainsVar_cons] at hnone
        exact (Bool.or_eq_false_iff.mp hnone).2
  | @inside opener opened opened' xs ys cs ds ending ending' name holds children ih =>
    obtain ⟨p, ps, -, hcons⟩ := Cursor.exists_splitAtCommas_cons
      (x := .group opener opened xs ending) rfl stop cs
    obtain ⟨q, qs, -, hcons'⟩ := Cursor.exists_splitAtCommas_cons
      (x := .group opener opened' ys ending') rfl stop' ds
    rw [hcons, hcons']
    refine .cons (.inside name holds children) fun hnone => ?_
    rw [Component.listContainsVar_cons, Component.containsVar, holds, Bool.or_true,
      Bool.true_or] at hnone
    exact absurd hnone.symm Bool.false_ne_true

/-- The parts of a background image are read one after the other. -/
theorem follows_mapM_gradientCall {ps qs : List (List Component × Nat)}
    (h : PartsAgree S T ps qs)
    (hside : NoSideAwaited (ps.findSome? fun p => p.1.find? Component.containsVar)) :
    Follows ReadError.isOrdinary
      ((ps.map fun p => Cursor.ofComponents S p.1 p.2).mapM gradientCall.inside)
      ((qs.map fun q => Cursor.ofComponents T q.1 q.2).mapM gradientCall.inside) := by
  induction h with
  | nil => exact .refl _
  | @cons p q ps qs head tail ih =>
    rw [List.findSome?_cons] at hside
    rw [List.map_cons, List.map_cons, List.mapM_cons, List.mapM_cons]
    have hpart : Follows ReadError.isOrdinary (gradientCall.inside (.ofComponents S p.1 p.2))
        (gradientCall.inside (.ofComponents T q.1 q.2)) := by
      refine Reader.follows_inside (agrees_gradientCall ⟨rfl, rfl, head⟩ fun x hx => ?_)
      have hfirst : p.1.find? Component.containsVar = some x := hx
      rw [hfirst] at hside
      exact hside x rfl
    refine hpart.bind fun g hg => ?_
    have hclears := Reader.grounded_inside (c := .ofComponents S p.1 p.2) clears_gradientCall
    rw [hg] at hclears
    have hnone : Component.listContainsVar p.1 = false := hclears.2
    rw [find?_containsVar_eq_none hnone] at hside
    exact (ih hclears.2 hside).bind fun _ _ => .refl _

/-- A value that does not start with the lone keyword is read as if the keyword meant nothing. -/
theorem agrees_backgroundImage {c d : Cursor} (h : c.AgreeToVar S T d)
    (hvar : c.holdsVar = true) (hd : Reader.isKeywordExhausted "none" d = .ok false d)
    (hside : NoSideAwaited (c.rest.find? Component.containsVar)) :
    Reader.Agrees S T False (backgroundImage c) (backgroundImage d) := by
  have hparts : Follows ReadError.isOrdinary (c.commaParts.mapM gradientCall.inside)
      (d.commaParts.mapM gradientCall.inside) := by
    rw [Cursor.commaParts, Cursor.commaParts, h.source, h.source']
    refine follows_mapM_gradientCall (partsAgree_splitAtCommas h.rest c.stop d.stop) ?_
    rwa [findSome?_splitAtCommas]
  have hread : Reader.Agrees S T False
      ((some <$> Reader.ofExcept (c.commaParts.mapM gradientCall.inside)) c.toEnd)
      ((some <$> Reader.ofExcept (d.commaParts.mapM gradientCall.inside)) d.toEnd) := by
    have hends : c.toEnd.AgreeToVar S T d.toEnd := by
      refine ⟨h.source, h.source', ?_⟩
      rw [Cursor.rest_toEnd, Cursor.rest_toEnd]
      exact .nil
    have hofExcept : Reader.Tracks S T False
        (Reader.ofExcept (c.commaParts.mapM gradientCall.inside))
        (Reader.ofExcept (d.commaParts.mapM gradientCall.inside)) := .ofExcept hparts
    rw [map_eq_pure_bind, map_eq_pure_bind]
    exact (hofExcept _ _ hends).andThen fun gradients c' d' _ => Reader.Tracks.pure _ c' d'
  exact Reader.agrees_unlessLone hvar hd hread

end Grammar

end Styling
