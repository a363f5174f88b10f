import Styling.Proofs.Grammar.Agreement
import Styling.Proofs.Grammar.Rereading.Introduction
import Styling.Proofs.Value.Moving

/-!
# Every grammar reads a value alike wherever it stands

All grammars have the property of `Styling.Proofs.Value.Moving`: a value that stands in a larger
text is read as it is read alone, up to the locations of refusals.  For the leaves this is seen from
the kind of the token and the text of the component, and it passes through the ways in which the
other grammars are put together.

* `Grammar.moves_length` and its like are about leaves.
* `Grammar.moves_fontFamily`, `Grammar.moves_linearGradient`, `Grammar.moves_transform` and
  `Grammar.moves_shadowList` are about grammars of several components.
* `Longhand.moves_reader` and `Shorthand.moves_reader` collect the grammars.
-/

namespace Styling

namespace Grammar

variable {S T : Source} {k : Nat}

/-! ## Leaves -/

theorem alike_wrongUnit {α : Type} {unit : String} {c d : Component}
    (h : S.textOf c = T.textOf d) :
    Alike ReadError.unplaced (wrongUnit unit S c : Except ReadError α) (wrongUnit unit T d) := by
  unfold wrongUnit
  split
  · exact Leaf.alike_unsupported h
  · exact Leaf.alike_unexpected h

theorem moves_length : Leaf.Moves length := by
  refine .of_tokens (fun S T kind span span' h => ?_) fun _ _ _ _ _ => rfl
  cases kind with
  | dimension n unit =>
    simp only [length]
    split
    · exact .refl _
    · exact alike_wrongUnit h
  | number n =>
    simp only [length]
    split
    · exact .refl _
    · exact Leaf.alike_unexpected h
  | _ => exact Leaf.alike_unexpected h

theorem moves_positiveLength : Leaf.Moves positiveLength :=
  moves_length.bind fun _ => .ite (Leaf.moves_refuse _) (Leaf.moves_pure _)

theorem moves_size : Leaf.Moves size := by
  refine .of_tokens (fun S T kind span span' h => ?_) fun _ _ _ _ _ => rfl
  cases kind with
  | number n => exact .refl _
  | percentage n => exact .refl _
  | dimension n unit =>
    simp only [size]
    split
    · exact .refl _
    · split
      · exact .refl _
      · exact alike_wrongUnit h
  | ident name =>
    have hauto : ∀ span, (Component.token ⟨.ident name, span⟩).isKeyword "auto" =
        (TokenKind.ident name).isKeyword "auto" := fun _ => rfl
    simp only [size, hauto]
    split
    · exact .refl _
    · exact Leaf.alike_unexpected h
  | _ => exact Leaf.alike_unexpected h

theorem moves_positiveSize : Leaf.Moves positiveSize :=
  moves_size.bind fun _ => .ite (Leaf.moves_refuse _) (Leaf.moves_pure _)

theorem moves_angle : Leaf.Moves angle := by
  refine .of_tokens (fun S T kind span span' h => ?_) fun _ _ _ _ _ => rfl
  cases kind with
  | number n =>
    simp only [angle]
    split
    · exact .refl _
    · exact Leaf.alike_unexpected h
  | dimension n unit =>
    simp only [angle]
    split
    · exact .refl _
    · exact Leaf.alike_unsupported h
  | _ => exact Leaf.alike_unexpected h

theorem mayBePaint_shift (k : Nat) (c : Component) : mayBePaint (c.shift k) = mayBePaint c := by
  cases c with
  | token t =>
    obtain ⟨kind, span⟩ := t
    rw [Component.shift_token]
    cases kind <;> rfl
  | group opener opened cs ending =>
    rw [Component.shift_group]
    cases opener <;> rfl

/-- A color is read anew from its text. -/
theorem moves_paint : Leaf.Moves paint := by
  intro S T k hS c hc
  have htext := hS.textOf_shift hc
  refine (Leaf.moves_noNestedVar S T k hS c hc).bind fun _ => ?_
  rw [mayBePaint_shift, htext]
  split
  · refine (Alike.refl _).bind fun o => ?_
    cases o with
    | some p => exact .ok p
    | none => exact Leaf.alike_unexpected htext
  · exact Leaf.alike_unexpected htext

theorem moves_integer : Leaf.Moves integer := by
  refine .of_tokens (fun S T kind span span' h => ?_) fun _ _ _ _ _ => rfl
  cases kind with
  | number n =>
    obtain ⟨raw, quantity⟩ := n
    cases quantity with
    | integer n => exact .ok n
    | decimal x => exact Leaf.alike_unexpected h
  | _ => exact Leaf.alike_unexpected h

theorem moves_opacity : Leaf.Moves opacity := by
  refine .of_tokens (fun S T kind span span' h => ?_) fun _ _ _ _ _ => rfl
  cases kind with
  | percentage n => exact .refl _
  | number n => exact .refl _
  | _ => exact Leaf.alike_unexpected h

theorem moves_keyword {α : Type} (table : List (String × α)) : Leaf.Moves (keyword table) := by
  refine .of_tokens (fun S T kind span span' h => ?_) fun _ _ _ _ _ => rfl
  cases kind with
  | ident name =>
    simp only [keyword]
    split
    · exact .ok _
    · exact Leaf.alike_unexpected h
  | _ => exact Leaf.alike_unexpected h

theorem moves_fontSize : Leaf.Moves fontSize := by
  have hcheck : ∀ (S T : Source) (c d : Component) (x : Except ReadError Float),
      Alike ReadError.unplaced
        (x >>= fun value => if value < 0.0 then Leaf.refuse .negativeFontSize S c else pure value)
        (x >>= fun value =>
          if value < 0.0 then Leaf.refuse .negativeFontSize T d else pure value) := by
    intro S T c d x
    refine (Alike.refl x).bind fun value => ?_
    split
    · exact .error rfl
    · exact .ok value
  refine .of_tokens (fun S T kind span span' h => ?_) fun _ _ _ _ _ => rfl
  cases kind with
  | number n => exact hcheck S T _ _ (float n)
  | dimension n unit =>
    simp only [fontSize]
    split
    · exact hcheck S T _ _ (float n)
    · exact Leaf.alike_unsupported h
  | _ => exact Leaf.alike_unexpected h

theorem moves_fontWeight : Leaf.Moves fontWeight := by
  refine .of_tokens (fun S T kind span span' h => ?_) fun _ _ _ _ _ => rfl
  cases kind with
  | ident name =>
    simp only [fontWeight]
    split
    · exact .refl _
    · split
      · exact .refl _
      · split
        · exact Leaf.alike_unsupported h
        · exact Leaf.alike_unexpected h
  | number n => exact .refl _
  | _ => exact Leaf.alike_unexpected h

theorem moves_fontWidth : Leaf.Moves fontWidth := by
  have hkeyword := moves_keyword fontWidths
  refine .of_tokens (fun S T kind span span' h => ?_) fun _ _ _ _ _ => rfl
  cases kind with
  | percentage n =>
    simp only [fontWidth]
    split
    · exact .error rfl
    · exact .refl _
  | ident name =>
    simp only [fontWidth, keyword]
    split
    · exact .ok _
    · exact Leaf.alike_unexpected h
  | _ => exact Leaf.alike_unexpected h

theorem moves_lineWidth : Leaf.Moves lineWidth := by
  intro S T k hS c hc
  have hlength := moves_positiveLength S T k hS c hc
  have hkeyword := moves_keyword lineWidths S T k hS c hc
  cases c with
  | group opener opened cs ending =>
    rw [Component.shift_group] at hlength ⊢
    exact hlength
  | token t =>
    obtain ⟨kind, span⟩ := t
    rw [Component.shift_token] at hlength hkeyword ⊢
    cases kind with
    | ident name => exact hkeyword.bind fun _ => .ok _
    | _ => exact hlength

theorem moves_distance : Leaf.Moves distance := by
  refine .of_tokens (fun S T kind span span' h => ?_) fun _ _ _ _ _ => rfl
  cases kind with
  | number n =>
    simp only [distance]
    split
    · exact .refl _
    · exact Leaf.alike_unexpected h
  | dimension n unit =>
    simp only [distance]
    split
    · exact .refl _
    · exact Leaf.alike_unsupported h
  | percentage n => exact Leaf.alike_unsupported h
  | _ => exact Leaf.alike_unexpected h

theorem moves_colorSpace : Leaf.Moves colorSpace := by
  refine .of_tokens (fun S T kind span span' h => ?_) fun _ _ _ _ _ => rfl
  cases kind with
  | ident name =>
    simp only [colorSpace]
    split
    · exact Leaf.alike_unsupported h
    · split
      · exact .ok _
      · exact Leaf.alike_unexpected h
  | _ => exact Leaf.alike_unexpected h

/-! ## Fonts -/

theorem alike_familyState (hS : S.Shows T k) (s : FamilyState) {x : Component}
    (hx : x.Within T.length) :
    Alike StepError.unplaced (FamilyState.step S s (x.shift k)) (FamilyState.step T s x) := by
  refine (Leaf.moves_noVar S T k hS x hx).ofLeaf.bind fun _ => ?_
  have hwrong : Alike StepError.unplaced
      (StepError.ofLeaf (Leaf.unexpected S (x.shift k)) : Except StepError FamilyState)
      (StepError.ofLeaf (Leaf.unexpected T x)) := (Leaf.moves_unexpected S T k hS x hx).ofLeaf
  cases x with
  | group opener opened cs ending =>
    rw [Component.shift_group] at hwrong ⊢
    cases s <;> exact hwrong
  | token t =>
    obtain ⟨kind, span⟩ := t
    rw [Component.shift_token] at hwrong ⊢
    cases kind <;> cases s <;> first | exact .refl _ | exact hwrong

theorem moves_fontFamily : Reader.Moves S T k fontFamily fontFamily := by
  intro c d hcd
  unfold fontFamily
  refine Reader.Moves.bind (.ask fun _ _ h => h.index) (fun start => .source ?_) c d hcd
  refine (Reader.MovesTo.foldAll (fun s x hx => alike_familyState hcd.shows s hx) _).bind
    fun state => ?_
  cases state.incomplete? with
  | some reason => exact .refuse reason
  | none => exact (Reader.MovesTo.ask fun _ _ h => h.sliceFrom start).bind fun _ => .pure rfl

/-- After `oblique` an angle may follow. -/
theorem moves_fontStyle (strict : Bool) :
    Reader.Moves S T k (fontStyle strict) (fontStyle strict) := by
  refine (Reader.MovesTo.leaf (moves_keyword _)).bind fun style => ?_
  split
  · refine .source (.peek (.pure rfl) fun c d x hcd hd hx => ?_)
    have hother : Reader.Alike S T k Eq
        ((do Reader.ofExcept (Leaf.noNestedVar S (x.shift k)); return style : Reader FontStyle) c)
        ((do Reader.ofExcept (Leaf.noNestedVar T x); return style : Reader FontStyle) d) := by
      have hlook := Leaf.moves_noNestedVar S T k hcd.shows x hx
      exact (Reader.MovesTo.ofExcept hlook).bind (fun _ => .pure rfl) c d hcd
    have htext := hcd.shows.textOf_shift hx
    cases x with
    | group opener opened cs ending =>
      rw [Component.shift_group] at hother ⊢
      exact hother
    | token t =>
      obtain ⟨kind, span⟩ := t
      rw [Component.shift_token] at hother htext ⊢
      cases kind with
      | dimension n unit =>
        dsimp only [Token.shift]
        split
        · have hnumber := Reader.MovesTo.ofExcept (S := S) (T := T) (k := k) (.refl (float n))
          exact Reader.MovesTo.next (hnumber.bind fun _ => .pure rfl) c d hcd
        · split
          · exact Reader.MovesTo.ofExcept (Leaf.alike_unsupported htext) c d hcd
          · exact .ok rfl hcd
      | _ => exact hother
  · exact .pure rfl

/-! ## Gradients -/

theorem sideWord?_shift (k : Nat) (c : Component) : sideWord? (c.shift k) = sideWord? c := by
  cases c with
  | token t =>
    obtain ⟨kind, span⟩ := t
    rw [Component.shift_token]
    cases kind <;> rfl
  | group opener opened cs ending =>
    rw [Component.shift_group]
    cases opener <;> rfl

theorem moves_sidesAfter (count : Nat) (words : List String) :
    Reader.Moves S T k (sidesAfter words count) (sidesAfter words count) := by
  induction count generalizing words with
  | zero => exact .pure rfl
  | succ count ih =>
    refine .peek (.pure rfl) fun c d x hcd hd hx => ?_
    simp only [sideWord?_shift]
    cases sideWord? x with
    | none => exact .ok rfl hcd
    | some word =>
      refine Reader.MovesTo.next ?_ c d hcd
      split
      · exact .source (.ofExcept (Leaf.moves_unexpected S T k hcd.shows x hx))
      · exact ih _

theorem moves_gradientSide : Reader.Moves S T k gradientSide gradientSide := by
  rw [gradientSide_eq]
  refine (Reader.MovesTo.keyword _).bind fun _ => (moves_sidesAfter 2 []).bind fun words => ?_
  unfold sideOf
  cases GradientSide.ofWords? words with
  | none => exact .refuse _
  | some side => exact .pure rfl

theorem moves_gradientAngle : Reader.Moves S T k gradientAngle gradientAngle := by
  refine (Reader.MovesTo.attempt (.leaf moves_angle)).bind fun o => ?_
  cases o with
  | some radians => exact .pure rfl
  | none => exact moves_gradientSide.bind fun _ => .pure rfl

theorem moves_hueDirection : Reader.Moves S T k hueDirection hueDirection :=
  (Reader.MovesTo.leaf (moves_keyword _)).bind fun _ =>
    (Reader.MovesTo.keyword _).bind fun _ => .pure rfl

theorem moves_interpolation : Reader.Moves S T k interpolation interpolation :=
  (Reader.MovesTo.leaf moves_colorSpace).bind fun _ =>
    (Reader.MovesTo.attempt moves_hueDirection).bind fun _ => .pure rfl

theorem isPercentage_shift (k : Nat) (c : Component) :
    StopState.isPercentage (c.shift k) = StopState.isPercentage c := by
  cases c with
  | token t =>
    obtain ⟨kind, span⟩ := t
    rw [Component.shift_token]
    cases kind <;> rfl
  | group opener opened cs ending =>
    rw [Component.shift_group]
    cases opener <;> rfl

theorem alike_stopState (hS : S.Shows T k) (s : List (StopPiece Paint Float) × StopState)
    {x : Component} (hx : x.Within T.length) :
    Alike StepError.unplaced (StopState.step S s (x.shift k)) (StopState.step T s x) := by
  have hpercentage := Leaf.moves_percentageLeaf S T k hS x hx
  obtain ⟨pieces, state⟩ := s
  refine Alike.ofLeaf ?_
  cases state with
  | expecting =>
    dsimp only
    rw [isPercentage_shift]
    split
    · exact hpercentage.bind fun _ => .ok _
    · exact (Leaf.moves_noVar S T k hS x hx).bind fun _ =>
        (moves_paint S T k hS x hx).bind fun _ => .ok _
  | afterColor p positions =>
    dsimp only
    rw [isPercentage_shift, Component.isComma_shift]
    split
    · exact hpercentage.bind fun _ => .ok _
    · exact .refl _
  | afterHint =>
    dsimp only
    rw [Component.isComma_shift]
    exact .refl _

theorem moves_stopPieces : Reader.Moves S T k stopPieces stopPieces := by
  intro c d hcd
  refine Reader.MovesTo.source ((Reader.MovesTo.foldWhile
    (fun s x hx => alike_stopState hcd.shows s hx) _).bind fun ⟨pieces, state⟩ => ?_) c d hcd
  cases state with
  | expecting => exact .leaf Leaf.moves_unexpected
  | afterHint => exact .pure rfl
  | afterColor p positions => exact .pure rfl

theorem moves_placedStops (space : ColorSpace) (direction : HueDirection)
    (pieces : List (StopPiece Paint Float)) :
    Reader.Moves S T k (placedStops space direction pieces)
      (placedStops space direction pieces) := by
  unfold placedStops
  split
  · exact .pure rfl
  · exact .refuse _
  · exact .throw _
  · exact .throw _

theorem moves_gradientIntroduction :
    Reader.Moves S T k gradientIntroduction gradientIntroduction := by
  refine (Reader.MovesTo.attempt moves_gradientAngle).bind fun angle => ?_
  refine (Reader.MovesTo.tryKeyword _).bind fun word => ?_
  cases word with
  | some w => exact moves_interpolation.bind fun _ => .pure rfl
  | none => exact .pure rfl

theorem moves_linearGradient : Reader.Moves S T k linearGradient linearGradient := by
  rw [linearGradient_eq]
  refine moves_gradientIntroduction.bind fun i => ?_
  have hstops : ∀ (side : GradientAngle) (space : ColorSpace) (direction : HueDirection),
      Reader.Moves S T k
        (do
          let pieces ← stopPieces
          Reader.expectExhausted
          let stops ← placedStops space direction pieces
          return (⟨side, stops, space, direction⟩ : LinearGradient))
        (do
          let pieces ← stopPieces
          Reader.expectExhausted
          let stops ← placedStops space direction pieces
          return ⟨side, stops, space, direction⟩) := fun side space direction =>
    moves_stopPieces.bind fun _ => Reader.Moves.bind .expectExhausted fun _ =>
      (moves_placedStops space direction _).bind fun _ => .pure rfl
  split
  · exact Reader.Moves.bind .expectComma fun _ => hstops _ _ _
  · exact hstops _ _ _

/-- A gradient call is read alike as its inside is. -/
theorem moves_gradientLeaf : Leaf.Moves gradientLeaf := by
  intro S T k hS c hc
  have hwrong : Alike ReadError.unplaced
      (Leaf.unexpected S (c.shift k) : Except ReadError LinearGradient) (Leaf.unexpected T c) :=
    Leaf.moves_unexpected S T k hS c hc
  have hinside := Reader.alike_inside (moves_linearGradient (S := S) (T := T) (k := k))
    (Cursor.Shown.ofComponents hS (fun x hx => hc.of_mem_children hx) ((c.shift k).stop - 1)
      (c.stop - 1))
  rw [← Component.children_shift] at hinside
  have hcall := Component.isCall_shift k c "linear-gradient"
  cases c with
  | token t =>
    rw [Component.shift_token] at hwrong ⊢
    exact hwrong
  | group opener opened cs ending =>
    rw [Component.shift_group] at hwrong hinside hcall ⊢
    cases opener with
    | bracket b => exact hwrong
    | function name =>
      simp only [gradientLeaf, Reader.functionLeaf, bind, Except.bind, hcall]
      split
      · exact hinside
      · exact hwrong

theorem moves_gradientCall : Reader.Moves S T k gradientCall gradientCall := by
  rw [gradientCall_eq_leaf]
  exact .leaf moves_gradientLeaf

/-- The images between the commas are read alike one after the other. -/
theorem moves_backgroundImage : Reader.Moves S T k backgroundImage backgroundImage := by
  refine (Reader.MovesTo.isKeywordExhausted _).bind fun lone => ?_
  cases lone with
  | true => exact .pure rfl
  | false =>
    intro c d hcd
    have hparts : Alike ReadError.unplaced (c.commaParts.mapM gradientCall.inside)
        (d.commaParts.mapM gradientCall.inside) :=
      .mapM (hcd.commaParts.imp fun _ _ h => Reader.alike_inside moves_gradientCall h)
    have hall : Reader.Moves S T k
        (do return some (← Reader.ofExcept (c.commaParts.mapM gradientCall.inside)))
        (do return some (← Reader.ofExcept (d.commaParts.mapM gradientCall.inside))) :=
      Reader.Moves.bind (.ofExcept hparts) fun _ => .pure rfl
    exact hall _ _ hcd.toEnd

/-! ## Transforms -/

theorem moves_secondArgument {α : Type} {leaf : Leaf α} (h : leaf.Moves) :
    Reader.Moves S T k (secondArgument leaf) (secondArgument leaf) := by
  refine (Reader.MovesTo.ask fun c d hcd => hcd.isExhausted).bind fun exhausted => ?_
  cases exhausted with
  | true => exact .pure rfl
  | false =>
    exact Reader.MovesTo.tryComma.bind fun _ => (Reader.MovesTo.leaf h).bind fun _ => .pure rfl

theorem moves_moreNumbers (n : Nat) : Reader.Moves S T k (moreNumbers n) (moreNumbers n) := by
  induction n with
  | zero => exact .pure rfl
  | succ n ih =>
    exact Reader.MovesTo.tryComma.bind fun _ =>
      (Reader.MovesTo.leaf Leaf.moves_numberLeaf).bind fun _ => ih.bind fun _ => .pure rfl

theorem moves_translate : Reader.Moves S T k translate translate :=
  (Reader.MovesTo.leaf moves_distance).bind fun _ =>
    (moves_secondArgument moves_distance).bind fun _ => .pure rfl

theorem moves_rotate : Reader.Moves S T k rotate rotate :=
  (Reader.MovesTo.leaf moves_angle).bind fun _ => (Reader.MovesTo.ofExcept (.refl _)).bind fun _ =>
    (Reader.MovesTo.ofExcept (.refl _)).bind fun _ => .pure rfl

theorem moves_scale : Reader.Moves S T k scale scale :=
  (Reader.MovesTo.leaf Leaf.moves_numberLeaf).bind fun _ =>
    (moves_secondArgument Leaf.moves_numberLeaf).bind fun _ => .pure rfl

theorem moves_skew : Reader.Moves S T k skew skew :=
  (Reader.MovesTo.leaf moves_angle).bind fun _ => (moves_secondArgument moves_angle).bind fun _ =>
    (Reader.MovesTo.ofExcept (.refl _)).bind fun _ =>
      (Reader.MovesTo.ofExcept (.refl _)).bind fun _ => .pure rfl

theorem moves_matrix : Reader.Moves S T k matrix matrix :=
  (Reader.MovesTo.leaf Leaf.moves_numberLeaf).bind fun _ =>
    (moves_moreNumbers 5).bind fun _ => .pure rfl

theorem moves_transformFunctions {name : String} {arguments : Reader (Affine Float)}
    (h : transformFunctions.lookup name = some arguments) :
    Reader.Moves S T k arguments arguments := by
  rcases lookup_transformFunctions h with rfl | rfl | rfl | rfl | rfl
  · exact moves_translate
  · exact moves_rotate
  · exact moves_scale
  · exact moves_skew
  · exact moves_matrix

/-- A call is read alike as its arguments are. -/
theorem alike_transformCall {c d : Cursor} (hcd : c.Shown S T k d) {x : Component}
    (hx : x.Within T.length) :
    Alike ReadError.unplaced (transformCall c S (x.shift k)) (transformCall d T x) := by
  have hnested := hcd.nested hx
  refine (Leaf.moves_noVar S T k hcd.shows x hx).bind fun _ => ?_
  have htext := hcd.shows.textOf_shift hx
  cases x with
  | token t =>
    rw [Component.shift_token] at htext ⊢
    exact Leaf.alike_unexpected htext
  | group opener opened cs ending =>
    rw [Component.shift_group] at htext hnested ⊢
    cases opener with
    | bracket b => exact Leaf.alike_unexpected htext
    | function name =>
      dsimp only
      cases hlookup : transformFunctions.lookup (Text.lowercase name) with
      | none => exact Leaf.alike_unsupported htext
      | some arguments => exact Reader.alike_inside (moves_transformFunctions hlookup) hnested

theorem moves_transform : Reader.Moves S T k transform transform := by
  refine (Reader.MovesTo.isKeywordExhausted _).bind fun lone => ?_
  cases lone with
  | true => exact .pure rfl
  | false =>
    intro c d hcd
    have hfold : Reader.Moves S T k
        (Reader.foldAll (fun ms x =>
          StepError.ofLeaf (do return (← transformCall c c.source x) :: ms)) [])
        (Reader.foldAll (fun ms x =>
          StepError.ofLeaf (do return (← transformCall d d.source x) :: ms)) []) := by
      rw [hcd.source, hcd.source']
      exact .foldAll (fun maps x hx =>
        Alike.ofLeaf ((alike_transformCall hcd hx).bind fun _ => .ok _)) []
    exact hfold.bind (fun _ => .pure rfl) c d hcd

/-! ## Shadows -/

theorem alike_stepMark (allowInset : Bool) (hS : S.Shows T k) (s : ShadowState) {x : Component}
    (hx : x.Within T.length) :
    Alike StepError.unplaced (ShadowState.stepMark S allowInset s (x.shift k))
      (ShadowState.stepMark T allowInset s x) := by
  rw [ShadowState.stepMark, ShadowState.stepMark, Component.isComma_shift,
    Component.isKeyword_shift]
  split
  · exact .refl _
  · split
    · exact .refl _
    · exact (Leaf.moves_unexpected S T k hS x hx).ofLeaf

theorem alike_shadowState (allowInset : Bool) (hS : S.Shows T k) (s : ShadowState) {x : Component}
    (hx : x.Within T.length) :
    Alike StepError.unplaced (ShadowState.step S allowInset s (x.shift k))
      (ShadowState.step T allowInset s x) := by
  refine (Leaf.moves_noVar S T k hS x hx).ofLeaf.bind fun _ => ?_
  refine (moves_paint S T k hS x hx).attempted.ofLeaf.bind fun o => ?_
  cases o with
  | some p => exact .refl _
  | none =>
    refine (moves_length S T k hS x hx).attempted.ofLeaf.bind fun o => ?_
    cases o with
    | some l => exact .refl _
    | none => exact alike_stepMark allowInset hS s hx

theorem moves_shadowList (allowInset : Bool) :
    Reader.Moves S T k (shadowList allowInset) (shadowList allowInset) := by
  refine (Reader.MovesTo.isKeywordExhausted _).bind fun lone => ?_
  cases lone with
  | true => exact .pure rfl
  | false =>
    intro c d hcd
    refine Reader.MovesTo.source ((Reader.MovesTo.foldAll
      (fun s x hx => alike_shadowState allowInset hcd.shows s hx) _).bind fun state => ?_) c d hcd
    split
    · exact .pure rfl
    · exact .refuse _

theorem moves_shadowsOf {α : Type} (f : ShadowParts → Except Reason α)
    (parts : List ShadowParts) :
    Reader.Moves S T k (shadowsOf f parts) (shadowsOf f parts) := by
  unfold shadowsOf
  split
  · exact .pure rfl
  · exact .refuse _

theorem moves_boxShadow : Reader.Moves S T k boxShadow boxShadow := by
  refine (moves_shadowList true).bind fun o => ?_
  cases o with
  | some parts => exact (moves_shadowsOf _ parts).bind fun _ => .pure rfl
  | none => exact .pure rfl

theorem moves_textShadow : Reader.Moves S T k textShadow textShadow := by
  refine (moves_shadowList false).bind fun o => ?_
  cases o with
  | some parts => exact (moves_shadowsOf _ parts).bind fun _ => .pure rfl
  | none => exact .pure rfl

/-! ## Shorthands -/

theorem moves_wideKeyword (ls : List Longhand) :
    Reader.Moves S T k (wideKeyword ls) (wideKeyword ls) := by
  refine (Reader.MovesTo.isKeywordExhausted _).bind fun initial => ?_
  cases initial with
  | true => exact .pure rfl
  | false =>
    refine (Reader.MovesTo.isKeywordExhausted _).bind fun inherit => ?_
    cases inherit with
    | true => exact .pure rfl
    | false => exact .pure rfl

/-- What is read where no keyword for all longhands stands. -/
theorem moves_unlessWide (ls : List Longhand) {r s : Reader (List Property)}
    (h : Reader.Moves S T k r s) :
    Reader.Moves S T k
      (do match ← wideKeyword ls with
        | some properties => return properties
        | none => r)
      (do match ← wideKeyword ls with
        | some properties => return properties
        | none => s) := by
  refine (moves_wideKeyword ls).bind fun o => ?_
  cases o with
  | some properties => exact .pure rfl
  | none => exact h

theorem moves_quad {α : Type} {leaf : Leaf α} (h : leaf.Moves) :
    Reader.Moves S T k (quad leaf) (quad leaf) := by
  have hend : Reader.Moves S T k (Reader.ask Cursor.isExhausted) (Reader.ask Cursor.isExhausted) :=
    .ask fun c d hcd => hcd.isExhausted
  refine (Reader.MovesTo.leaf h).bind fun first => hend.bind fun exhausted => ?_
  cases exhausted with
  | true => exact .pure rfl
  | false =>
    refine (Reader.MovesTo.leaf h).bind fun second => hend.bind fun exhausted => ?_
    cases exhausted with
    | true => exact .pure rfl
    | false =>
      refine (Reader.MovesTo.leaf h).bind fun third => hend.bind fun exhausted => ?_
      cases exhausted with
      | true => exact .pure rfl
      | false =>
        exact (Reader.MovesTo.leaf h).bind fun fourth =>
          Reader.MovesTo.expectExhausted.bind fun _ => .pure rfl

theorem moves_quadShorthand {α : Type} (ls : List Longhand) {leaf : Leaf α} (h : leaf.Moves)
    (value : α → Value) :
    Reader.Moves S T k (quadShorthand ls leaf value) (quadShorthand ls leaf value) :=
  moves_unlessWide ls ((moves_quad h).bind fun _ => .pure rfl)

theorem alike_stepStyle (hS : S.Shows T k) (s : StrokeState) {x : Component}
    (hx : x.Within T.length) :
    Alike StepError.unplaced (StrokeState.stepStyle S s (x.shift k))
      (StrokeState.stepStyle T s x) := by
  have hwrong : Alike StepError.unplaced
      (StepError.ofLeaf (Leaf.unexpected S (x.shift k)) : Except StepError StrokeState)
      (StepError.ofLeaf (Leaf.unexpected T x)) := (Leaf.moves_unexpected S T k hS x hx).ofLeaf
  cases x with
  | group opener opened cs ending =>
    rw [Component.shift_group] at hwrong ⊢
    exact hwrong
  | token t =>
    obtain ⟨kind, span⟩ := t
    rw [Component.shift_token] at hwrong ⊢
    cases kind with
    | ident name =>
      simp only [StrokeState.stepStyle, Token.shift]
      split
      · exact .error rfl
      · split
        · exact .ok _
        · exact hwrong
    | _ => exact hwrong

theorem alike_strokeState (colors widths : List Longhand) (hS : S.Shows T k) (s : StrokeState)
    {x : Component} (hx : x.Within T.length) :
    Alike StepError.unplaced (StrokeState.step S colors widths s (x.shift k))
      (StrokeState.step T colors widths s x) := by
  refine (Leaf.moves_noVar S T k hS x hx).ofLeaf.bind fun _ => ?_
  refine (moves_paint S T k hS x hx).attempted.ofLeaf.bind fun o => ?_
  cases o with
  | some p => exact .refl _
  | none =>
    refine (moves_lineWidth S T k hS x hx).attempted.ofLeaf.bind fun o => ?_
    cases o with
    | some l => exact .refl _
    | none => exact alike_stepStyle hS s hx

theorem moves_strokeShorthand (colors widths : List Longhand) :
    Reader.Moves S T k (strokeShorthand colors widths) (strokeShorthand colors widths) := by
  refine moves_unlessWide _ fun c d hcd => ?_
  have hall := Reader.MovesTo.foldAll (S := S)
    (fun s x hx => alike_strokeState colors widths hcd.shows s hx)
  exact Reader.MovesTo.source ((hall _).bind fun _ => .pure rfl) c d hcd

/-- A part that may have been read already, and otherwise is read if it stands here. -/
theorem moves_optionalPart {α β : Type} {missing : Bool} {r : Reader α}
    {f : Option α → Reader β} {rest : Reader β} (hr : Reader.Moves S T k r r)
    (hsome : ∀ a, Reader.Moves S T k (f (some a)) (f (some a))) (hnone : f none = rest)
    (hrest : Reader.Moves S T k rest rest) :
    Reader.Moves S T k (if missing = true then Reader.attempt r >>= f else rest)
      (if missing = true then Reader.attempt r >>= f else rest) := by
  split
  · refine (Reader.MovesTo.attempt hr).bind fun o => ?_
    cases o with
    | some a => exact hsome a
    | none => exact hnone ▸ hrest
  · exact hrest

theorem moves_fontPart (p : FontParts) : Reader.Moves S T k (fontPart p) (fontPart p) := by
  unfold fontPart
  refine moves_optionalPart (moves_fontStyle false) (fun _ => .pure rfl) rfl ?_
  refine moves_optionalPart (.leaf moves_fontWeight) (fun _ => .pure rfl) rfl ?_
  exact moves_optionalPart (.leaf moves_fontWidth) (fun _ => .pure rfl) rfl (.pure rfl)

theorem moves_fontParts (count : Nat) (p : FontParts) :
    Reader.Moves S T k (fontParts p count) (fontParts p count) := by
  induction count generalizing p with
  | zero => exact .pure rfl
  | succ count ih =>
    refine (moves_fontPart p).bind fun o => ?_
    cases o with
    | some more => exact ih more
    | none => exact .pure rfl

theorem moves_fontLineHeight : Reader.Moves S T k fontLineHeight fontLineHeight := by
  refine .peek (.pure rfl) fun c d x hcd hd hx => ?_
  dsimp only
  rw [Component.isTokenOf_shift]
  split
  · refine Reader.MovesTo.next ?_ c d hcd
    refine (Reader.MovesTo.tryKeyword _).bind fun o => ?_
    cases o with
    | some word => exact .pure rfl
    | none => exact (Reader.MovesTo.leaf moves_size).bind fun _ => .pure rfl
  · exact .ok rfl hcd

theorem moves_fontShorthand : Reader.Moves S T k fontShorthand fontShorthand :=
  moves_unlessWide _ <| (moves_fontParts 3 _).bind fun _ =>
    (Reader.MovesTo.leaf moves_fontSize).bind fun _ => moves_fontLineHeight.bind fun _ =>
      moves_fontFamily.bind fun _ => .pure rfl

end Grammar

/-! ## Properties -/

variable {S T : Source} {k : Nat}

namespace Longhand

theorem moves_exactLeaf {α : Type} (value : α → Value) {leaf : Leaf α} (h : leaf.Moves) :
    Reader.Moves S T k (exactLeaf value leaf) (exactLeaf value leaf) :=
  (Reader.MovesTo.leaf h).bind fun _ => .pure rfl

theorem moves_exactOrInitial {α : Type} (value : α → Value) {r : Reader (Option α)}
    (h : Reader.Moves S T k r r) :
    Reader.Moves S T k (exactOrInitial value r) (exactOrInitial value r) :=
  h.bind fun _ => .pure rfl

open Grammar in
/-- The grammar of a longhand reads a value alike wherever it stands. -/
theorem moves_reader (l : Longhand) : Reader.Moves S T k l.reader l.reader := by
  cases l with
  | backgroundColor | borderColor | color | outlineColor | selectionBackground | selectionColor =>
    exact moves_exactLeaf _ moves_paint
  | backgroundImage => exact moves_exactOrInitial _ moves_backgroundImage
  | borderRadius | borderWidth | flexBasis | outlineWidth | maximum | minimum =>
    exact moves_exactLeaf _ moves_positiveLength
  | outlineOffset => exact moves_exactLeaf _ moves_length
  | letterSpacing | wordSpacing => exact moves_exactLeaf _ moves_size
  | lineHeight => exact moves_exactLeaf _ moves_positiveSize
  | extent e =>
    cases e with
    | side => exact moves_exactLeaf _ moves_size
    | childSide | childBetween | width | height => exact moves_exactLeaf _ moves_positiveSize
  | boxShadow => exact moves_exactOrInitial _ moves_boxShadow
  | textShadow => exact moves_exactOrInitial _ moves_textShadow
  | display | position | textAlign => exact moves_exactLeaf _ (moves_keyword _)
  | fontFamily => exact moves_fontFamily.bind fun _ => .pure rfl
  | fontSize => exact moves_exactLeaf _ moves_fontSize
  | fontStyle => exact (moves_fontStyle true).bind fun _ => .pure rfl
  | fontWeight => exact moves_exactLeaf _ moves_fontWeight
  | fontWidth => exact moves_exactLeaf _ moves_fontWidth
  | opacity => exact moves_exactLeaf _ moves_opacity
  | transform => exact moves_transform.bind fun _ => .pure rfl
  | zIndex => exact moves_exactLeaf _ moves_integer

end Longhand

/-- The grammar of a shorthand reads a value alike wherever it stands. -/
theorem Shorthand.moves_reader (s : Shorthand) : Reader.Moves S T k s.reader s.reader := by
  cases s with
  | border | borderSide | outline => exact Grammar.moves_strokeShorthand _ _
  | borderColor => exact Grammar.moves_quadShorthand _ Grammar.moves_paint _
  | borderWidth => exact Grammar.moves_quadShorthand _ Grammar.moves_lineWidth _
  | borderRadius => exact Grammar.moves_quadShorthand _ Grammar.moves_positiveLength _
  | space | childSpace => exact Grammar.moves_quadShorthand _ Grammar.moves_size _
  | font => exact Grammar.moves_fontShorthand

end Styling
