import Styling.Grammar.Font
import Styling.Grammar.Gradient
import Styling.Grammar.Shadow
import Styling.Grammar.Shorthand
import Styling.Grammar.Transform
import Styling.Proofs.Value.Clearing

/-!
# Every grammar sees the `var()` calls it takes

Each grammar has the property of `Styling.Proofs.Value.Clearing`: it gives a value only after it saw
everything it took, the arguments of nested functions included.

The leaves come first, one after the other.  They read tokens, which hold nothing; only `paint`
takes calls, and it looks into them before.  The grammars of several components follow from the ways
they are put together, and three of them need a word of their own: a gradient call and a call of a
transform are read as groups and then by a reader of their inside, and the parts of a background
image are read by cursors of their own.

* `Grammar.clears_paint` and its like are about leaves.
* `Grammar.clears_gradientCall` and `Grammar.clears_transform` are about nested calls.
* `Shorthand.clears_reader` adds that a shorthand is spread over its own longhands only.
-/

namespace Styling

namespace Grammar

open Component (containsVar_token)

/-! ## Leaves -/

theorem grounded_wrongUnit {α : Type} {hasVar : Bool} {P : α → Prop} (unit : String)
    (source : Source) (c : Component) :
    Grounded ReadError.isVarCall hasVar P (wrongUnit unit source c) := by
  unfold wrongUnit
  split
  next => exact .unsupported source c
  next => exact .unexpected source c

theorem clears_length : Leaf.Clears length := by
  intro source c
  unfold length
  split
  next n unit span =>
    split
    next => exact (Grounded.ofFault _).bind fun _ _ => containsVar_token _
    next => exact grounded_wrongUnit _ source _
  next =>
    split
    next => exact containsVar_token _
    next => exact .unexpected source _
  next => exact .unexpected source c

theorem clears_positiveLength : Leaf.Clears positiveLength := by
  intro source c
  refine (clears_length source c).bind fun l hc => ?_
  split
  next => exact .refuse _ source c
  next => exact hc

theorem clears_size : Leaf.Clears size := by
  intro source c
  unfold size
  split
  next =>
    split
    next => exact containsVar_token _
    next => exact (Grounded.ofFault _).bind fun _ _ => containsVar_token _
  next n unit span =>
    dsimp only
    split
    next => exact (Grounded.ofFault _).bind fun _ _ => containsVar_token _
    next =>
      split
      next => exact (Grounded.ofFault _).bind fun _ _ => containsVar_token _
      next => exact grounded_wrongUnit _ source _
  next => exact (Grounded.ofFault _).bind fun _ _ => containsVar_token _
  next =>
    split
    next h => exact Component.containsVar_of_isTokenOf h
    next => exact .unexpected source c

theorem clears_positiveSize : Leaf.Clears positiveSize := by
  intro source c
  refine (clears_size source c).bind fun s hc => ?_
  split
  next => exact .refuse _ source c
  next => exact hc

theorem clears_angle : Leaf.Clears angle := by
  intro source c
  unfold angle
  split
  next =>
    split
    next => exact containsVar_token _
    next => exact .unexpected source _
  next =>
    split
    next => exact (Grounded.ofFault _).bind fun _ _ => containsVar_token _
    next => exact .unsupported source _
  next => exact .unexpected source c

/-- A color may be a call, and its inside was looked at. -/
theorem clears_paint : Leaf.Clears paint := by
  intro source c
  refine (Leaf.clears_noNestedVar source c).bind fun _ hc => ?_
  split
  next =>
    refine (Grounded.ofFault _).bind fun o _ => ?_
    cases o with
    | none => exact .unexpected source c
    | some p => exact hc
  next => exact .unexpected source c

theorem clears_integer : Leaf.Clears integer := by
  intro source c
  unfold integer
  split
  next => exact containsVar_token _
  next => exact .unexpected source c

theorem clears_opacity : Leaf.Clears opacity := by
  intro source c
  unfold opacity
  split
  next => exact (Grounded.ofFault _).bind fun _ _ => containsVar_token _
  next => exact (Grounded.ofFault _).bind fun _ _ => containsVar_token _
  next => exact .unexpected source c

theorem clears_keyword {α : Type} (table : List (String × α)) : Leaf.Clears (keyword table) := by
  intro source c
  unfold keyword
  split
  next =>
    split
    next => exact containsVar_token _
    next => exact .unexpected source _
  next => exact .unexpected source c

theorem clears_fontSize : Leaf.Clears fontSize := by
  intro source c
  have hcheck : ∀ value : Float, c.containsVar = false →
      Grounded ReadError.isVarCall c.containsVar (fun _ => c.containsVar = false)
        (if value < 0.0 then Leaf.refuse .negativeFontSize source c else pure value) := by
    intro value hc
    split
    next => exact .refuse _ source c
    next => exact hc
  unfold fontSize
  split
  next => exact (Grounded.ofFault _).bind fun value _ => hcheck value (containsVar_token _)
  next =>
    split
    next => exact (Grounded.ofFault _).bind fun value _ => hcheck value (containsVar_token _)
    next => exact Grounded.error rfl
  next => exact Grounded.error rfl

theorem clears_fontWeight : Leaf.Clears fontWeight := by
  intro source c
  unfold fontWeight
  split
  next =>
    dsimp only
    split
    next => exact containsVar_token _
    next =>
      split
      next => exact containsVar_token _
      next =>
        split
        next => exact .unsupported source _
        next => exact .unexpected source _
  next => exact (Grounded.ofFault _).bind fun _ _ => containsVar_token _
  next => exact .unexpected source c

theorem clears_fontWidth : Leaf.Clears fontWidth := by
  intro source c
  unfold fontWidth
  split
  next =>
    split
    next => exact .refuse _ source _
    next => exact (Grounded.ofFault _).imp fun _ _ => containsVar_token _
  next => exact clears_keyword fontWidths source c

theorem clears_lineWidth : Leaf.Clears lineWidth := by
  intro source c
  unfold lineWidth
  split
  next => exact (clears_keyword lineWidths source _).bind fun _ hc => hc
  next => exact clears_positiveLength source c

theorem clears_distance : Leaf.Clears distance := by
  intro source c
  unfold distance
  split
  next =>
    split
    next => exact containsVar_token _
    next => exact .unexpected source _
  next =>
    split
    next => exact (Grounded.ofFault _).imp fun _ _ => containsVar_token _
    next => exact .unsupported source _
  next => exact .unsupported source _
  next => exact .unexpected source c

theorem clears_colorSpace : Leaf.Clears colorSpace := by
  intro source c
  unfold colorSpace
  split
  next =>
    dsimp only
    split
    next => exact .unsupported source _
    next =>
      split
      next => exact containsVar_token _
      next => exact .unexpected source _
  next => exact .unexpected source c

/-! ## Fonts -/

variable {c : Cursor}

theorem clears_familyState (source : Source) (state : FamilyState) (d : Component) :
    Grounded StepError.isVarCall d.containsVar (fun _ => True ∧ d.containsVar = false)
      (FamilyState.step source state d) := by
  refine (Leaf.grounded_noVar source d).ofLeaf.bind fun _ _ => ?_
  dsimp only
  split
  all_goals first
    | exact ⟨trivial, containsVar_token _⟩
    | exact (Grounded.unexpected source _).ofLeaf

theorem clears_fontFamily : fontFamily.Clears c fun _ => True := by
  refine .ask (.source ?_)
  refine (Reader.Clears.foldAll trivial fun s d _ => clears_familyState c.source s d).bind
    fun state _ _ _ => ?_
  split
  next => exact .refuse _
  next => exact .ask (.pure trivial)

theorem clears_fontStyle (strict : Bool) : (fontStyle strict).Clears c fun _ => True := by
  refine (Reader.Clears.leaf (clears_keyword _)).bind fun style c' _ _ => ?_
  split
  next =>
    refine .source (.ask ?_)
    split
    next => exact .pure trivial
    next n unit span hpeek =>
      split
      next =>
        refine (Reader.Clears.next_of_peek hpeek (containsVar_token _)).bind fun _ _ _ _ => ?_
        exact (Reader.Clears.ofExcept (Grounded.ofFault _)).bind fun _ _ _ _ => .pure trivial
      next =>
        split
        next => exact .ofExcept (.unsupported _ _)
        next => exact .pure trivial
    next d _ hpeek =>
      have hd := (Leaf.clears_noNestedVar c'.source d).within (Cursor.holdsVar_of_containsVar hpeek)
      exact (Reader.Clears.ofExcept hd).bind fun _ _ _ _ => .pure trivial
  next => exact .pure trivial

/-! ## Gradients -/

/-- A word that names a side is a token. -/
theorem containsVar_of_sideWord? {d : Component} {word : String} (h : sideWord? d = some word) :
    d.containsVar = false := by
  unfold sideWord? at h
  split at h
  next => exact containsVar_token _
  next => exact absurd h (by simp)

theorem clears_sidesAfter (words : List String) (count : Nat) :
    (sidesAfter words count).Clears c fun _ => True := by
  induction count generalizing words c with
  | zero => exact .pure trivial
  | succ count ih =>
    refine .ask ?_
    split
    next => exact .pure trivial
    next d hpeek =>
      split
      next => exact .pure trivial
      next word hword =>
        have hd := containsVar_of_sideWord? hword
        refine (Reader.Clears.next_of_peek hpeek hd).bind fun _ _ _ _ => ?_
        split
        next => exact .source (.ofExcept (.unexpected _ _))
        next => exact ih _

theorem clears_gradientSide : gradientSide.Clears c fun _ => True := by
  refine (Reader.Clears.keyword _).bind fun _ _ _ _ => ?_
  refine (clears_sidesAfter [] 2).bind fun words _ _ _ => ?_
  split
  next => exact .pure trivial
  next => exact .refuse _

theorem clears_gradientAngle : gradientAngle.Clears c fun _ => True := by
  refine (Reader.Clears.leaf clears_angle).attempt.bind fun radians _ _ _ => ?_
  split
  next => exact .pure trivial
  next => exact clears_gradientSide.bind fun _ _ _ _ => .pure trivial

theorem clears_hueDirection : hueDirection.Clears c fun _ => True := by
  refine (Reader.Clears.leaf (clears_keyword _)).bind fun _ _ _ _ => ?_
  exact (Reader.Clears.keyword _).bind fun _ _ _ _ => .pure trivial

theorem clears_interpolation : interpolation.Clears c fun _ => True := by
  refine (Reader.Clears.leaf clears_colorSpace).bind fun _ _ _ _ => ?_
  exact clears_hueDirection.attempt.bind fun _ _ _ _ => .pure trivial

theorem containsVar_of_isPercentage {d : Component} (h : StopState.isPercentage d = true) :
    d.containsVar = false := by
  unfold StopState.isPercentage at h
  split at h
  next => exact containsVar_token _
  next => exact absurd h (by simp)

theorem clears_stopState (source : Source) (s : List (StopPiece Paint Float) × StopState)
    (d : Component) :
    Grounded StepError.isVarCall d.containsVar
      (fun o => ∀ s', o = some s' → True ∧ d.containsVar = false) (StopState.step source s d) := by
  refine Grounded.ofLeaf ?_
  split
  next pieces =>
    split
    next h =>
      have hd := containsVar_of_isPercentage h
      exact (Leaf.clears_percentageLeaf source d).bind fun _ _ _ _ => ⟨trivial, hd⟩
    next =>
      refine (Leaf.grounded_noVar source d).bind fun _ _ => ?_
      exact (clears_paint source d).bind fun _ hd _ _ => ⟨trivial, hd⟩
  next pieces p positions =>
    split
    next h =>
      have hd := containsVar_of_isPercentage (Bool.and_eq_true_iff.mp h).1
      exact (Leaf.clears_percentageLeaf source d).bind fun _ _ _ _ => ⟨trivial, hd⟩
    next =>
      split
      next h => exact fun _ _ => ⟨trivial, Component.containsVar_of_isTokenOf h⟩
      next => exact fun _ h => absurd h (by simp)
  next pieces =>
    split
    next h => exact fun _ _ => ⟨trivial, Component.containsVar_of_isTokenOf h⟩
    next => exact fun _ h => absurd h (by simp)

theorem clears_stopPieces : stopPieces.Clears c fun _ => True := by
  refine .source ?_
  refine (Reader.Clears.foldWhile trivial fun s d _ => clears_stopState c.source s d).bind
    fun state _ _ _ => ?_
  dsimp only
  split
  next => exact .leaf Leaf.clears_unexpected
  next => exact .pure trivial

theorem clears_placedStops (space : ColorSpace) (direction : HueDirection)
    (pieces : List (StopPiece Paint Float)) :
    (placedStops space direction pieces).Clears c fun _ => True := by
  unfold placedStops
  split
  next => exact .pure trivial
  next => exact .refuse _
  next => exact .throw fun h => absurd h (by simp)
  next => exact .throw fun h => absurd h (by simp)

theorem clears_linearGradient : linearGradient.Clears c fun _ => True := by
  have hstops : ∀ (angle : Option GradientAngle) (space : ColorSpace) (direction : HueDirection)
      (c : Cursor), (do
        let pieces ← stopPieces
        Reader.expectExhausted
        let stops ← placedStops space direction pieces
        return (⟨angle.getD (.side .bottom), stops, space, direction⟩ : LinearGradient) :
          Reader LinearGradient).Clears c fun _ => True := by
    intro angle space direction c
    refine clears_stopPieces.bind fun pieces _ _ _ => ?_
    refine Reader.Clears.expectExhausted.bind fun _ _ _ _ => ?_
    exact (clears_placedStops space direction pieces).bind fun _ _ _ _ => .pure trivial
  have hspace : ∀ (angle : Option GradientAngle) (hasSpace : Bool)
      (space : ColorSpace × HueDirection) (c : Cursor), (do
        if angle.isSome || hasSpace then Reader.expectComma
        let pieces ← stopPieces
        Reader.expectExhausted
        let stops ← placedStops space.1 space.2 pieces
        return (⟨angle.getD (.side .bottom), stops, space.1, space.2⟩ : LinearGradient) :
          Reader LinearGradient).Clears c fun _ => True := by
    intro angle hasSpace space c
    dsimp only
    split
    next => exact Reader.Clears.expectComma.bind fun _ _ _ _ => hstops angle space.1 space.2 _
    next => exact hstops angle space.1 space.2 c
  unfold linearGradient
  refine clears_gradientAngle.attempt.bind fun angle _ _ _ => ?_
  refine (Reader.Clears.tryKeyword _).bind fun word _ _ _ => ?_
  dsimp only
  split
  next => exact clears_interpolation.bind fun space _ _ _ => hspace angle word.isSome space _
  next => exact hspace angle word.isSome (.srgb, .shorter) _

/-- A gradient call as a leaf: the inside of the call is read to its end. -/
def gradientLeaf : Leaf LinearGradient := fun source d => do
  let f ← Reader.functionLeaf source d
  if f.isCall "linear-gradient" then
    linearGradient.inside (.ofComponents source f.children (f.stop - 1))
  else Leaf.unexpected source d

theorem gradientCall_eq_leaf : gradientCall = Reader.leaf gradientLeaf := by
  funext c
  cases hpeek : c.peek with
  | none =>
    rw [gradientCall, Reader.bind_apply, Reader.leaf_of_peek_none hpeek,
      Reader.leaf_of_peek_none hpeek]
  | some d =>
    cases hvar : d.isVar with
    | true =>
      rw [gradientCall, Reader.bind_apply, Reader.leaf_of_peek_isVar hpeek hvar,
        Reader.leaf_of_peek_isVar hpeek hvar]
    | false =>
      rw [gradientCall, Reader.bind_apply, Reader.leaf_of_peek hpeek hvar,
        Reader.leaf_of_peek hpeek hvar, gradientLeaf]
      cases hf : Reader.functionLeaf c.source d with
      | error e => rfl
      | ok f =>
        cases hcall : f.isCall "linear-gradient" with
        | false => simp [bind, Except.bind, hcall, Leaf.unexpected]
        | true => simp [bind, Except.bind, hcall, pure, Except.pure]; rfl

/-- The name of a gradient call is not `var`. -/
theorem isVar_of_isCall {d : Component} (h : d.isCall "linear-gradient" = true) :
    d.isVar = false := by
  cases d with
  | token t => rfl
  | group opener opened cs ending =>
    cases opener with
    | bracket b => rfl
    | function name =>
      have hname : Text.lowercase name = "linear-gradient" := by
        simpa [Component.isCall, Opener.isFunction] using h
      simp [Component.isVar, Component.isCall, Opener.isFunction, hname]

theorem clears_gradientLeaf : gradientLeaf.Clears := by
  intro source d
  unfold gradientLeaf Reader.functionLeaf
  split
  next name opened cs ending =>
    dsimp only [bind, Except.bind]
    split
    next h =>
      exact Reader.grounded_children (fun _ => clears_linearGradient) (isVar_of_isCall h) source _
    next => exact .unexpected source _
  next => exact Grounded.error rfl

theorem clears_gradientCall : gradientCall.Clears c fun _ => True :=
  gradientCall_eq_leaf ▸ .leaf clears_gradientLeaf

/-- Cutting at commas loses no `var()` call. -/
theorem any_splitAtCommas (stop : Nat) (cs : List Component) :
    (Cursor.splitAtCommas stop cs).any (fun part => Component.listContainsVar part.1) =
      Component.listContainsVar cs := by
  induction cs with
  | nil => rfl
  | cons d cs ih =>
    rw [Cursor.splitAtCommas]
    cases hcomma : d.isComma with
    | true =>
      simp [ih, Component.containsVar_of_isTokenOf hcomma]
    | false =>
      cases hsplit : Cursor.splitAtCommas stop cs with
      | nil => exact absurd hsplit (Cursor.splitAtCommas_ne_nil stop cs)
      | cons part parts =>
        rw [hsplit] at ih
        simp [← ih, Bool.or_assoc]

theorem any_commaParts (c : Cursor) : c.commaParts.any Cursor.holdsVar = c.holdsVar := by
  rw [Cursor.commaParts, List.any_map]
  exact any_splitAtCommas c.stop c.rest

theorem clears_backgroundImage : backgroundImage.Clears c fun _ => True := by
  refine (Reader.Clears.isKeywordExhausted _).bind fun lone c' _ _ => ?_
  split
  next => exact .pure trivial
  next =>
    have hparts := Grounded.mapM (fun part : Cursor =>
      (Reader.grounded_inside (c := part) clears_gradientCall).imp fun _ h => h.2) c'.commaParts
    rw [any_commaParts] at hparts
    rw [Reader.Clears]
    simp only [Reader.bind_apply, Reader.ask_apply, Reader.modify_apply]
    cases hrun : c'.commaParts.mapM gradientCall.inside with
    | error e =>
      rw [hrun] at hparts
      exact hparts
    | ok gradients =>
      rw [hrun] at hparts
      have hend : c'.toEnd.holdsVar = false := by
        rw [Cursor.holdsVar, Cursor.rest_toEnd]
        exact Component.listContainsVar_nil
      exact ⟨trivial, hend.trans hparts.symm⟩

/-! ## Transforms -/

theorem clears_secondArgument {α : Type} {leaf : Leaf α} (h : leaf.Clears) :
    (secondArgument leaf).Clears c fun _ => True := by
  refine .ask ?_
  split
  next => exact .pure trivial
  next =>
    refine Reader.Clears.tryComma.bind fun _ _ _ _ => ?_
    exact (Reader.Clears.leaf h).bind fun _ _ _ _ => .pure trivial

theorem clears_moreNumbers (n : Nat) : (moreNumbers n).Clears c fun _ => True := by
  induction n generalizing c with
  | zero => exact .pure trivial
  | succ n ih =>
    refine Reader.Clears.tryComma.bind fun _ _ _ _ => ?_
    refine (Reader.Clears.leaf Leaf.clears_numberLeaf).bind fun _ _ _ _ => ?_
    exact ih.bind fun _ _ _ _ => .pure trivial

theorem clears_translate : translate.Clears c fun _ => True := by
  refine (Reader.Clears.leaf clears_distance).bind fun _ _ _ _ => ?_
  exact (clears_secondArgument clears_distance).bind fun _ _ _ _ => .pure trivial

theorem clears_rotate : rotate.Clears c fun _ => True := by
  refine (Reader.Clears.leaf clears_angle).bind fun _ _ _ _ => ?_
  refine (Reader.Clears.ofExcept (Grounded.ofFault _)).bind fun _ _ _ _ => ?_
  exact (Reader.Clears.ofExcept (Grounded.ofFault _)).bind fun _ _ _ _ => .pure trivial

theorem clears_scale : scale.Clears c fun _ => True := by
  refine (Reader.Clears.leaf Leaf.clears_numberLeaf).bind fun _ _ _ _ => ?_
  exact (clears_secondArgument Leaf.clears_numberLeaf).bind fun _ _ _ _ => .pure trivial

theorem clears_skew : skew.Clears c fun _ => True := by
  refine (Reader.Clears.leaf clears_angle).bind fun _ _ _ _ => ?_
  refine (clears_secondArgument clears_angle).bind fun _ _ _ _ => ?_
  refine (Reader.Clears.ofExcept (Grounded.ofFault _)).bind fun _ _ _ _ => ?_
  exact (Reader.Clears.ofExcept (Grounded.ofFault _)).bind fun _ _ _ _ => .pure trivial

theorem clears_matrix : matrix.Clears c fun _ => True := by
  refine (Reader.Clears.leaf Leaf.clears_numberLeaf).bind fun _ _ _ _ => ?_
  exact (clears_moreNumbers 5).bind fun _ _ _ _ => .pure trivial

/-- The readers of arguments are the five of them. -/
theorem lookup_transformFunctions {name : String} {arguments : Reader (Affine Float)}
    (h : transformFunctions.lookup name = some arguments) :
    arguments = translate ∨ arguments = rotate ∨ arguments = scale ∨ arguments = skew ∨
      arguments = matrix := by
  obtain ⟨before, after, hsplit, -⟩ := List.lookup_eq_some_iff.mp h
  have hmem : (name, arguments) ∈ transformFunctions := by
    rw [hsplit]
    exact List.mem_append_right before (List.mem_cons_self ..)
  simp only [transformFunctions, List.mem_cons, List.not_mem_nil, or_false, Prod.mk.injEq] at hmem
  exact hmem.imp And.right <| .imp And.right <| .imp And.right <| .imp And.right And.right

theorem clears_transformFunctions {name : String} {arguments : Reader (Affine Float)}
    (h : transformFunctions.lookup name = some arguments) :
    arguments.Clears c fun _ => True := by
  rcases lookup_transformFunctions h with rfl | rfl | rfl | rfl | rfl
  · exact clears_translate
  · exact clears_rotate
  · exact clears_scale
  · exact clears_skew
  · exact clears_matrix

theorem clears_transformCall (cursor : Cursor) : (transformCall cursor).Clears := by
  intro source d
  refine (Leaf.grounded_noVar source d).bind fun _ hvar => ?_
  split
  next name opened cs ending =>
    split
    next arguments hlookup =>
      exact Reader.grounded_children (fun _ => clears_transformFunctions hlookup) hvar _ _
    next => exact .unsupported source _
  next => exact .unexpected source d

theorem clears_transform : transform.Clears c fun _ => True := by
  refine (Reader.Clears.isKeywordExhausted _).bind fun lone c' _ _ => ?_
  split
  next => exact .pure trivial
  next =>
    refine .ask ?_
    have hstep : ∀ (maps : List (Affine Float)) (d : Component),
        Grounded ReadError.isVarCall d.containsVar (fun _ => True ∧ d.containsVar = false)
          (do return (← transformCall c' c'.source d) :: maps) := by
      intro maps d
      exact (clears_transformCall c' c'.source d).bind fun _ hd => ⟨trivial, hd⟩
    refine (Reader.Clears.foldAll (P := fun _ => True) trivial
      fun maps d _ => (hstep maps d).ofLeaf).bind fun _ _ _ _ => .pure trivial

/-! ## Shadows -/

theorem grounded_stepMark (source : Source) (allowInset : Bool) (s : ShadowState)
    (d : Component) :
    Grounded StepError.isVarCall d.containsVar (fun _ => True ∧ d.containsVar = false)
      (ShadowState.stepMark source allowInset s d) := by
  unfold ShadowState.stepMark
  split
  next h =>
    split
    next => exact ⟨trivial, Component.containsVar_of_isTokenOf h⟩
    next => exact .following _
  next =>
    split
    next h =>
      have hinset := (Bool.and_eq_true_iff.mp (Bool.and_eq_true_iff.mp h).1).2
      exact ⟨trivial, Component.containsVar_of_isTokenOf hinset⟩
    next => exact (Grounded.unexpected source d).ofLeaf

theorem clears_shadowState (source : Source) (allowInset : Bool) (s : ShadowState)
    (d : Component) :
    Grounded StepError.isVarCall d.containsVar (fun _ => True ∧ d.containsVar = false)
      (ShadowState.step source allowInset s d) := by
  refine (Leaf.grounded_noVar source d).ofLeaf.bind fun _ _ => ?_
  refine (clears_paint source d).attempted.ofLeaf.bind fun paint hpaint => ?_
  cases paint with
  | some p =>
    dsimp only
    split
    next => exact .following _
    next => exact ⟨trivial, hpaint p rfl⟩
  | none =>
    refine (clears_length source d).attempted.ofLeaf.bind fun length hlength => ?_
    cases length with
    | some l =>
      dsimp only
      split
      next => exact .following _
      next => exact ⟨trivial, hlength l rfl⟩
    | none => exact grounded_stepMark source allowInset s d

theorem clears_shadowList (allowInset : Bool) :
    (shadowList allowInset).Clears c fun _ => True := by
  refine (Reader.Clears.isKeywordExhausted _).bind fun lone c' _ _ => ?_
  split
  next => exact .pure trivial
  next =>
    refine .source ?_
    refine (Reader.Clears.foldAll trivial
      fun s d _ => clears_shadowState c'.source allowInset s d).bind fun state _ _ _ => ?_
    split
    next => exact .pure trivial
    next => exact .refuse _

theorem clears_shadowsOf {α : Type} (f : ShadowParts → Except Reason α)
    (parts : List ShadowParts) : (shadowsOf f parts).Clears c fun _ => True := by
  unfold shadowsOf
  split
  next => exact .pure trivial
  next => exact .refuse _

theorem clears_boxShadow : boxShadow.Clears c fun _ => True := by
  refine (clears_shadowList true).bind fun parts _ _ _ => ?_
  split
  next => exact (clears_shadowsOf _ _).bind fun _ _ _ _ => .pure trivial
  next => exact .pure trivial

theorem clears_textShadow : textShadow.Clears c fun _ => True := by
  refine (clears_shadowList false).bind fun parts _ _ _ => ?_
  split
  next => exact (clears_shadowsOf _ _).bind fun _ _ _ _ => .pure trivial
  next => exact .pure trivial

end Grammar

/-! ## Shorthands -/

/-- The property declares one of some longhands, and nothing has to be read later. -/
def Property.IsSettled (ls : List Longhand) (p : Property) : Prop :=
  p.value.isDeferred = false ∧ ∃ l ∈ ls, p.kind = .longhand l

namespace Grammar

variable {c : Cursor}

theorem isSettled_fanOut {ls : List Longhand} {value : PropertyValue}
    (h : value.isDeferred = false) : ∀ p ∈ fanOut ls value, p.IsSettled ls := by
  intro p hp
  obtain ⟨l, hl, rfl⟩ := List.mem_map.mp hp
  exact ⟨h, l, hl, rfl⟩

theorem isSettled_zipWith {α : Type} (ls : List Longhand) (value : α → Value) (as : List α) :
    ∀ p ∈ ls.zipWith (fun l a => Property.longhand l (.exact (value a))) as, p.IsSettled ls := by
  intro p hp
  rw [← List.map_uncurry_zip_eq_zipWith] at hp
  obtain ⟨⟨l, a⟩, hmem, rfl⟩ := List.mem_map.mp hp
  exact ⟨rfl, l, (List.of_mem_zip hmem).1, rfl⟩

theorem clears_wideKeyword (ls : List Longhand) :
    (wideKeyword ls).Clears c fun o => ∀ ps, o = some ps → ∀ p ∈ ps, p.IsSettled ls := by
  refine (Reader.Clears.isKeywordExhausted _).bind fun initial _ _ _ => ?_
  split
  next => exact .pure fun ps hps => Option.some_inj.mp hps ▸ isSettled_fanOut rfl
  next =>
    refine (Reader.Clears.isKeywordExhausted _).bind fun inherit _ _ _ => ?_
    split
    next => exact .pure fun ps hps => Option.some_inj.mp hps ▸ isSettled_fanOut rfl
    next => exact .pure fun ps hps => absurd hps (by simp)

theorem clears_quad {α : Type} {leaf : Leaf α} (h : leaf.Clears) :
    (quad leaf).Clears c fun _ => True := by
  refine (Reader.Clears.leaf h).bind fun _ _ _ _ => .ask ?_
  split
  next => exact .pure trivial
  next =>
    refine (Reader.Clears.leaf h).bind fun _ _ _ _ => .ask ?_
    split
    next => exact .pure trivial
    next =>
      refine (Reader.Clears.leaf h).bind fun _ _ _ _ => .ask ?_
      split
      next => exact .pure trivial
      next =>
        refine (Reader.Clears.leaf h).bind fun _ _ _ _ => ?_
        exact Reader.Clears.expectExhausted.bind fun _ _ _ _ => .pure trivial

theorem clears_quadShorthand {α : Type} {leaf : Leaf α} (h : leaf.Clears) (ls : List Longhand)
    (value : α → Value) :
    (quadShorthand ls leaf value).Clears c fun ps => ∀ p ∈ ps, p.IsSettled ls := by
  refine (clears_wideKeyword ls).bind fun wide _ hwide _ => ?_
  cases wide with
  | some ps => exact .pure (hwide ps rfl)
  | none =>
    exact (clears_quad h).bind fun q _ _ _ => .pure (isSettled_zipWith ls value q.toList)

/-- Properties of some longhands are properties of more. -/
theorem isSettled_mono {ls ls' : List Longhand} (h : ∀ l ∈ ls, l ∈ ls') {ps : List Property}
    (hps : ∀ p ∈ ps, p.IsSettled ls) : ∀ p ∈ ps, p.IsSettled ls' := by
  intro p hp
  obtain ⟨hvalue, l, hl, hkind⟩ := hps p hp
  exact ⟨hvalue, l, h l hl, hkind⟩

/-- One more part of a line keeps what holds of its declarations. -/
theorem clears_strokeState (source : Source) {colors widths : List Longhand} {Q : Property → Prop}
    (hcolors : ∀ value, value.isDeferred = false → ∀ p ∈ fanOut colors value, Q p)
    (hwidths : ∀ value, value.isDeferred = false → ∀ p ∈ fanOut widths value, Q p)
    (s : StrokeState) (d : Component) (hs : ∀ p ∈ s.properties, Q p) :
    Grounded StepError.isVarCall d.containsVar
      (fun s' => (∀ p ∈ s'.properties, Q p) ∧ d.containsVar = false)
      (StrokeState.step source colors widths s d) := by
  have hadd : ∀ {ps : List Property}, (∀ p ∈ ps, Q p) → ∀ p ∈ s.properties ++ ps, Q p := by
    intro ps hps p hp
    exact (List.mem_append.mp hp).elim (hs p) (hps p)
  refine (Leaf.grounded_noVar source d).ofLeaf.bind fun _ _ => ?_
  refine (clears_paint source d).attempted.ofLeaf.bind fun paint hpaint => ?_
  cases paint with
  | some p =>
    dsimp only
    split
    next => exact .following _
    next => exact ⟨hadd (hcolors _ rfl), hpaint p rfl⟩
  | none =>
    refine (clears_lineWidth source d).attempted.ofLeaf.bind fun width hwidth => ?_
    cases width with
    | some l =>
      dsimp only
      split
      next => exact .following _
      next => exact ⟨hadd (hwidths _ rfl), hwidth l rfl⟩
    | none =>
      dsimp only
      unfold StrokeState.stepStyle
      split
      next =>
        dsimp only
        split
        next => exact Grounded.error rfl
        next =>
          split
          next => exact ⟨hs, Component.containsVar_token _⟩
          next => exact (Grounded.unexpected source _).ofLeaf
      next => exact (Grounded.unexpected source _).ofLeaf

theorem clears_strokeShorthand (colors widths : List Longhand) :
    (strokeShorthand colors widths).Clears c fun ps =>
      ∀ p ∈ ps, p.IsSettled (colors ++ widths) := by
  refine (clears_wideKeyword _).bind fun wide _ hwide _ => ?_
  cases wide with
  | some ps => exact .pure (hwide ps rfl)
  | none =>
    have hcolors : ∀ value : PropertyValue, value.isDeferred = false →
        ∀ p ∈ fanOut colors value, p.IsSettled (colors ++ widths) := fun _ hvalue =>
      isSettled_mono (fun _ => List.mem_append_left widths) (isSettled_fanOut hvalue)
    have hwidths : ∀ value : PropertyValue, value.isDeferred = false →
        ∀ p ∈ fanOut widths value, p.IsSettled (colors ++ widths) := fun _ hvalue =>
      isSettled_mono (fun _ => List.mem_append_right colors) (isSettled_fanOut hvalue)
    have hstart : ∀ p ∈ StrokeState.start.properties, p.IsSettled (colors ++ widths) :=
      fun _ hp => absurd hp List.not_mem_nil
    refine .source ?_
    refine (Reader.Clears.foldAll (P := fun s : StrokeState =>
      ∀ p ∈ s.properties, p.IsSettled (colors ++ widths)) hstart
      fun s d hs => clears_strokeState _ hcolors hwidths s d hs).bind fun state _ hstate _ => ?_
    exact .pure hstate

/-- A part that may have been read already, and otherwise is read if it stands here. -/
theorem clears_optionalPart {α β : Type} {missing : Bool} {r : Reader α} {k : Option α → Reader β}
    {rest : Reader β} (hr : r.Clears c fun _ => True)
    (hsome : ∀ a c, (k (some a)).Clears c fun _ => True) (hnone : k none = rest)
    (hrest : ∀ c, rest.Clears c fun _ => True) :
    (if missing = true then Reader.attempt r >>= k else rest).Clears c fun _ => True := by
  split
  next =>
    refine hr.attempt.bind fun o c' _ _ => ?_
    cases o with
    | some a => exact hsome a c'
    | none => exact hnone ▸ hrest c'
  next => exact hrest c

theorem clears_fontPart (p : FontParts) : (fontPart p).Clears c fun _ => True := by
  unfold fontPart
  refine clears_optionalPart (clears_fontStyle false) (fun _ _ => .pure trivial) rfl fun c => ?_
  refine clears_optionalPart (.leaf clears_fontWeight) (fun _ _ => .pure trivial) rfl fun c => ?_
  refine clears_optionalPart (.leaf clears_fontWidth) (fun _ _ => .pure trivial) rfl fun c => ?_
  exact .pure trivial

theorem clears_fontParts (p : FontParts) (count : Nat) :
    (fontParts p count).Clears c fun _ => True := by
  induction count generalizing p c with
  | zero => exact .pure trivial
  | succ count ih =>
    refine (clears_fontPart p).bind fun more _ _ _ => ?_
    split
    next => exact ih _
    next => exact .pure trivial

theorem clears_fontLineHeight :
    fontLineHeight.Clears c fun value => value.isDeferred = false := by
  refine .ask ?_
  split
  next d hpeek =>
    split
    next h =>
      have hd := Component.containsVar_of_isTokenOf h
      refine (Reader.Clears.next_of_peek hpeek hd).bind fun _ _ _ _ => ?_
      refine (Reader.Clears.tryKeyword _).bind fun _ _ _ _ => ?_
      split
      next => exact .pure rfl
      next => exact (Reader.Clears.leaf clears_size).bind fun _ _ _ _ => .pure rfl
    next => exact .pure rfl
  next => exact .pure rfl

theorem isDeferred_exactOrInitial {α : Type} (value : α → Value) (o : Option α) :
    (exactOrInitial value o).isDeferred = false := by
  cases o <;> rfl

theorem clears_fontShorthand :
    fontShorthand.Clears c fun ps => ∀ p ∈ ps, p.IsSettled (Shorthand.longhands .font) := by
  refine (clears_wideKeyword _).bind fun wide _ hwide _ => ?_
  cases wide with
  | some ps => exact .pure (hwide ps rfl)
  | none =>
    refine (clears_fontParts _ 3).bind fun parts _ _ _ => ?_
    refine (Reader.Clears.leaf clears_fontSize).bind fun points _ _ _ => ?_
    refine clears_fontLineHeight.bind fun lineHeight _ hlineHeight _ => ?_
    refine clears_fontFamily.bind fun family _ _ _ => .pure fun p hp => ?_
    simp only [List.mem_cons, List.not_mem_nil, or_false] at hp
    rcases hp with rfl | rfl | rfl | rfl | rfl | rfl
    · exact ⟨isDeferred_exactOrInitial _ _, .fontStyle, by decide, rfl⟩
    · exact ⟨isDeferred_exactOrInitial _ _, .fontWeight, by decide, rfl⟩
    · exact ⟨isDeferred_exactOrInitial _ _, .fontWidth, by decide, rfl⟩
    · exact ⟨rfl, .fontSize, by decide, rfl⟩
    · exact ⟨hlineHeight, .lineHeight, by decide, rfl⟩
    · exact ⟨rfl, .fontFamily, by decide, rfl⟩

end Grammar

/-- The grammar of a shorthand sees what it takes, and declares longhands of the shorthand. -/
theorem Shorthand.clears_reader (s : Shorthand) (c : Cursor) :
    s.reader.Clears c fun ps => ∀ p ∈ ps, p.IsSettled s.longhands := by
  cases s with
  | border => exact Grammar.clears_strokeShorthand _ _
  | borderSide side => exact Grammar.clears_strokeShorthand _ _
  | outline => exact Grammar.clears_strokeShorthand _ _
  | borderColor => exact Grammar.clears_quadShorthand Grammar.clears_paint _ _
  | borderWidth => exact Grammar.clears_quadShorthand Grammar.clears_lineWidth _ _
  | borderRadius => exact Grammar.clears_quadShorthand Grammar.clears_positiveLength _ _
  | space => exact Grammar.clears_quadShorthand Grammar.clears_size _ _
  | childSpace => exact Grammar.clears_quadShorthand Grammar.clears_size _ _
  | font => exact Grammar.clears_fontShorthand

end Styling
