import Styling.Proofs.Grammar.Agreement.Gradient
import Styling.Property.Reading

/-!
# Every grammar reads alike up to a `var()` call

Two values that agree up to a `var()` call are read alike up to the call by every grammar, and the
call is waited for.  The grammars of several components follow from the ways they are put together.
A keyword that is taken only if it stands alone is the exception: it must not stand alone in the
second value.

* `Grammar.follows_transformCall` is about nested calls.
* `Grammar.agrees_fontShorthand` is about the longest of the shorthands.
* `Longhand.agrees_reader` and `Shorthand.agrees_reader` collect the grammars.
-/

namespace Styling

namespace Grammar

variable {S T : Source}

/-! ## Transforms -/

theorem follows_secondArgument {α : Type} {leaf : Leaf α} (h : leaf.Follows)
    (hclears : leaf.Clears) :
    Reader.Follows S T False (secondArgument leaf) (secondArgument leaf) := by
  refine .isExhausted (.pure none) ?_
  refine Reader.Follows.tryComma.bind fun _ => ?_
  exact (Reader.Follows.leaf h hclears).bindTracks fun a => .pure (some a)

theorem follows_moreNumbers (n : Nat) :
    Reader.Follows S T True (moreNumbers n) (moreNumbers n) := by
  induction n with
  | zero => exact .pure []
  | succ n ih =>
    refine Reader.Follows.tryComma.bind fun _ => ?_
    refine (Reader.Follows.leaf Leaf.follows_numberLeaf Leaf.clears_numberLeaf).bind fun x => ?_
    exact ih.bind fun xs => .pure (x :: xs)

theorem follows_translate : Reader.Follows S T True translate translate := by
  refine (Reader.Follows.leaf follows_distance clears_distance).bind fun x => ?_
  exact (follows_secondArgument follows_distance clears_distance).bind fun _ => .pure _

theorem follows_rotate : Reader.Follows S T True rotate rotate := by
  refine (Reader.Follows.leaf follows_angle clears_angle).bind fun _ => ?_
  exact (Reader.Follows.ofFault _).bind fun _ => (Reader.Follows.ofFault _).bind fun _ => .pure _

theorem follows_scale : Reader.Follows S T True scale scale := by
  refine (Reader.Follows.leaf Leaf.follows_numberLeaf Leaf.clears_numberLeaf).bind fun x => ?_
  exact (follows_secondArgument Leaf.follows_numberLeaf Leaf.clears_numberLeaf).bind
    fun _ => .pure _

theorem follows_skew : Reader.Follows S T True skew skew := by
  refine (Reader.Follows.leaf follows_angle clears_angle).bind fun x => ?_
  refine (follows_secondArgument follows_angle clears_angle).bind fun _ => ?_
  exact (Reader.Follows.ofFault _).bind fun _ => (Reader.Follows.ofFault _).bind fun _ => .pure _

theorem follows_matrix : Reader.Follows S T True matrix matrix := by
  refine (Reader.Follows.leaf Leaf.follows_numberLeaf Leaf.clears_numberLeaf).bind fun _ => ?_
  exact (follows_moreNumbers 5).bind fun _ => .pure _

theorem follows_transformFunctions {name : String} {arguments : Reader (Affine Float)}
    (h : transformFunctions.lookup name = some arguments) :
    Reader.Follows S T True arguments arguments := by
  rcases lookup_transformFunctions h with rfl | rfl | rfl | rfl | rfl
  · exact follows_translate
  · exact follows_rotate
  · exact follows_scale
  · exact follows_skew
  · exact follows_matrix

/-- A call is read alike as the inside is. -/
theorem follows_transformCall {cursor cursor' : Cursor} (hsource : cursor.source = S)
    (hsource' : cursor'.source = T) {x y : Component} (h : x.Paired S T y) :
    Follows ReadError.isOrdinary (transformCall cursor S x) (transformCall cursor' T y) := by
  have hchildren := h.children_agree
  refine (follows_noVar h).bind fun _ _ => ?_
  rcases h.token_or_groups with ⟨t, rfl, rfl⟩ | ⟨opener, opened, opened', xs, ys, ending, ending',
    rfl, rfl⟩
  · exact .errors rfl
  · cases opener with
    | bracket b => exact .errors rfl
    | function name =>
      dsimp only
      cases hlookup : transformFunctions.lookup (Text.lowercase name) with
      | none => exact .errors rfl
      | some arguments =>
        have hfollows := follows_transformFunctions (S := S) (T := T) hlookup
        exact Reader.follows_inside (hfollows.tracks _ _ ⟨hsource, hsource', hchildren⟩)

theorem agrees_transform {c d : Cursor} (h : c.AgreeToVar S T d)
    (hvar : c.holdsVar = true) (hd : Reader.isKeywordExhausted "none" d = .ok false d) :
    Reader.Agrees S T False (transform c) (transform d) := by
  have hfold : Reader.Follows S T False
      (Reader.foldAll (fun ms x =>
        StepError.ofLeaf (do return (← transformCall c c.source x) :: ms)) [])
      (Reader.foldAll (fun ms y =>
        StepError.ofLeaf (do return (← transformCall d d.source y) :: ms)) []) := by
    rw [h.source, h.source']
    refine .foldAll (fun maps x hx => ?_) (fun maps x y hpair => ?_) (fun maps x s' hrun => ?_) []
    · simp only [transformCall, noVar_of_isVar hx]
      exact ⟨_, rfl, rfl⟩
    · refine Follows.ofLeaf ?_
      exact (follows_transformCall h.source h.source' hpair).bind fun _ _ => .refl _
    · have hclears := clears_transformCall c S x
      cases hcall : transformCall c S x with
      | ok m =>
        rw [hcall] at hclears
        exact hclears
      | error e =>
        rw [hcall] at hrun
        exact absurd hrun (by simp [bind, Except.bind, StepError.ofLeaf])
  refine Reader.agrees_unlessLone hvar hd ?_
  exact (hfold.tracks c d h).andThen fun maps c' d' _ => Reader.Tracks.pure _ c' d'

/-! ## Shadows -/

theorem follows_stepMark (allowInset : Bool) (s : ShadowState) {x y : Component}
    (h : x.Paired S T y) :
    Follows StepError.isOrdinary (ShadowState.stepMark S allowInset s x)
      (ShadowState.stepMark T allowInset s y) := by
  have hcomma : x.isComma = y.isComma := h.isTokenOf_eq _
  have hinset : x.isKeyword "inset" = y.isKeyword "inset" := h.isTokenOf_eq _
  unfold ShadowState.stepMark
  rw [← hcomma, ← hinset]
  split
  · exact .refl _
  · split
    · exact .refl _
    · exact .errors rfl

theorem follows_shadowState (allowInset : Bool) (s : ShadowState) {x y : Component}
    (h : x.Paired S T y) :
    Follows StepError.isOrdinary (ShadowState.step S allowInset s x)
      (ShadowState.step T allowInset s y) := by
  refine (follows_noVar h).ofLeaf.bind fun _ _ => ?_
  refine (follows_paint S T x y h).attempted.ofLeaf.bind fun paint _ => ?_
  cases paint with
  | some p => exact .refl _
  | none =>
    refine (follows_length S T x y h).attempted.ofLeaf.bind fun length _ => ?_
    cases length with
    | some l => exact .refl _
    | none => exact follows_stepMark allowInset s h

theorem follows_shadows (allowInset : Bool) :
    Reader.Follows S T False (Reader.foldAll (ShadowState.step S allowInset) .start)
      (Reader.foldAll (ShadowState.step T allowInset) .start) := by
  refine .foldAll (fun s x hx => ?_) (fun s x y h => follows_shadowState allowInset s h)
    (fun s x s' hrun => ?_) _
  · exact exists_noVar_bind hx _
  · have hclears := clears_shadowState S allowInset s x
    rw [hrun] at hclears
    exact hclears.2

theorem agrees_shadowList {allowInset : Bool} {c d : Cursor} (h : c.AgreeToVar S T d)
    (hvar : c.holdsVar = true) (hd : Reader.isKeywordExhausted "none" d = .ok false d) :
    Reader.Agrees S T False (shadowList allowInset c) (shadowList allowInset d) := by
  refine Reader.agrees_unlessLone hvar hd ?_
  refine Reader.Tracks.source (fun c d hcd => ?_) c d h
  refine ((follows_shadows allowInset).tracks c d hcd).andThen fun state c' d' _ hcd' => ?_
  cases state.current.finish with
  | ok _ => exact .ok _ hcd'
  | error reason => exact Reader.Tracks.refuse reason c' d' hcd'

theorem tracks_shadowsOf {α : Type} (f : ShadowParts → Except Reason α)
    (parts : List ShadowParts) {may : Prop} :
    Reader.Tracks S T may (shadowsOf f parts) (shadowsOf f parts) := by
  unfold shadowsOf
  cases parts.mapM f with
  | ok shadows => exact .pure shadows
  | error reason => exact .refuse reason

theorem agrees_boxShadow {c d : Cursor} (h : c.AgreeToVar S T d)
    (hvar : c.holdsVar = true) (hd : Reader.isKeywordExhausted "none" d = .ok false d) :
    Reader.Agrees S T False (boxShadow c) (boxShadow d) := by
  refine (agrees_shadowList h hvar hd).andThen fun parts c' d' _ hcd' => ?_
  cases parts with
  | none => exact .ok none hcd'
  | some parts =>
    exact (tracks_shadowsOf boxShadowOf parts c' d' hcd').andThen
      fun shadows c' d' _ => Reader.Tracks.pure _ c' d'

theorem agrees_textShadow {c d : Cursor} (h : c.AgreeToVar S T d)
    (hvar : c.holdsVar = true) (hd : Reader.isKeywordExhausted "none" d = .ok false d) :
    Reader.Agrees S T False (textShadow c) (textShadow d) := by
  refine (agrees_shadowList h hvar hd).andThen fun parts c' d' _ hcd' => ?_
  cases parts with
  | none => exact .ok none hcd'
  | some parts =>
    exact (tracks_shadowsOf textShadowOf parts c' d' hcd').andThen
      fun shadows c' d' _ => Reader.Tracks.pure _ c' d'

/-! ## Shorthands -/

theorem wideKeyword_apply {c : Cursor}
    (hc : ∀ word ∈ ["initial", "inherit"], Reader.isKeywordExhausted word c = .ok false c)
    (ls : List Longhand) : wideKeyword ls c = .ok none c := by
  have hinitial := hc "initial" (by decide)
  have hinherit := hc "inherit" (by decide)
  simp [wideKeyword, Reader.bind_apply, hinitial, hinherit]

theorem wideKeyword_of_holdsVar {c : Cursor} (h : c.holdsVar = true) (ls : List Longhand) :
    wideKeyword ls c = .ok none c :=
  wideKeyword_apply (fun word _ => Reader.isKeywordExhausted_of_holdsVar h word) ls

theorem follows_quad {α : Type} {leaf : Leaf α} (h : leaf.Follows) (hclears : leaf.Clears) :
    Reader.Follows S T False (quad leaf) (quad leaf) := by
  refine (Reader.Follows.leaf h hclears).bind fun first => ?_
  refine .isExhausted (.pure _) ?_
  refine (Reader.Follows.leaf h hclears).bind fun second => ?_
  refine .isExhausted (.pure _) ?_
  refine (Reader.Follows.leaf h hclears).bind fun third => ?_
  refine .isExhausted (.pure _) ?_
  refine (Reader.Follows.leaf h hclears).bind fun fourth => ?_
  exact Reader.Follows.expectExhausted.bindTracks fun _ => .pure _

theorem agrees_quadShorthand {α : Type} {leaf : Leaf α} (hleaf : leaf.Follows)
    (hclears : leaf.Clears) (ls : List Longhand) (value : α → Value) {c d : Cursor}
    (h : c.AgreeToVar S T d) (hvar : c.holdsVar = true)
    (hd : ∀ word ∈ ["initial", "inherit"], Reader.isKeywordExhausted word d = .ok false d) :
    Reader.Agrees S T False (quadShorthand ls leaf value c) (quadShorthand ls leaf value d) := by
  rw [quadShorthand, Reader.bind_apply, Reader.bind_apply, wideKeyword_of_holdsVar hvar,
    wideKeyword_apply hd]
  exact ((follows_quad hleaf hclears).tracks c d h).andThen
    fun q c' d' _ => Reader.Tracks.pure _ c' d'

theorem follows_stepStyle (s : StrokeState) {x y : Component} (h : x.Paired S T y) :
    Follows StepError.isOrdinary (s.stepStyle S x) (s.stepStyle T y) := by
  rcases h.token_or_groups with ⟨t, rfl, rfl⟩ | ⟨opener, opened, opened', xs, ys, ending, ending',
    rfl, rfl⟩
  · obtain ⟨kind, span⟩ := t
    cases kind with
    | ident name =>
      simp only [StrokeState.stepStyle]
      split
      · exact .errors rfl
      · split
        · exact .refl _
        · exact .errors rfl
    | _ => exact .errors rfl
  · exact .errors rfl

theorem follows_strokeState (colors widths : List Longhand) (s : StrokeState) {x y : Component}
    (h : x.Paired S T y) :
    Follows StepError.isOrdinary (StrokeState.step S colors widths s x)
      (StrokeState.step T colors widths s y) := by
  refine (follows_noVar h).ofLeaf.bind fun _ _ => ?_
  refine (follows_paint S T x y h).attempted.ofLeaf.bind fun paint _ => ?_
  cases paint with
  | some p => exact .refl _
  | none =>
    refine (follows_lineWidth S T x y h).attempted.ofLeaf.bind fun width _ => ?_
    cases width with
    | some l => exact .refl _
    | none => exact follows_stepStyle s h

theorem follows_stroke (colors widths : List Longhand) :
    Reader.Follows S T False (stroke colors widths) (stroke colors widths) := by
  refine .source ?_
  have hfold : Reader.Follows S T False
      (Reader.foldAll (StrokeState.step S colors widths) .start)
      (Reader.foldAll (StrokeState.step T colors widths) .start) := by
    refine .foldAll (fun s x hx => ?_) (fun s x y h => follows_strokeState colors widths s h)
      (fun s x s' hrun => ?_) _
    · exact exists_noVar_bind hx _
    · have hclears := @clears_strokeState S colors widths (fun _ => True)
        (fun _ _ _ _ => trivial) (fun _ _ _ _ => trivial) s x fun _ _ => trivial
      rw [hrun] at hclears
      exact hclears.2
  exact hfold.bindTracks fun state => .pure _

theorem agrees_strokeShorthand (colors widths : List Longhand) {c d : Cursor}
    (h : c.AgreeToVar S T d) (hvar : c.holdsVar = true)
    (hd : ∀ word ∈ ["initial", "inherit"], Reader.isKeywordExhausted word d = .ok false d) :
    Reader.Agrees S T False (strokeShorthand colors widths c)
      (strokeShorthand colors widths d) := by
  rw [strokeShorthand, Reader.bind_apply, Reader.bind_apply, wideKeyword_of_holdsVar hvar,
    wideKeyword_apply hd]
  exact (follows_stroke colors widths).tracks c d h

/-- A part that may have been read already, and otherwise is read if it stands here. -/
theorem follows_optionalPart {α β : Type} {missing : Bool} {r : Reader α}
    {k : Option α → Reader β} {rest : Reader β} (hr : Reader.Follows S T True r r)
    (hsome : ∀ a, Reader.Follows S T True (k (some a)) (k (some a))) (hnone : k none = rest)
    (hrest : Reader.Follows S T True rest rest) :
    Reader.Follows S T True (if missing = true then Reader.attempt r >>= k else rest)
      (if missing = true then Reader.attempt r >>= k else rest) := by
  split
  · refine hr.attempt.bind fun o => ?_
    cases o with
    | some a => exact hsome a
    | none => exact hnone ▸ hrest
  · exact hrest

theorem follows_fontPart (p : FontParts) :
    Reader.Follows S T True (fontPart p) (fontPart p) := by
  have hweight : Reader.Follows S T False (Reader.leaf fontWeight) (Reader.leaf fontWeight) :=
    .leaf follows_fontWeight clears_fontWeight
  have hwidth : Reader.Follows S T False (Reader.leaf fontWidth) (Reader.leaf fontWidth) :=
    .leaf follows_fontWidth clears_fontWidth
  unfold fontPart
  refine follows_optionalPart (follows_fontStyle false) (fun _ => .pure _) rfl ?_
  refine follows_optionalPart hweight.weaken (fun _ => .pure _) rfl ?_
  refine follows_optionalPart hwidth.weaken (fun _ => .pure _) rfl ?_
  exact .pure none

theorem follows_fontParts (p : FontParts) (count : Nat) :
    Reader.Follows S T True (fontParts p count) (fontParts p count) := by
  induction count generalizing p with
  | zero => exact .pure p
  | succ count ih =>
    refine (follows_fontPart p).bind fun more => ?_
    cases more with
    | some more => exact ih more
    | none => exact .pure p

theorem follows_fontLineHeight : Reader.Follows S T True fontLineHeight fontLineHeight := by
  refine .peek (fun c x hc hpeek hx => ?_) (.pure _) fun c d x y hcd hc hd h rest => ?_
  · cases x with
    | token t => exact absurd hx Bool.false_ne_true
    | group opener opened xs ending => exact ⟨trivial, hc⟩
  · have hslash := h.isTokenOf_eq (·.isDelim "/")
    dsimp only
    rw [← hslash]
    split
    next hx =>
      have hnone := Component.containsVar_of_isTokenOf hx
      rcases h.containsVar with ⟨hholds, -⟩ | ⟨rfl, hshared⟩
      · exact absurd (hholds.symm.trans hnone) (by decide)
      have hnext : Reader.Agrees S T False (Reader.next c) (Reader.next d) :=
        Reader.agrees_next hc hd hshared (rest hnone)
      refine hnext.andThen fun _ c' d' _ hcd' => ?_
      refine ((Reader.Follows.tryKeyword _).tracks c' d' hcd').andThen fun word c' d' _ hcd' => ?_
      split
      · exact .ok _ hcd'
      · exact ((Reader.Follows.leaf follows_size clears_size).tracks c' d' hcd').andThen
          fun _ c' d' _ => Reader.Tracks.pure _ c' d'
    next => exact .ok _ hcd

/-- The families come last, and so they are not read to the end. -/
theorem agrees_fontShorthand {c d : Cursor} (h : c.AgreeToVar S T d) (hvar : c.holdsVar = true)
    (hd : ∀ word ∈ ["initial", "inherit"], Reader.isKeywordExhausted word d = .ok false d) :
    Reader.Agrees S T False (fontShorthand c) (fontShorthand d) := by
  have hsize : Reader.Follows S T False (Reader.leaf fontSize) (Reader.leaf fontSize) :=
    .leaf follows_fontSize clears_fontSize
  rw [fontShorthand, Reader.bind_apply, Reader.bind_apply, wideKeyword_of_holdsVar hvar,
    wideKeyword_apply hd]
  refine ((follows_fontParts _ 3).tracks c d h).bind (fun _ _ c hc => (hsize.waits c hc).bind _)
    fun parts c' d' hrun h => ?_
  have hvar := ((clears_fontParts _ 3).holdsVar_eq hrun).trans hvar
  refine (hsize.tracks c' d' h).andThen fun points c' d' hrun h => ?_
  have hvar := ((Reader.Clears.leaf clears_fontSize).holdsVar_eq hrun).trans hvar
  refine (follows_fontLineHeight.tracks c' d' h).bind (fun _ _ c hc => (waits_fontFamily hc).bind _)
    fun lineHeight c' d' hrun h => ?_
  have hvar := (clears_fontLineHeight.holdsVar_eq hrun).trans hvar
  exact (agrees_fontFamily h hvar).andThen fun family c' d' _ => Reader.Tracks.pure _ c' d'

end Grammar

variable {S T : Source}

namespace Longhand

/-- The keyword `none`, standing alone, is a value of the longhand. -/
def takesNone : Longhand → Bool
  | backgroundImage | boxShadow | textShadow | transform => true
  | _ => false

theorem agrees_exactOrInitial {α : Type} (value : α → Value) {r : Reader (Option α)} {c d : Cursor}
    (h : Reader.Agrees S T False (r c) (r d)) :
    Reader.Agrees S T True (exactOrInitial value r c) (exactOrInitial value r d) :=
  h.andThen fun _ c' d' _ => Reader.Tracks.pure _ c' d'

theorem agrees_exactLeaf {α : Type} (value : α → Value) {leaf : Leaf α} (hleaf : leaf.Follows)
    (hclears : leaf.Clears) {c d : Cursor} (h : c.AgreeToVar S T d) :
    Reader.Agrees S T True (exactLeaf value leaf c) (exactLeaf value leaf d) :=
  ((Reader.Follows.leaf hleaf hclears).tracks c d h).andThen
    fun _ c' d' _ => Reader.Tracks.pure _ c' d'

open Grammar in
/-- The grammars of longhands read two values alike that agree up to a `var()` call. -/
theorem agrees_reader (l : Longhand) {c d : Cursor} (h : c.AgreeToVar S T d)
    (hvar : c.holdsVar = true)
    (hd : l.takesNone = true → Reader.isKeywordExhausted "none" d = .ok false d)
    (hside : l = backgroundImage → NoSideAwaited (c.rest.find? Component.containsVar)) :
    Reader.Agrees S T True (l.reader c) (l.reader d) := by
  cases l with
  | backgroundColor | borderColor | color | outlineColor | selectionBackground | selectionColor =>
    exact agrees_exactLeaf _ follows_paint clears_paint h
  | backgroundImage =>
    exact agrees_exactOrInitial _ (agrees_backgroundImage h hvar (hd rfl) (hside rfl))
  | borderRadius | borderWidth | flexBasis | outlineWidth | maximum | minimum =>
    exact agrees_exactLeaf _ follows_positiveLength clears_positiveLength h
  | outlineOffset => exact agrees_exactLeaf _ follows_length clears_length h
  | letterSpacing | wordSpacing => exact agrees_exactLeaf _ follows_size clears_size h
  | lineHeight => exact agrees_exactLeaf _ follows_positiveSize clears_positiveSize h
  | extent e =>
    cases e with
    | side => exact agrees_exactLeaf _ follows_size clears_size h
    | childSide | childBetween | width | height =>
      exact agrees_exactLeaf _ follows_positiveSize clears_positiveSize h
  | boxShadow => exact agrees_exactOrInitial _ (agrees_boxShadow h hvar (hd rfl))
  | textShadow => exact agrees_exactOrInitial _ (agrees_textShadow h hvar (hd rfl))
  | display | position | textAlign =>
    exact agrees_exactLeaf _ (follows_keyword _) (clears_keyword _) h
  | fontFamily =>
    exact (agrees_fontFamily h hvar).andThen fun _ c' d' _ => Reader.Tracks.pure _ c' d'
  | fontSize => exact agrees_exactLeaf _ follows_fontSize clears_fontSize h
  | fontStyle =>
    exact ((follows_fontStyle true).bind fun _ => .pure _).tracks c d h
  | fontWeight => exact agrees_exactLeaf _ follows_fontWeight clears_fontWeight h
  | fontWidth => exact agrees_exactLeaf _ follows_fontWidth clears_fontWidth h
  | opacity => exact agrees_exactLeaf _ follows_opacity clears_opacity h
  | transform =>
    exact (agrees_transform h hvar (hd rfl)).andThen fun _ c' d' _ => Reader.Tracks.pure _ c' d'
  | zIndex => exact agrees_exactLeaf _ follows_integer clears_integer h

end Longhand

/-- The grammars of shorthands read two values alike that agree up to a `var()` call. -/
theorem Shorthand.agrees_reader (s : Shorthand) {c d : Cursor} (h : c.AgreeToVar S T d)
    (hvar : c.holdsVar = true)
    (hd : ∀ word ∈ ["initial", "inherit"], Reader.isKeywordExhausted word d = .ok false d) :
    Reader.Agrees S T False (s.reader c) (s.reader d) := by
  cases s with
  | border => exact Grammar.agrees_strokeShorthand _ _ h hvar hd
  | borderSide side => exact Grammar.agrees_strokeShorthand _ _ h hvar hd
  | outline => exact Grammar.agrees_strokeShorthand _ _ h hvar hd
  | borderColor =>
    exact Grammar.agrees_quadShorthand Grammar.follows_paint Grammar.clears_paint _ _ h hvar hd
  | borderWidth =>
    exact Grammar.agrees_quadShorthand Grammar.follows_lineWidth Grammar.clears_lineWidth
      _ _ h hvar hd
  | borderRadius =>
    exact Grammar.agrees_quadShorthand Grammar.follows_positiveLength Grammar.clears_positiveLength
      _ _ h hvar hd
  | space =>
    exact Grammar.agrees_quadShorthand Grammar.follows_size Grammar.clears_size _ _ h hvar hd
  | childSpace =>
    exact Grammar.agrees_quadShorthand Grammar.follows_size Grammar.clears_size _ _ h hvar hd
  | font => exact Grammar.agrees_fontShorthand h hvar hd

end Styling
