import Styling.Proofs.Grammar.Units
import Styling.Proofs.Property.EarlyRefusal
import Styling.Proofs.Property.Shadows
import Styling.Proofs.Syntax.Exchanging

/-!
# Values with a unit that is not supported

A value is read, and then the unit of one of its lengths is replaced by one that is recognized and
not supported.  Most kinds of properties say so.  Shadows and lines do not: their loops step back
from the refusal and call the dimension unexpected.

* `Longhand.exchanges_reader` and `Shorthand.exchanges_reader` are about the grammars of all kinds,
  and `Grammar.notMem_pending_of_backgroundImage` about the one that never reads a length.
* `PropertyKind.otherUnitAt` is what a kind says.  `PropertyKind.UnitExchanged` relates what follows
  two cursors, and `PropertyKind.readCursor_of_hasOtherUnit` is about them.
* `Source.DiffersInUnit` relates two texts, `PropertyKind.HoldsToken` says where a length stands,
  and `PropertyKind.unitExchanged_of_differsInUnit` passes from texts to cursors.
* `Declaration.readText_of_hasOtherUnit` is the result, and
  `Declaration.exists_unexpected_of_hasOtherUnit` has the two exceptions.
-/

namespace Styling

namespace Cursor

/-- Every component but the commas is in a part. -/
theorem exists_mem_splitAtCommas {stop : Nat} {cs : List Component} {x : Component} (h : x ∈ cs)
    (hx : x.isComma = false) : ∃ part ∈ splitAtCommas stop cs, x ∈ part.1 := by
  induction cs with
  | nil => exact absurd h List.not_mem_nil
  | cons c cs ih =>
    cases hcomma : c.isComma with
    | true =>
      have hne : x ≠ c := by
        rintro rfl
        exact absurd (hx.symm.trans hcomma) Bool.false_ne_true
      obtain ⟨part, hpart, hmem⟩ := ih ((List.mem_cons.mp h).resolve_left hne)
      rw [splitAtCommas, if_pos hcomma]
      exact ⟨part, List.mem_cons_of_mem _ hpart, hmem⟩
    | false =>
      obtain ⟨p, ps, hsplit, hcons⟩ := exists_splitAtCommas_cons hcomma stop cs
      rw [hcons]
      rcases List.mem_cons.mp h with rfl | h
      · exact ⟨_, List.mem_cons_self, List.mem_cons_self⟩
      · obtain ⟨part, hpart, hmem⟩ := ih h
        rw [hsplit] at hpart
        rcases List.mem_cons.mp hpart with rfl | hpart
        · exact ⟨_, List.mem_cons_self, List.mem_cons_of_mem _ hmem⟩
        · exact ⟨part, List.mem_cons_of_mem _ hpart, hmem⟩

end Cursor

variable {S T : Source} {m o : Component}

namespace Grammar

/-- A gradient is a call. -/
theorem exists_call_of_gradientCall {c : Cursor} {g : LinearGradient}
    (h : gradientCall.inside c = .ok g) :
    ∃ opener opened cs ending, c.pending = [.group opener opened cs ending] := by
  obtain ⟨c', hrun, hend⟩ := Reader.inside_eq_ok.mp h
  obtain ⟨call, c₁, hcall, hrun⟩ := Reader.exists_of_bind hrun
  obtain ⟨x, hpeek, hx, rfl⟩ := Reader.exists_of_leaf hcall
  obtain ⟨cursor, c₂, hcursor, hrun⟩ := Reader.exists_of_bind hrun
  obtain ⟨rfl, rfl⟩ := EStateM.Result.ok.inj hcursor
  obtain ⟨-, rfl⟩ := Reader.ofExcept_eq_ok.mp hrun
  rw [Cursor.pending_of_peek hpeek, Cursor.pending_of_peek_none hend]
  cases x with
  | token t => exact nomatch hx
  | group opener opened cs ending => exact ⟨opener, opened, cs, ending, rfl⟩

/-- No gradient holds a length. -/
theorem notMem_pending_of_backgroundImage {c : Cursor} {o? : Option (List LinearGradient)}
    (h : backgroundImage.inside c = .ok o?) (hm : m.isLength = true) : m ∉ c.pending := by
  intro hmem
  have hamount := Component.isAmount_of_isLength hm
  obtain ⟨c', hrun, -⟩ := Reader.inside_eq_ok.mp h
  rw [backgroundImage, Reader.bind_apply,
    Cursor.isKeywordExhausted_of_isAmount hamount hmem] at hrun
  obtain ⟨parts, c₁, hparts, hrun⟩ := Reader.exists_of_bind hrun
  obtain ⟨rfl, rfl⟩ := EStateM.Result.ok.inj hparts
  obtain ⟨-, c₂, -, hrun⟩ := Reader.exists_of_bind hrun
  obtain ⟨gradients, c₃, hgradients, -⟩ := Reader.exists_of_bind hrun
  have hall := forall₂_of_mapM_eq_ok (Reader.ofExcept_eq_ok.mp hgradients).1
  have hcomma : m.isComma = false := Component.isTokenOf_of_isAmount hamount fun _ _ => rfl
  obtain ⟨part, hpart, hmem⟩ := Cursor.exists_mem_splitAtCommas hmem hcomma
  have hpending : part.1 ∈ c.commaParts.map Cursor.pending := by
    rw [Cursor.map_pending_commaParts]
    exact List.mem_map_of_mem hpart
  obtain ⟨d, hd, hdpending⟩ := List.mem_map.mp hpending
  obtain ⟨g, hg⟩ := exists_forall₂_iff.mp ⟨_, hall⟩ d hd
  obtain ⟨opener, opened, cs, ending, hgroup⟩ := exists_call_of_gradientCall hg
  rw [← hdpending, hgroup] at hmem
  obtain rfl := List.mem_singleton.mp hmem
  exact absurd hm Bool.false_ne_true

/-- Where an amount stands, no keyword for every longhand stands alone. -/
theorem wideValue?_of_isAmount {ds : List Component} (hm : m.isAmount = true) (hmem : m ∈ ds) :
    wideValue? ds = none := by
  have hword : ∀ word, m.isKeyword word = false := fun _ =>
    Component.isTokenOf_of_isAmount hm fun _ _ => rfl
  refine wideValue?_eq_none_iff.mpr ?_
  rintro d rfl
  obtain rfl := List.mem_singleton.mp hmem
  exact ⟨hword _, hword _⟩

theorem exchanges_shadows {α : Type} (allowInset : Bool) (f : ShadowParts → Except Reason α)
    (hm : m.isAmount = true) (ho : o.hasOtherUnit = true) :
    Reader.Exchanges S T m o (some (T.unexpectedAt o)) (shadows allowInset f)
      (shadows allowInset f) := by
  refine (exchanges_shadowList ho hm allowInset).bind fun parts => ?_
  cases parts with
  | none => exact .pure none
  | some parts =>
    have hshadows : Reader.Exchanges S T m o (some (T.unexpectedAt o)) (shadowsOf f parts)
        (shadowsOf f parts) := by
      unfold shadowsOf
      cases parts.mapM f with
      | ok all => exact .pure all
      | error reason => exact .refuse reason
    exact hshadows.bind fun all => .pure (some all)

end Grammar

namespace PropertyKind

open Grammar

/-- A kind that is read in a loop over colors, lengths and words. -/
def isMixture : PropertyKind → Bool
  | longhand .boxShadow | longhand .textShadow => true
  | shorthand .border | shorthand (.borderSide _) | shorthand .outline => true
  | _ => false

/-- What a kind says about a dimension in a unit of lengths that is not supported. -/
def otherUnitAt (kind : PropertyKind) (source : Source) (c : Component) : ReadError :=
  if kind.isMixture then source.unexpectedAt c else source.unsupportedAt c

theorem isOrdinary_otherUnitAt (kind : PropertyKind) (source : Source) (c : Component) :
    (kind.otherUnitAt source c).isOrdinary = true := by
  rw [otherUnitAt]
  split <;> rfl

end PropertyKind

section Readers

open Grammar PropertyKind

variable (hm : m.isLength = true) (ho : o.hasOtherUnit = true)

include hm ho

/-- The grammars of longhands that may hold a length. -/
theorem Longhand.exchanges_reader {l : Longhand} (hl : l ≠ .backgroundImage) :
    Reader.Exchanges S T m o (some ((longhand l).otherUnitAt T o)) l.reader l.reader := by
  have hamount := Component.isAmount_of_isLength hm
  have hamount' := Component.isAmount_of_hasOtherUnit ho
  cases l with
  | backgroundColor | borderColor | color | outlineColor | selectionBackground | selectionColor =>
    exact (exchanges_leaf_of_refuses hm ho follows_paint Leaf.refusesDimensions_paint).bind
      fun _ => .pure _
  | backgroundImage => exact absurd rfl hl
  | borderRadius | borderWidth | flexBasis | outlineWidth | maximum | minimum =>
    exact (exchanges_leaf_of_error hm ho follows_positiveLength
      (positiveLength_of_hasOtherUnit ho)).bind fun _ => .pure _
  | outlineOffset =>
    exact (exchanges_leaf_of_error hm ho follows_length (length_of_hasOtherUnit ho)).bind
      fun _ => .pure _
  | letterSpacing | wordSpacing =>
    exact (exchanges_leaf_of_error hm ho follows_size (size_of_hasOtherUnit ho)).bind
      fun _ => .pure _
  | lineHeight =>
    exact (exchanges_leaf_of_error hm ho follows_positiveSize
      (positiveSize_of_hasOtherUnit ho)).bind fun _ => .pure _
  | extent e =>
    cases e with
    | side =>
      exact (exchanges_leaf_of_error hm ho follows_size (size_of_hasOtherUnit ho)).bind
        fun _ => .pure _
    | childSide | childBetween | width | height =>
      exact (exchanges_leaf_of_error hm ho follows_positiveSize
        (positiveSize_of_hasOtherUnit ho)).bind fun _ => .pure _
  | boxShadow => exact (exchanges_shadows true boxShadowOf hamount ho).bind fun _ => .pure _
  | textShadow => exact (exchanges_shadows false textShadowOf hamount ho).bind fun _ => .pure _
  | display | position | textAlign =>
    exact (exchanges_leaf_of_refuses hm ho (follows_keyword _)
      (Leaf.refusesDimensions_keyword _)).bind fun _ => .pure _
  | fontFamily => exact (exchanges_fontFamily hm ho).bind fun _ => .pure _
  | fontSize =>
    exact (exchanges_leaf_of_error hm ho follows_fontSize (fontSize_of_hasOtherUnit ho)).bind
      fun _ => .pure _
  | fontStyle => exact (exchanges_fontStyle hm ho true).bind fun _ => .pure _
  | fontWeight =>
    exact (exchanges_leaf_of_refuses hm ho follows_fontWeight
      Leaf.refusesDimensions_fontWeight).bind fun _ => .pure _
  | fontWidth =>
    exact (exchanges_leaf_of_refuses hm ho follows_fontWidth
      Leaf.refusesDimensions_fontWidth).bind fun _ => .pure _
  | opacity =>
    exact (exchanges_leaf_of_refuses hm ho follows_opacity Leaf.refusesDimensions_opacity).bind
      fun _ => .pure _
  | transform =>
    refine (exchanges_transform hamount hamount' fun c d _ _ => ?_).bind fun _ => .pure _
    obtain ⟨n, unit, span, u, rfl, -⟩ := Component.exists_of_isLength hm
    obtain ⟨n', unit', span', rfl, -⟩ := Component.exists_of_hasOtherUnit ho
    exact .errors rfl
  | zIndex =>
    exact (exchanges_leaf_of_refuses hm ho follows_integer Leaf.refusesDimensions_integer).bind
      fun _ => .pure _

theorem Shorthand.exchanges_reader (s : Shorthand) :
    Reader.Exchanges S T m o (some ((shorthand s).otherUnitAt T o)) s.reader s.reader := by
  have hamount := Component.isAmount_of_isLength hm
  have hamount' := Component.isAmount_of_hasOtherUnit ho
  have hquad : ∀ {α : Type} {leaf : Leaf α} (value : α → Value), leaf.Follows →
      leaf T o = .error (T.unsupportedAt o) →
      Reader.Exchanges S T m o (some (T.unsupportedAt o)) (quadShorthand s.longhands leaf value)
        (quadShorthand s.longhands leaf value) := by
    intro α leaf value hfollows herror
    refine exchanges_quadShorthand hfollows _ value hamount hamount' ?_
    rw [herror]
    exact .of_error rfl _
  cases s with
  | border | borderSide | outline => exact exchanges_strokeShorthand ho hamount _ _
  | borderColor =>
    exact exchanges_quadShorthand follows_paint _ _ hamount hamount'
      (Leaf.refusesDimensions_paint.breaks hm ho)
  | borderWidth => exact hquad .length follows_lineWidth (lineWidth_of_hasOtherUnit ho)
  | borderRadius => exact hquad .length follows_positiveLength (positiveLength_of_hasOtherUnit ho)
  | space | childSpace => exact hquad .size follows_size (size_of_hasOtherUnit ho)
  | font => exact exchanges_fontShorthand hm ho

end Readers

namespace PropertyKind

open Grammar

/-- What follows two cursors agrees up to a length, in whose place the second value has a dimension
in another unit: among the components of the value or, in a transform, inside a call. -/
inductive UnitExchanged (S T : Source) (m o : Component) (c d : Cursor) : PropertyKind → Prop
  | value {kind : PropertyKind} (h : c.AgreeUpTo S T m o d) : UnitExchanged S T m o c d kind
  | argument {g g' : Component} (calls : CallsAgree S T m o g g') (h : c.AgreeUpTo S T g g' d) :
    UnitExchanged S T m o c d (longhand .transform)

/-- Where the grammar is refused, the value is. -/
theorem readCursor_of_inside {kind : PropertyKind} {d : Cursor} {e : ReadError} {x : Component}
    (he : e.isOrdinary = true) (hx : x.isAmount = true) (hmem : x ∈ d.pending)
    (h : match kind with
      | longhand l => l.reader.inside d = .error e
      | shorthand s => s.reader.inside d = .error e) :
    kind.readCursor d = .error e := by
  cases kind with
  | longhand l =>
    rw [readCursor_longhand (wideValue?_of_isAmount hx hmem), h]
    rcases e with (⟨reason, at_⟩ | ⟨reason, at_⟩ | at_) | f
    case refused.varCall => exact absurd he Bool.false_ne_true
    all_goals rfl
  | shorthand s =>
    have hinside : s.reader.inside d = .error e := h
    rw [Reader.inside, EStateM.run] at hinside
    rw [readCursor, read, EStateM.run, Reader.exactOrDeferred, EStateM.run]
    split at hinside
    next => exact absurd hinside (by simp)
    next e' d' hrun =>
      obtain rfl := Except.error.inj hinside
      rw [hrun]
      rcases e' with (⟨reason, at_⟩ | ⟨reason, at_⟩ | at_) | f
      case refused.varCall => exact absurd he Bool.false_ne_true
      all_goals rfl

/-- What a value without `var()` calls that is read is read as, by its grammar. -/
theorem exists_inside_of_readCursor {kind : PropertyKind} {c : Cursor} {ps : List Property}
    {x : Component} (hx : x.isAmount = true) (hmem : x ∈ c.pending) (hvar : c.holdsVar = false)
    (h : kind.readCursor c = .ok ps) :
    match kind with
      | longhand l => ∃ v, l.reader.inside c = .ok v
      | shorthand s => s.reader.inside c = .ok ps := by
  cases kind with
  | longhand l =>
    obtain ⟨v, hv, -⟩ :=
      (readCursor_longhand_eq_ok hvar (wideValue?_of_isAmount hx hmem)).mp h
    exact ⟨v, hv⟩
  | shorthand s => rwa [readCursor_shorthand hvar] at h

/-- **A unit that is recognized and not supported is refused where a length is read.**  It is
refused as not supported, and as unexpected where the value is read in a loop over colors, lengths
and words. -/
theorem readCursor_of_hasOtherUnit {kind : PropertyKind} {S T : Source} {m o : Component}
    {c d : Cursor} (h : UnitExchanged S T m o c d kind) (hm : m.isLength = true)
    (ho : o.hasOtherUnit = true) {ps : List Property} (hread : kind.readCursor c = .ok ps)
    (hexact : ∀ p ∈ ps, p.value.isDeferred = false) :
    kind.readCursor d = .error (kind.otherUnitAt T o) := by
  have hvar := holdsVar_of_readCursor hread hexact
  have hamount := Component.isAmount_of_isLength hm
  have hamount' := Component.isAmount_of_hasOtherUnit ho
  have hordinary := isOrdinary_otherUnitAt kind T o
  have hstop : ∀ {α : Type} {x y : Except ReadError α} {a : α},
      Breaks ReadError.isOrdinary (some (kind.otherUnitAt T o)) x y → x = .ok a →
        y = .error (kind.otherUnitAt T o) := by
    rintro α _ y a hbreaks rfl
    obtain ⟨e, he, rfl, -⟩ := hbreaks
    rw [Option.some_inj.mp he]
  cases h with
  | value hcd =>
    have hinside := exists_inside_of_readCursor hamount hcd.mem_left hvar hread
    refine readCursor_of_inside hordinary hamount' hcd.mem_right ?_
    cases kind with
    | shorthand s => exact hstop ((s.exchanges_reader hm ho).inside hamount hamount' hcd) hinside
    | longhand l =>
      obtain ⟨v, hv⟩ := hinside
      by_cases hl : l = .backgroundImage
      · subst hl
        obtain ⟨images, himages, -⟩ := Reader.inside_map_eq_ok.mp
          (show (Grammar.exactOrInitial .gradients <$> backgroundImage).inside c = .ok v by
            rw [← hv, map_eq_pure_bind]; rfl)
        exact absurd hcd.mem_left (notMem_pending_of_backgroundImage himages hm)
      · exact hstop ((Longhand.exchanges_reader hm ho hl).inside hamount hamount' hcd) hv
  | argument calls hcd =>
    obtain ⟨v, hv⟩ := exists_inside_of_readCursor calls.isAmount hcd.mem_left hvar hread
    refine readCursor_of_inside hordinary calls.isAmount' hcd.mem_right ?_
    have htransform : Reader.Exchanges S T _ _ (some (T.unsupportedAt o))
        Longhand.transform.reader Longhand.transform.reader :=
      (exchanges_transform calls.isAmount calls.isAmount' fun c d hc hd =>
        calls.breaks hm ho hc hd).bind fun _ => .pure _
    exact hstop (htransform.inside calls.isAmount calls.isAmount' hcd) hv

end PropertyKind

/-! ## Texts -/

/-- Two texts are the same up to a token each: in the first text it is a length, in the second a
dimension in a unit of lengths that is not supported. -/
structure Source.DiffersInUnit (S T : Source) (t u : Token) : Prop where
  start : u.start = t.start
  front : S.chars.take t.start = T.chars.take t.start
  length : (Component.token t).isLength = true
  other : (Component.token u).hasOtherUnit = true

namespace PropertyKind

open Grammar

/-- A token stands where lengths of a kind are read: among the components of the value or, in a
transform, inside a call. -/
inductive HoldsToken (cs : List Component) (t : Token) : PropertyKind → Prop
  | value {kind : PropertyKind} (mem : .token t ∈ cs) : HoldsToken cs t kind
  | argument {name : String} {opened : Span} {inner : List Component} {ending : Ending}
    (call : .group (.function name) opened inner ending ∈ cs) (mem : .token t ∈ inner) :
    HoldsToken cs t (longhand .transform)

theorem HoldsToken.mem_listTokens {kind : PropertyKind} {cs : List Component} {t : Token}
    (h : kind.HoldsToken cs t) : t ∈ Component.listTokens cs := by
  cases h with
  | value mem => exact (Component.tokens_infix_listTokens mem).subset (by simp [Component.tokens])
  | argument call mem =>
    refine (Component.tokens_infix_listTokens call).subset ?_
    refine (Component.isInfix_listTokens_children _).subset ?_
    exact (Component.tokens_infix_listTokens mem).subset (by simp [Component.tokens])

/-- Without `var()` calls in them, the cursors at the start of such texts agree up to the tokens. -/
theorem unitExchanged_of_differsInUnit {kind : PropertyKind} {value value' : String} {c d : Cursor}
    (hc : Cursor.ofText value = .ok c) (hd : Cursor.ofText value' = .ok d)
    (hvar : c.holdsVar = false) (hvar' : d.holdsVar = false) {t u : Token}
    (ht : kind.HoldsToken c.components t) (hu : u ∈ Component.listTokens d.components)
    (h : (Source.ofString value).DiffersInUnit (.ofString value') t u) :
    UnitExchanged (.ofString value) (.ofString value') (.token t) (.token u) c d kind := by
  obtain ⟨cs, hcs, rfl⟩ := Cursor.ofText_eq_ok_iff.mp hc
  obtain ⟨ds, hds, rfl⟩ := Cursor.ofText_eq_ok_iff.mp hd
  have hnodup : (Component.listTokens cs).Nodup :=
    Source.listTokens_of_components hcs ▸ Source.nodup_keptTokens _
  have hamount := Component.isAmount_of_isLength h.length
  have hamount' := Component.isAmount_of_hasOtherUnit h.other
  have hagree := Source.agreeUpTo_of_components hcs hds hvar ht.mem_listTokens hu h.start h.front
    (fun b => Builder.step_of_isAmount b hamount) fun b => Builder.step_of_isAmount b hamount'
  cases ht with
  | value mem =>
    obtain ⟨before, after, after', hshared, rfl, rfl⟩ := hagree.here_of_mem hnodup mem
    exact .value (.ofComponents hshared hamount hamount' _ _)
  | argument call mem =>
    obtain ⟨before, after, after', ys, ending', hshared, rfl, rfl, inner, rest, rest', hinner, rfl,
      rfl⟩ := hagree.inside_of_mem hnodup call mem
    have hg := Component.isAmount_of_mem hvar (List.mem_append_right before List.mem_cons_self)
    have hg' := Component.isAmount_of_mem hvar' (List.mem_append_right before List.mem_cons_self)
    refine .argument ⟨⟨_, _, _, _, _, _, _, rfl, rfl⟩, hg, hg', ?_⟩
      (.ofComponents hshared hg hg' _ _)
    exact Component.exists_withoutBlanks hinner hamount hamount' _ _

end PropertyKind

namespace Declaration

open PropertyKind

/-- **A unit that is recognized and not supported is refused where a length is read.**  Take the
value of a declaration that is read at once, a length in it, and another value that is the same up
to this length, in whose place it has a dimension in a unit of lengths that is not supported.  The
other value is refused at this dimension, as not supported; only shadows and lines, which are read
in a loop over colors, lengths and words, refuse it as unexpected. -/
theorem readText_of_hasOtherUnit {name value value' : String} {kind : PropertyKind}
    (hname : PropertyKind.ofName? name = some kind) {c d : Cursor}
    (hc : Cursor.ofText value = .ok c) (hd : Cursor.ofText value' = .ok d)
    (hvar : d.holdsVar = false) {t u : Token} (ht : kind.HoldsToken c.components t)
    (hu : u ∈ Component.listTokens d.components)
    (h : (Source.ofString value).DiffersInUnit (.ofString value') t u) {ps : List Property}
    (hread : readText name value = .ok ps) (hexact : ∀ p ∈ ps, p.value.isDeferred = false) :
    readText name value' = .error (kind.otherUnitAt (.ofString value') (.token u)) := by
  rw [readText_eq_bind hname, hc] at hread
  rw [readText_eq_bind hname, hd]
  have hnone := holdsVar_of_readCursor hread hexact
  exact readCursor_of_hasOtherUnit (unitExchanged_of_differsInUnit hc hd hnone hvar ht hu h)
    h.length h.other hread hexact

/-- A value that is read at once. -/
theorem exists_exact {x : Except ReadError (List Property)}
    (h : x.map (·.all fun p => !p.value.isDeferred) = .ok true) :
    ∃ ps, x = .ok ps ∧ ∀ p ∈ ps, p.value.isDeferred = false := by
  cases x with
  | error e => exact absurd h (by simp [Except.map])
  | ok ps =>
    refine ⟨ps, rfl, fun p hp => ?_⟩
    simpa using List.all_eq_true.mp (Except.ok.inj h) p hp

/-- The second of two widths. -/
theorem readText_of_hasOtherUnit_width :
    (∃ ps, readText "border-width" "1px 2px" = .ok ps) ∧
      readText "border-width" "1px 2REM" =
        .error (.unsupported (.notSupported "2REM") ⟨1, 5⟩) := by
  let t : Token := ⟨.dimension ⟨"2", .integer 2⟩ "px", ⟨4, 7⟩⟩
  let u : Token := ⟨.dimension ⟨"2", .integer 2⟩ "REM", ⟨4, 8⟩⟩
  let front : List Component := [.token ⟨.dimension ⟨"1", .integer 1⟩ "px", ⟨0, 3⟩⟩,
    .token ⟨.whitespace " ", ⟨3, 4⟩⟩]
  have hname : PropertyKind.ofName? "border-width" = some (shorthand .borderWidth) := by
    rw [PropertyKind.ofName?, show Text.lowercase "border-width" = "border-width" by cbv]
    decide
  have hc : Cursor.ofText "1px 2px" =
      .ok (.ofComponents (.ofString "1px 2px") (front ++ [.token t]) 7) := by
    cbv
  have hd : Cursor.ofText "1px 2REM" =
      .ok (.ofComponents (.ofString "1px 2REM") (front ++ [.token u]) 8) := by
    cbv
  obtain ⟨ps, hread, hexact⟩ : ∃ ps, readText "border-width" "1px 2px" = .ok ps ∧
      ∀ p ∈ ps, p.value.isDeferred = false := by
    refine exists_exact ?_
    rw [readText_eq_bind hname, hc]
    decide +kernel
  have hu : u ∈ Component.listTokens (front ++ [.token u]) := by
    simp [Component.listTokens, Component.tokens]
  have hdiffers : (Source.ofString "1px 2px").DiffersInUnit (.ofString "1px 2REM") t u :=
    ⟨rfl, by decide +kernel, by decide +kernel, by decide +kernel⟩
  have hrefused := readText_of_hasOtherUnit hname hc hd (by decide +kernel)
    (.value (List.mem_append_right front List.mem_cons_self)) hu hdiffers hread hexact
  exact ⟨⟨ps, hread⟩, hrefused.trans (by decide +kernel)⟩

/-- A shadow of a box and a line refuse as unexpected what is recognized and not supported. -/
theorem exists_unexpected_of_hasOtherUnit :
    (∃ ps, readText "box-shadow" "1px 2px" = .ok ps ∧ (∀ p ∈ ps, p.value.isDeferred = false) ∧
        readText "box-shadow" "1rem 2px" = .error (.invalid (.unexpected "1rem") .first)) ∧
      ∃ ps, readText "border" "1px solid" = .ok ps ∧ (∀ p ∈ ps, p.value.isDeferred = false) ∧
        readText "border" "1rem solid" = .error (.invalid (.unexpected "1rem") .first) := by
  have hshadow : PropertyKind.ofName? "box-shadow" = some (longhand .boxShadow) := by
    rw [PropertyKind.ofName?, show Text.lowercase "box-shadow" = "box-shadow" by cbv]
    decide
  have hborder : PropertyKind.ofName? "border" = some (shorthand .border) := by
    rw [PropertyKind.ofName?, show Text.lowercase "border" = "border" by cbv]
    decide
  obtain ⟨shadow, hshadows, hexact⟩ : ∃ ps, readText "box-shadow" "1px 2px" = .ok ps ∧
      ∀ p ∈ ps, p.value.isDeferred = false := by
    refine exists_exact ?_
    rw [readText_eq_bind hshadow]
    decide +kernel
  obtain ⟨line, hlines, hexact'⟩ : ∃ ps, readText "border" "1px solid" = .ok ps ∧
      ∀ p ∈ ps, p.value.isDeferred = false := by
    refine exists_exact ?_
    rw [readText_eq_bind hborder]
    decide +kernel
  refine ⟨⟨shadow, hshadows, hexact, ?_⟩, line, hlines, hexact', ?_⟩
  · rw [readText_eq_bind hshadow]
    cbv
  · rw [readText_eq_bind hborder]
    cbv

end Declaration

end Styling
