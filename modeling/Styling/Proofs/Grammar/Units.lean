import Styling.Proofs.Grammar.Agreement
import Styling.Proofs.Grammar.Rereading.Shadow
import Styling.Proofs.Value.Exchanging

/-!
# Units that are recognized and not supported

Where a length stands, a dimension in another unit of lengths is refused.  A reader that takes a
length at a fixed place says that the unit is not supported.  A loop that tries a color, then a
length, then whatever else may stand there, has stepped back from this refusal before it comes to
its last resort, and says that the component is unexpected.

* `Component.isLength` and `Component.hasOtherUnit` are the two sorts of dimensions.
* `Grammar.length_of_hasOtherUnit` and its like are about leaves that read lengths, and
  `Leaf.RefusesDimensions` about all others.
* `Grammar.exchanges_quadShorthand`, `Grammar.exchanges_fontShorthand`,
  `Grammar.exchanges_transform`, `Grammar.exchanges_shadows` and
  `Grammar.exchanges_strokeShorthand` are about what is put together from them.
-/

namespace Styling

/-- The refusal of a component that is recognized and not supported. -/
def Source.unsupportedAt (source : Source) (c : Component) : ReadError :=
  .unsupported (.notSupported (source.textOf c)) (source.locationOf c)

/-- The refusal of a component that does not fit. -/
def Source.unexpectedAt (source : Source) (c : Component) : ReadError :=
  .invalid (.unexpected (source.textOf c)) (source.locationOf c)

namespace Component

/-- A dimension in a unit of lengths. -/
def isLength : Component → Bool
  | .token ⟨.dimension _ unit, _⟩ => (LengthUnit.ofText? (Text.lowercase unit)).isSome
  | _ => false

/-- A dimension in a unit of lengths that is recognized and not supported. -/
def hasOtherUnit : Component → Bool
  | .token ⟨.dimension _ unit, _⟩ => Length.otherUnits.contains (Text.lowercase unit)
  | _ => false

variable {c : Component}

theorem exists_of_isLength (h : c.isLength = true) : ∃ n unit span u,
    c = .token ⟨.dimension n unit, span⟩ ∧ LengthUnit.ofText? (Text.lowercase unit) = some u := by
  cases c with
  | group => exact absurd h Bool.false_ne_true
  | token t =>
    obtain ⟨kind, span⟩ := t
    cases kind with
    | dimension n unit =>
      obtain ⟨u, hu⟩ := Option.isSome_iff_exists.mp h
      exact ⟨n, unit, span, u, rfl, hu⟩
    | _ => exact absurd h Bool.false_ne_true

theorem exists_of_hasOtherUnit (h : c.hasOtherUnit = true) : ∃ n unit span,
    c = .token ⟨.dimension n unit, span⟩ ∧ Text.lowercase unit ∈ Length.otherUnits := by
  cases c with
  | group => exact absurd h Bool.false_ne_true
  | token t =>
    obtain ⟨kind, span⟩ := t
    cases kind with
    | dimension n unit => exact ⟨n, unit, span, rfl, List.contains_iff_mem.mp h⟩
    | _ => exact absurd h Bool.false_ne_true

theorem isAmount_of_isLength (h : c.isLength = true) : c.isAmount = true := by
  obtain ⟨n, unit, span, u, rfl, -⟩ := exists_of_isLength h
  rfl

theorem isAmount_of_hasOtherUnit (h : c.hasOtherUnit = true) : c.isAmount = true := by
  obtain ⟨n, unit, span, rfl, -⟩ := exists_of_hasOtherUnit h
  rfl

end Component

/-- The leaf takes no dimension. -/
def Leaf.RefusesDimensions {α : Type} (f : Leaf α) : Prop :=
  ∀ source n unit span,
    ∃ e, f source (.token ⟨.dimension n unit, span⟩) = .error e ∧ e.isOrdinary = true

namespace Grammar

variable {S T : Source} {m o : Component} {stop? : Option ReadError}

/-! ## Leaves -/

/-- A unit that is not supported is no unit that a leaf takes. -/
theorem unit_of_mem_otherUnits {unit : String} (h : unit ∈ Length.otherUnits) :
    LengthUnit.ofText? unit = none ∧ angleUnits.lookup unit = none ∧ (unit == "s") = false ∧
      (unit == "px") = false ∧ (unit == "deg") = false := by
  revert unit
  decide

section

variable (ho : o.hasOtherUnit = true)

include ho

theorem length_of_hasOtherUnit : length T o = .error (T.unsupportedAt o) := by
  obtain ⟨n, unit, span, rfl, hunit⟩ := Component.exists_of_hasOtherUnit ho
  obtain ⟨hnone, -⟩ := unit_of_mem_otherUnits hunit
  simp only [length, hnone, wrongUnit, List.contains_iff_mem.mpr hunit, if_true]
  rfl

theorem positiveLength_of_hasOtherUnit : positiveLength T o = .error (T.unsupportedAt o) := by
  rw [positiveLength, length_of_hasOtherUnit ho]
  rfl

theorem lineWidth_of_hasOtherUnit : lineWidth T o = .error (T.unsupportedAt o) := by
  have hlength := positiveLength_of_hasOtherUnit (T := T) ho
  obtain ⟨n, unit, span, rfl, -⟩ := Component.exists_of_hasOtherUnit ho
  exact hlength

theorem size_of_hasOtherUnit : size T o = .error (T.unsupportedAt o) := by
  obtain ⟨n, unit, span, rfl, hunit⟩ := Component.exists_of_hasOtherUnit ho
  obtain ⟨hnone, -, hstretch, -⟩ := unit_of_mem_otherUnits hunit
  simp only [size, hstretch, hnone, wrongUnit, List.contains_iff_mem.mpr hunit, if_true]
  rfl

theorem positiveSize_of_hasOtherUnit : positiveSize T o = .error (T.unsupportedAt o) := by
  rw [positiveSize, size_of_hasOtherUnit ho]
  rfl

theorem fontSize_of_hasOtherUnit : fontSize T o = .error (T.unsupportedAt o) := by
  obtain ⟨n, unit, span, rfl, hunit⟩ := Component.exists_of_hasOtherUnit ho
  obtain ⟨-, -, -, hpx, -⟩ := unit_of_mem_otherUnits hunit
  simp only [fontSize, hpx]
  rfl

theorem distance_of_hasOtherUnit : distance T o = .error (T.unsupportedAt o) := by
  obtain ⟨n, unit, span, rfl, hunit⟩ := Component.exists_of_hasOtherUnit ho
  obtain ⟨-, -, -, hpx, -⟩ := unit_of_mem_otherUnits hunit
  simp only [distance, hpx]
  rfl

theorem angle_of_hasOtherUnit : angle T o = .error (T.unsupportedAt o) := by
  obtain ⟨n, unit, span, rfl, hunit⟩ := Component.exists_of_hasOtherUnit ho
  obtain ⟨-, hnone, -⟩ := unit_of_mem_otherUnits hunit
  simp only [angle, hnone]
  rfl

end

end Grammar

namespace Leaf

open Grammar

/-- A leaf that refuses all dimensions breaks without giving a value. -/
theorem RefusesDimensions.breaks {α : Type} {f : Leaf α} (h : f.RefusesDimensions) {S T : Source}
    {m o : Component} {stop? : Option ReadError} (hm : m.isLength = true)
    (ho : o.hasOtherUnit = true) : Breaks ReadError.isOrdinary stop? (f S m) (f T o) := by
  obtain ⟨n, unit, span, u, rfl, -⟩ := Component.exists_of_isLength hm
  obtain ⟨n', unit', span', rfl, -⟩ := Component.exists_of_hasOtherUnit ho
  obtain ⟨e, he, -⟩ := h S n unit span
  obtain ⟨e', he', hordinary⟩ := h T n' unit' span'
  rw [he, he']
  exact .errors hordinary

theorem refusesDimensions_paint : RefusesDimensions paint :=
  fun _ _ _ _ => ⟨_, rfl, rfl⟩

theorem refusesDimensions_keyword {α : Type} (table : List (String × α)) :
    RefusesDimensions (keyword table) :=
  fun _ _ _ _ => ⟨_, rfl, rfl⟩

theorem refusesDimensions_fontWeight : RefusesDimensions fontWeight :=
  fun _ _ _ _ => ⟨_, rfl, rfl⟩

theorem refusesDimensions_fontWidth : RefusesDimensions fontWidth :=
  fun _ _ _ _ => ⟨_, rfl, rfl⟩

theorem refusesDimensions_opacity : RefusesDimensions opacity :=
  fun _ _ _ _ => ⟨_, rfl, rfl⟩

theorem refusesDimensions_integer : RefusesDimensions integer :=
  fun _ _ _ _ => ⟨_, rfl, rfl⟩

theorem refusesDimensions_numberLeaf : RefusesDimensions Reader.numberLeaf :=
  fun _ _ _ _ => ⟨_, rfl, rfl⟩

theorem refusesDimensions_keywordLeaf (words : List String) :
    RefusesDimensions (Reader.keywordLeaf words) :=
  fun _ _ _ _ => ⟨_, rfl, rfl⟩

end Leaf

namespace Grammar

variable {S T : Source} {m o : Component} {stop? : Option ReadError}

theorem isOrdinary_unsupportedAt (source : Source) (c : Component) :
    (source.unsupportedAt c).isOrdinary = true := rfl

/-- A unit of lengths is no unit of angles. -/
theorem ne_deg_of_ofText? {unit : String} {u : LengthUnit}
    (h : LengthUnit.ofText? unit = some u) : (unit == "deg") = false := by
  refine beq_eq_false_iff_ne.mpr fun hdeg => ?_
  have hnone : LengthUnit.ofText? "deg" = none := by decide
  rw [hdeg, hnone] at h
  exact absurd h (by simp)

/-! ## Shorthands of four values and transforms -/

theorem exchanges_wideKeyword {α : Type} {ls : List Longhand}
    {f g : Option (List Property) → Reader α} (hm : m.isAmount = true) (ho : o.isAmount = true)
    (h : Reader.Exchanges S T m o stop? (f none) (g none)) :
    Reader.Exchanges S T m o stop? (wideKeyword ls >>= f) (wideKeyword ls >>= g) := by
  intro c d hcd
  rw [Reader.bind_apply, Reader.bind_apply,
    wideKeyword_apply fun word _ => Cursor.isKeywordExhausted_of_isAmount hm hcd.mem_left word,
    wideKeyword_apply fun word _ => Cursor.isKeywordExhausted_of_isAmount ho hcd.mem_right word]
  exact h c d hcd

theorem exchanges_quadShorthand {α : Type} {leaf : Leaf α} (hleaf : leaf.Follows)
    (ls : List Longhand) (value : α → Value) (hm : m.isAmount = true) (ho : o.isAmount = true)
    (h : Breaks ReadError.isOrdinary stop? (leaf S m) (leaf T o)) :
    Reader.Exchanges S T m o stop? (quadShorthand ls leaf value)
      (quadShorthand ls leaf value) := by
  have hnext : Reader.Exchanges S T m o stop? (Reader.leaf leaf) (Reader.leaf leaf) :=
    .leaf hleaf (Component.isVar_of_isAmount hm) (Component.isVar_of_isAmount ho) h
  have hquad : Reader.Exchanges S T m o stop? (quad leaf) (quad leaf) := by
    refine hnext.bind fun first => .isExhausted hm ho ?_
    refine hnext.bind fun second => .isExhausted hm ho ?_
    refine hnext.bind fun third => .isExhausted hm ho ?_
    refine hnext.bind fun fourth => ?_
    exact (Reader.Exchanges.expectExhausted hm ho).bind fun _ => .pure _
  exact exchanges_wideKeyword hm ho (hquad.bind fun _ => .pure _)

section Arguments

variable (hm : m.isLength = true) (ho : o.hasOtherUnit = true)

include hm ho

/-- A leaf that says which unit is not supported. -/
theorem exchanges_leaf_of_error {α : Type} {leaf : Leaf α} (hleaf : leaf.Follows)
    (h : leaf T o = .error (T.unsupportedAt o)) :
    Reader.Exchanges S T m o (some (T.unsupportedAt o)) (Reader.leaf leaf) (Reader.leaf leaf) := by
  refine .leaf hleaf (Component.isVar_of_isAmount (Component.isAmount_of_isLength hm))
    (Component.isVar_of_isAmount (Component.isAmount_of_hasOtherUnit ho)) ?_
  rw [h]
  exact .of_error (isOrdinary_unsupportedAt T o) _

/-- A leaf that refuses all dimensions. -/
theorem exchanges_leaf_of_refuses {α : Type} {leaf : Leaf α} (hleaf : leaf.Follows)
    (h : leaf.RefusesDimensions) :
    Reader.Exchanges S T m o stop? (Reader.leaf leaf) (Reader.leaf leaf) :=
  .leaf hleaf (Component.isVar_of_isAmount (Component.isAmount_of_isLength hm))
    (Component.isVar_of_isAmount (Component.isAmount_of_hasOtherUnit ho)) (h.breaks hm ho)

theorem exchanges_secondArgument {α : Type} {leaf : Leaf α}
    (h : Reader.Exchanges S T m o stop? (Reader.leaf leaf) (Reader.leaf leaf)) :
    Reader.Exchanges S T m o stop? (secondArgument leaf) (secondArgument leaf) := by
  have hm := Component.isAmount_of_isLength hm
  have ho := Component.isAmount_of_hasOtherUnit ho
  refine .isExhausted hm ho ?_
  exact (Reader.Exchanges.tryComma hm ho).bind fun _ => h.bind fun _ => .pure _

theorem exchanges_moreNumbers (n : Nat) :
    Reader.Exchanges S T m o stop? (moreNumbers n) (moreNumbers n) := by
  have hnumber : Reader.Exchanges S T m o stop? (Reader.leaf Reader.numberLeaf)
      (Reader.leaf Reader.numberLeaf) :=
    exchanges_leaf_of_refuses hm ho Leaf.follows_numberLeaf Leaf.refusesDimensions_numberLeaf
  induction n with
  | zero => exact .pure []
  | succ n ih =>
    refine (Reader.Exchanges.tryComma (Component.isAmount_of_isLength hm)
      (Component.isAmount_of_hasOtherUnit ho)).bind fun _ => ?_
    exact hnumber.bind fun x => ih.bind fun xs => .pure (x :: xs)

/-- Only distances are lengths, and angles name units that are not supported as well. -/
theorem exchanges_transformFunctions {name : String} {arguments : Reader (Affine Float)}
    (h : transformFunctions.lookup name = some arguments) :
    Reader.Exchanges S T m o (some (T.unsupportedAt o)) arguments arguments := by
  have hdistance : Reader.Exchanges S T m o (some (T.unsupportedAt o)) (Reader.leaf distance)
      (Reader.leaf distance) :=
    exchanges_leaf_of_error hm ho follows_distance (distance_of_hasOtherUnit ho)
  have hangle : Reader.Exchanges S T m o (some (T.unsupportedAt o)) (Reader.leaf angle)
      (Reader.leaf angle) :=
    exchanges_leaf_of_error hm ho follows_angle (angle_of_hasOtherUnit ho)
  have hnumber : Reader.Exchanges S T m o (some (T.unsupportedAt o))
      (Reader.leaf Reader.numberLeaf) (Reader.leaf Reader.numberLeaf) :=
    exchanges_leaf_of_refuses hm ho Leaf.follows_numberLeaf Leaf.refusesDimensions_numberLeaf
  rcases lookup_transformFunctions h with rfl | rfl | rfl | rfl | rfl
  case inl =>
    exact hdistance.bind fun _ =>
      (exchanges_secondArgument hm ho hdistance).bind fun _ => .pure _
  case inr.inl =>
    exact hangle.bind fun _ => (Reader.Exchanges.ofExcept _).bind fun _ =>
      (Reader.Exchanges.ofExcept _).bind fun _ => .pure _
  case inr.inr.inl =>
    exact hnumber.bind fun _ => (exchanges_secondArgument hm ho hnumber).bind fun _ => .pure _
  case inr.inr.inr.inl =>
    exact hangle.bind fun _ => (exchanges_secondArgument hm ho hangle).bind fun _ =>
      (Reader.Exchanges.ofExcept _).bind fun _ => (Reader.Exchanges.ofExcept _).bind fun _ =>
        .pure _
  case inr.inr.inr.inr =>
    exact hnumber.bind fun _ => (exchanges_moreNumbers hm ho 5).bind fun _ => .pure _

end Arguments

/-- Two calls that agree inside up to a length, in whose place the second call has a dimension in
another unit. -/
structure CallsAgree (S T : Source) (m o : Component) (g g' : Component) : Prop where
  isCall : ∃ name opened opened' xs ys ending ending',
    g = .group (.function name) opened xs ending ∧ g' = .group (.function name) opened' ys ending'
  isAmount : g.isAmount = true
  isAmount' : g'.isAmount = true
  inside : ∃ shared after after', (∀ x ∈ shared, x.Shared S T) ∧
    Component.withoutBlanks g.children = shared ++ m :: after ∧
    Component.withoutBlanks g'.children = shared ++ o :: after'

/-- Such a call is refused at the other unit. -/
theorem CallsAgree.breaks {g g' : Component} (h : CallsAgree S T m o g g') (hm : m.isLength = true)
    (ho : o.hasOtherUnit = true) {c d : Cursor} (hc : c.source = S) (hd : d.source = T) :
    Breaks ReadError.isOrdinary (some (T.unsupportedAt o)) (transformCall c S g)
      (transformCall d T g') := by
  have hinside : (c.nested g).AgreeUpTo S T m o (d.nested g') := ⟨hc, hd, h.inside⟩
  have hvar : Leaf.noVar S g = .ok () :=
    noVar_of_not_isVar (Component.isVar_of_isAmount h.isAmount)
  have hvar' : Leaf.noVar T g' = .ok () :=
    noVar_of_not_isVar (Component.isVar_of_isAmount h.isAmount')
  obtain ⟨name, opened, opened', xs, ys, ending, ending', rfl, rfl⟩ := h.isCall
  rw [transformCall, transformCall, hvar, hvar']
  simp only [bind, Except.bind]
  cases hlookup : transformFunctions.lookup (Text.lowercase name) with
  | none => exact .errors rfl
  | some arguments =>
    exact (exchanges_transformFunctions hm ho hlookup).inside (Component.isAmount_of_isLength hm)
      (Component.isAmount_of_hasOtherUnit ho) hinside

/-- A transform is refused where one of its calls is. -/
theorem exchanges_transform (hm : m.isAmount = true) (ho : o.isAmount = true)
    (h : ∀ c d : Cursor, c.source = S → d.source = T →
      Breaks ReadError.isOrdinary stop? (transformCall c S m) (transformCall d T o)) :
    Reader.Exchanges S T m o stop? transform transform := by
  refine .isKeywordExhausted hm ho fun c d hcd => ?_
  rw [if_neg Bool.false_ne_true, Reader.bind_apply, Reader.bind_apply, Reader.ask_apply,
    Reader.ask_apply]
  refine Reader.Exchanges.foldAll_bind (fun maps x hx => ?_) (fun maps => ?_) _ _ _ c d hcd
  · rw [id_eq, id_eq, hcd.source, hcd.source']
    refine Follows.ofLeaf ?_
    exact (follows_transformCall hcd.source hcd.source' (.shared hx)).bind fun _ _ => .refl _
  · rw [id_eq, id_eq, hcd.source, hcd.source']
    exact ((h c d hcd.source hcd.source').bind _ _).ofLeaf

/-! ## Fonts -/

section Fonts

/-- A part that may have been read already, and otherwise is read if it stands here. -/
theorem exchanges_optionalPart {α β : Type} {missing : Bool} {r : Reader α}
    {k : Option α → Reader β} {rest : Reader β} (hr : Reader.Exchanges S T m o none r r)
    (hsome : ∀ a, Reader.Exchanges S T m o stop? (k (some a)) (k (some a))) (hnone : k none = rest)
    (hrest : Reader.Exchanges S T m o stop? rest rest) :
    Reader.Exchanges S T m o stop? (if missing = true then Reader.attempt r >>= k else rest)
      (if missing = true then Reader.attempt r >>= k else rest) := by
  split
  · refine hr.attempt.bind fun a? => ?_
    cases a? with
    | some a => exact hsome a
    | none => exact hnone ▸ hrest
  · exact hrest

variable (hm : m.isLength = true) (ho : o.hasOtherUnit = true)

include hm ho

/-- No style has a length after it: a strict reader refuses it, and the other one leaves it. -/
theorem exchanges_fontStyle (strict : Bool) :
    Reader.Exchanges S T m o stop? (fontStyle strict) (fontStyle strict) := by
  have hword : Reader.Exchanges S T m o stop? (Reader.leaf fontStyleKeyword)
      (Reader.leaf fontStyleKeyword) :=
    exchanges_leaf_of_refuses hm ho (follows_keyword _) (Leaf.refusesDimensions_keyword _)
  refine hword.bind fun style => ?_
  split
  · refine .source (.peek ?_ fun c d x hcd hc hd hx rest => ?_)
    · obtain ⟨n, unit, span, u, rfl, hu⟩ := Component.exists_of_isLength hm
      obtain ⟨n', unit', span', rfl, hunit⟩ := Component.exists_of_hasOtherUnit ho
      obtain ⟨-, -, -, -, hdeg⟩ := unit_of_mem_otherUnits hunit
      simp only [ne_deg_of_ofText? hu, hdeg, Bool.false_eq_true, if_false]
      split
      · exact fun _ _ _ => .breaks (.errors rfl)
      · exact .pure style
    · have hleft : Reader.Meets S T m o stop?
          ((do Reader.ofExcept (Leaf.noNestedVar S x); return style : Reader FontStyle) c)
          ((do Reader.ofExcept (Leaf.noNestedVar T x); return style : Reader FontStyle) d) := by
        have hnone : ∀ source, Leaf.noNestedVar source x = .ok () := fun _ =>
          if_neg (Bool.eq_false_iff.mp hx.containsVar_eq_false)
        rw [hnone S, hnone T]
        exact .ok style hcd
      cases x with
      | group opener opened cs ending => exact hleft
      | token t =>
        obtain ⟨kind, span⟩ := t
        cases kind with
        | dimension n unit =>
          dsimp only
          split
          · refine (Reader.meets_next hc hd hx rest).bind fun _ => ?_
            exact (Reader.Exchanges.ofExcept (float n)).bind fun _ => .pure _
          · split
            · exact .breaks (.errors rfl)
            · exact .ok style hcd
        | _ => exact hleft
  · exact .pure style

theorem exchanges_fontParts (p : FontParts) (count : Nat) :
    Reader.Exchanges S T m o stop? (fontParts p count) (fontParts p count) := by
  have hweight : Reader.Exchanges S T m o none (Reader.leaf fontWeight) (Reader.leaf fontWeight) :=
    exchanges_leaf_of_refuses hm ho follows_fontWeight Leaf.refusesDimensions_fontWeight
  have hwidth : Reader.Exchanges S T m o none (Reader.leaf fontWidth) (Reader.leaf fontWidth) :=
    exchanges_leaf_of_refuses hm ho follows_fontWidth Leaf.refusesDimensions_fontWidth
  have hpart : ∀ p, Reader.Exchanges S T m o stop? (fontPart p) (fontPart p) := by
    intro p
    unfold fontPart
    refine exchanges_optionalPart (exchanges_fontStyle hm ho false) (fun _ => .pure _) rfl ?_
    refine exchanges_optionalPart hweight (fun _ => .pure _) rfl ?_
    exact exchanges_optionalPart hwidth (fun _ => .pure _) rfl (.pure none)
  induction count generalizing p with
  | zero => exact .pure p
  | succ count ih =>
    refine (hpart p).bind fun more => ?_
    cases more with
    | some more => exact ih more
    | none => exact .pure p

theorem exchanges_fontLineHeight :
    Reader.Exchanges S T m o (some (T.unsupportedAt o)) fontLineHeight fontLineHeight := by
  refine .peek ?_ fun c d x hcd hc hd hx rest => ?_
  · obtain ⟨n, unit, span, u, rfl, -⟩ := Component.exists_of_isLength hm
    obtain ⟨n', unit', span', rfl, -⟩ := Component.exists_of_hasOtherUnit ho
    exact .pure PropertyValue.initial
  · dsimp only
    split
    · refine (Reader.meets_next hc hd hx rest).bind fun _ c' d' hcd' => ?_
      have hword : Reader.Exchanges S T m o none (Reader.keyword ["normal"])
          (Reader.keyword ["normal"]) :=
        exchanges_leaf_of_refuses hm ho (Leaf.follows_keywordLeaf _)
          (Leaf.refusesDimensions_keywordLeaf _)
      refine (hword.attempt c' d' hcd').bind fun word c' d' hcd' => ?_
      split
      · exact .ok PropertyValue.initial hcd'
      · exact ((exchanges_leaf_of_error hm ho follows_size (size_of_hasOtherUnit ho)).bind
          fun _ => .pure _) c' d' hcd'
    · exact .ok PropertyValue.initial hcd

/-- No family is a length. -/
theorem exchanges_fontFamily : Reader.Exchanges S T m o stop? fontFamily fontFamily := by
  intro c d hcd
  obtain ⟨f, hf⟩ := exists_fontFamily_apply c
  obtain ⟨g, hg⟩ := exists_fontFamily_apply d
  rw [hf, hg, hcd.source, hcd.source']
  refine Reader.Exchanges.foldAll_bind (fun s x hx => follows_familyState s (.shared hx))
    (fun s => ?_) _ f g c d hcd
  obtain ⟨n, unit, span, u, rfl, -⟩ := Component.exists_of_isLength hm
  obtain ⟨n', unit', span', rfl, -⟩ := Component.exists_of_hasOtherUnit ho
  cases s <;> exact .errors rfl

/-- A font is refused at its size or at its line height. -/
theorem exchanges_fontShorthand :
    Reader.Exchanges S T m o (some (T.unsupportedAt o)) fontShorthand fontShorthand := by
  refine exchanges_wideKeyword (Component.isAmount_of_isLength hm)
    (Component.isAmount_of_hasOtherUnit ho) ?_
  refine (exchanges_fontParts hm ho _ 3).bind fun parts => ?_
  refine (exchanges_leaf_of_error hm ho follows_fontSize (fontSize_of_hasOtherUnit ho)).bind
    fun points => ?_
  refine (exchanges_fontLineHeight hm ho).bind fun lineHeight => ?_
  exact (exchanges_fontFamily hm ho).bind fun family => .pure _

end Fonts

/-! ## Loops over colors and lengths -/

section Mixtures

variable (ho : o.hasOtherUnit = true)

include ho

/-- The step has stepped back from the unit that is not supported. -/
theorem shadowStep_of_hasOtherUnit (allowInset : Bool) (s : ShadowState) :
    ShadowState.step T allowInset s o = .error (.here (T.unexpectedAt o)) := by
  have hlength := length_of_hasOtherUnit (T := T) ho
  obtain ⟨n, unit, span, rfl, -⟩ := Component.exists_of_hasOtherUnit ho
  rw [shadowStep_of_mark rfl rfl (by rw [hlength]; rfl)]
  cases allowInset <;> rfl

/-- The step has stepped back from the unit that is not supported. -/
theorem strokeStep_of_hasOtherUnit (colors widths : List Longhand) (s : StrokeState) :
    StrokeState.step T colors widths s o = .error (.here (T.unexpectedAt o)) := by
  have hwidth := lineWidth_of_hasOtherUnit (T := T) ho
  obtain ⟨n, unit, span, rfl, -⟩ := Component.exists_of_hasOtherUnit ho
  have hpaint : Reader.attempted (paint T (.token ⟨.dimension n unit, span⟩)) = .ok none := rfl
  rw [StrokeState.step, noVar_of_not_isVar rfl, hpaint, hwidth]
  rfl

variable (hm : m.isAmount = true)

include hm

theorem exchanges_shadowList (allowInset : Bool) :
    Reader.Exchanges S T m o (some (T.unexpectedAt o)) (shadowList allowInset)
      (shadowList allowInset) := by
  refine .isKeywordExhausted hm (Component.isAmount_of_hasOtherUnit ho) ?_
  rw [if_neg Bool.false_ne_true]
  refine .source (.foldAll_bind (fun s x hx => follows_shadowState allowInset s (.shared hx))
    (fun s => ?_) _ _ _)
  rw [shadowStep_of_hasOtherUnit ho]
  exact .of_error rfl _

theorem exchanges_strokeShorthand (colors widths : List Longhand) :
    Reader.Exchanges S T m o (some (T.unexpectedAt o)) (strokeShorthand colors widths)
      (strokeShorthand colors widths) := by
  refine exchanges_wideKeyword hm (Component.isAmount_of_hasOtherUnit ho) ?_
  refine .source (.foldAll_bind (fun s x hx => follows_strokeState colors widths s (.shared hx))
    (fun s => ?_) _ _ _)
  rw [strokeStep_of_hasOtherUnit ho]
  exact .of_error rfl _

end Mixtures

end Grammar

end Styling
