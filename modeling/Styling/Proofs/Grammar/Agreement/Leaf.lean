import Styling.Proofs.Grammar.Clearing
import Styling.Proofs.Value.Agreement

/-!
# Leaves and fonts read alike up to a `var()` call

The leaves have the property of `Styling.Proofs.Value.Agreement`: they read paired components alike.
They read tokens and refuse groups, except for `paint`, which looks into groups before.  A list of
font families is a loop, and a font style looks at what comes after its keyword.

* `Grammar.follows_length` and its like are about leaves.
* `Grammar.agrees_fontFamily` is about the families of a value with a `var()` call, which are never
  read to the end, and `Grammar.follows_fontStyle` about the style.
-/

namespace Styling

namespace Grammar

/-! ## Leaves -/

theorem follows_wrongUnit {α : Type} (unit : String) (S T : Source) (c d : Component) :
    Follows ReadError.isOrdinary (wrongUnit unit S c : Except ReadError α)
      (wrongUnit unit T d) := by
  unfold wrongUnit
  split
  · exact .errors rfl
  · exact .errors rfl

theorem follows_length : Leaf.Follows length := by
  refine .of_tokens (fun S T kind span => ?_) fun _ _ _ _ _ => ⟨_, rfl, rfl⟩
  cases kind with
  | dimension n unit =>
    simp only [length]
    split
    · exact .refl _
    · exact follows_wrongUnit ..
  | number n =>
    simp only [length]
    split
    · exact .refl _
    · exact .errors rfl
  | _ => exact .errors rfl

theorem follows_positiveLength : Leaf.Follows positiveLength := by
  intro S T c d h
  refine (follows_length S T c d h).bind fun l _ => ?_
  split
  · exact .errors rfl
  · exact .refl _

theorem follows_size : Leaf.Follows size := by
  refine .of_tokens (fun S T kind span => ?_) fun _ _ _ _ _ => ⟨_, rfl, rfl⟩
  cases kind with
  | number n => exact .refl _
  | percentage n => exact .refl _
  | dimension n unit =>
    simp only [size]
    split
    · exact .refl _
    · split
      · exact .refl _
      · exact follows_wrongUnit ..
  | ident name =>
    simp only [size]
    split
    · exact .refl _
    · exact .errors rfl
  | _ => exact .errors rfl

theorem follows_positiveSize : Leaf.Follows positiveSize := by
  intro S T c d h
  refine (follows_size S T c d h).bind fun s _ => ?_
  split
  · exact .errors rfl
  · exact .refl _

theorem follows_angle : Leaf.Follows angle := by
  refine .of_tokens (fun S T kind span => ?_) fun _ _ _ _ _ => ⟨_, rfl, rfl⟩
  cases kind with
  | number n =>
    simp only [angle]
    split
    · exact .refl _
    · exact .errors rfl
  | dimension n unit =>
    simp only [angle]
    split
    · exact .refl _
    · exact .errors rfl
  | _ => exact .errors rfl

/-- A color is read anew from its text, which is the same if it holds no `var()` call. -/
theorem follows_paint : Leaf.Follows paint := by
  intro S T c d h
  rcases h.containsVar with ⟨hc, -⟩ | ⟨rfl, hshared⟩
  · rw [paint, Leaf.noNestedVar, if_pos hc, Leaf.varCall]
    exact .of_not_isOrdinary rfl _
  · rw [paint, paint, hshared.textOf_eq]
    refine (Leaf.follows_noNestedVar S T c c h).bind fun _ _ => ?_
    split
    · refine Follows.bind (.refl _) fun o _ => ?_
      cases o with
      | some p => exact .refl _
      | none => exact .errors rfl
    · exact .errors rfl

theorem follows_integer : Leaf.Follows integer := by
  refine .of_tokens (fun S T kind span => ?_) fun _ _ _ _ _ => ⟨_, rfl, rfl⟩
  cases kind with
  | number n =>
    obtain ⟨raw, quantity⟩ := n
    cases quantity with
    | integer n => exact .refl _
    | decimal x => exact .errors rfl
  | _ => exact .errors rfl

theorem follows_opacity : Leaf.Follows opacity := by
  refine .of_tokens (fun S T kind span => ?_) fun _ _ _ _ _ => ⟨_, rfl, rfl⟩
  cases kind with
  | percentage n => exact .refl _
  | number n => exact .refl _
  | _ => exact .errors rfl

theorem follows_keyword {α : Type} (table : List (String × α)) :
    Leaf.Follows (keyword table) := by
  refine .of_tokens (fun S T kind span => ?_) fun _ _ _ _ _ => ⟨_, rfl, rfl⟩
  cases kind with
  | ident name =>
    simp only [keyword]
    split
    · exact .refl _
    · exact .errors rfl
  | _ => exact .errors rfl

theorem follows_fontSize : Leaf.Follows fontSize := by
  have hcheck : ∀ (S T : Source) (c : Component) (x : Except ReadError Float),
      Follows ReadError.isOrdinary
        (x >>= fun value => if value < 0.0 then Leaf.refuse .negativeFontSize S c else pure value)
        (x >>= fun value =>
          if value < 0.0 then Leaf.refuse .negativeFontSize T c else pure value) := by
    intro S T c x
    refine Follows.bind (.refl x) fun value _ => ?_
    split
    · exact .errors rfl
    · exact .refl _
  refine .of_tokens (fun S T kind span => ?_) fun _ _ _ _ _ => ⟨_, rfl, rfl⟩
  cases kind with
  | number n => exact hcheck S T _ (float n)
  | dimension n unit =>
    simp only [fontSize]
    split
    · exact hcheck S T _ (float n)
    · exact .errors rfl
  | _ => exact .errors rfl

theorem follows_fontWeight : Leaf.Follows fontWeight := by
  refine .of_tokens (fun S T kind span => ?_) fun _ _ _ _ _ => ⟨_, rfl, rfl⟩
  cases kind with
  | ident name =>
    simp only [fontWeight]
    split
    · exact .refl _
    · split
      · exact .refl _
      · split
        · exact .errors rfl
        · exact .errors rfl
  | number n => exact .refl _
  | _ => exact .errors rfl

theorem follows_fontWidth : Leaf.Follows fontWidth := by
  refine .of_tokens (fun S T kind span => ?_) fun _ _ _ _ _ => ⟨_, rfl, rfl⟩
  cases kind with
  | percentage n =>
    simp only [fontWidth]
    split
    · exact .errors rfl
    · exact .refl _
  | ident name =>
    simp only [fontWidth, keyword]
    split
    · exact .refl _
    · exact .errors rfl
  | _ => exact .errors rfl

theorem follows_lineWidth : Leaf.Follows lineWidth := by
  intro S T c d h
  have hlength := follows_positiveLength S T c d h
  have hkeyword := follows_keyword lineWidths S T c d h
  rcases h.token_or_groups with ⟨t, rfl, rfl⟩ | ⟨opener, opened, opened', xs, ys, ending, ending',
    rfl, rfl⟩
  · obtain ⟨kind, span⟩ := t
    cases kind with
    | ident name => exact hkeyword.bind fun _ _ => .refl _
    | _ => exact hlength
  · exact hlength

theorem follows_distance : Leaf.Follows distance := by
  refine .of_tokens (fun S T kind span => ?_) fun _ _ _ _ _ => ⟨_, rfl, rfl⟩
  cases kind with
  | number n =>
    simp only [distance]
    split
    · exact .refl _
    · exact .errors rfl
  | dimension n unit =>
    simp only [distance]
    split
    · exact .refl _
    · exact .errors rfl
  | percentage n => exact .errors rfl
  | _ => exact .errors rfl

theorem follows_colorSpace : Leaf.Follows colorSpace := by
  refine .of_tokens (fun S T kind span => ?_) fun _ _ _ _ _ => ⟨_, rfl, rfl⟩
  cases kind with
  | ident name =>
    simp only [colorSpace]
    split
    · exact .errors rfl
    · split
      · exact .refl _
      · exact .errors rfl
  | _ => exact .errors rfl

/-! ## Fonts -/

variable {S T : Source}

/-- A component that is a `var()` call stops a step that looks for it first. -/
theorem noVar_of_isVar {source : Source} {x : Component} (h : x.isVar = true) :
    Leaf.noVar source x = .error (.varCall (source.locationOf x)) := by
  rw [Leaf.noVar, if_pos h, Leaf.varCall]

theorem noVar_of_not_isVar {source : Source} {x : Component} (h : x.isVar = false) :
    Leaf.noVar source x = .ok () := by
  rw [Leaf.noVar, if_neg (Bool.eq_false_iff.mp h)]

/-- A step of a loop starts with a look for `var()` calls. -/
theorem follows_noVar {x y : Component} (h : x.Paired S T y) :
    Follows ReadError.isOrdinary (Leaf.noVar S x) (Leaf.noVar T y) := by
  rw [noVar_of_not_isVar h.isVar_eq_false.1, noVar_of_not_isVar h.isVar_eq_false.2]
  exact .refl _

/-- What such a step does with a `var()` call. -/
theorem exists_noVar_bind {σ : Type} {source : Source} {x : Component} (h : x.isVar = true)
    (f : Unit → Except StepError σ) :
    ∃ e, (StepError.ofLeaf (Leaf.noVar source x) >>= f) = .error e ∧ e.isOrdinary = false := by
  rw [noVar_of_isVar h]
  exact ⟨_, rfl, rfl⟩

theorem follows_familyState (s : FamilyState) {x y : Component} (h : x.Paired S T y) :
    Follows StepError.isOrdinary (FamilyState.step S s x) (FamilyState.step T s y) := by
  refine (follows_noVar h).ofLeaf.bind fun _ _ => ?_
  rcases h.token_or_groups with ⟨t, rfl, rfl⟩ | ⟨opener, opened, opened', xs, ys, ending, ending',
    rfl, rfl⟩
  · obtain ⟨kind, span⟩ := t
    cases kind <;> cases s <;> first | exact .refl _ | exact .errors rfl
  · cases s <;> exact .errors rfl

theorem follows_families :
    Reader.Follows S T False (Reader.foldAll (FamilyState.step S) .start)
      (Reader.foldAll (FamilyState.step T) .start) := by
  refine .foldAll (fun s x hx => ?_) (fun s x y h => follows_familyState s h)
    (fun s x s' hrun => ?_) _
  · exact exists_noVar_bind hx _
  · have hclears := clears_familyState S s x
    rw [hrun] at hclears
    exact hclears.2

/-- The families are read by a loop, and then looked at. -/
theorem exists_fontFamily_apply (c : Cursor) : ∃ finish : FamilyState → Reader String,
    fontFamily c = (Reader.foldAll (FamilyState.step c.source) .start >>= finish) c :=
  ⟨_, rfl⟩

/-- The families of a value with a `var()` call are never read to the end. -/
theorem agrees_fontFamily {c d : Cursor} (h : c.AgreeToVar S T d) (hvar : c.holdsVar = true) :
    Reader.Agrees S T False (fontFamily c) (fontFamily d) := by
  obtain ⟨f, hf⟩ := exists_fontFamily_apply c
  obtain ⟨g, hg⟩ := exists_fontFamily_apply d
  rw [hf, hg, h.source, h.source']
  refine (follows_families.tracks c d h).andThen fun state c' d' hrun _ => ?_
  have hclears : (Reader.foldAll (FamilyState.step S) .start).Clears c fun _ => True :=
    Reader.Clears.foldAll trivial fun s x _ => clears_familyState S s x
  -- The loop ends where nothing follows, but the call that the value holds was not taken.
  have hnone := Cursor.holdsVar_of_peek_none (Reader.peek_of_foldAll hrun)
  rw [hclears.holdsVar_eq hrun, hvar] at hnone
  exact absurd hnone (by decide)

theorem waits_fontFamily {c : Cursor} (hc : c.AtVar S) :
    Reader.Waits S False (fontFamily c) := by
  obtain ⟨f, hf⟩ := exists_fontFamily_apply c
  rw [hf, hc.source]
  exact ((follows_families (S := S) (T := S)).waits c hc).bind f

/-- After `oblique` an angle may follow. -/
theorem follows_fontStyle (strict : Bool) :
    Reader.Follows S T True (fontStyle strict) (fontStyle strict) := by
  have hother : ∀ {style : FontStyle} {c d : Cursor} {x y : Component}, c.AgreeToVar S T d →
      x.Paired S T y → Reader.Agrees S T True
        ((do Reader.ofExcept (Leaf.noNestedVar S x); return style : Reader FontStyle) c)
        ((do Reader.ofExcept (Leaf.noNestedVar T y); return style : Reader FontStyle) d) := by
    intro style c d x y hcd h
    have hlook : Reader.Tracks S T False (Reader.ofExcept (Leaf.noNestedVar S x))
        (Reader.ofExcept (Leaf.noNestedVar T y)) :=
      .ofExcept (Leaf.follows_noNestedVar S T x y h)
    exact (hlook c d hcd).andThen fun _ c' d' _ => Reader.Tracks.pure style c' d'
  refine (Reader.Follows.leaf (follows_keyword _) (clears_keyword _)).bind fun style => ?_
  split
  · refine .source (.peek (fun c x hc hpeek hx => ?_) (.pure style)
      fun c d x y hcd hc hd h rest => ?_)
    · cases x with
      | token t => exact absurd hx Bool.false_ne_true
      | group opener opened xs ending =>
        exact Reader.waits_noNestedVar (Component.containsVar_of_isVar hx) _ _
    · cases h with
      | inside name holds children => exact hother hcd (.inside name holds children)
      | shared h =>
        cases x with
        | group opener opened cs ending => exact hother hcd (.shared h)
        | token t =>
          obtain ⟨kind, span⟩ := t
          cases kind with
          | dimension n unit =>
            dsimp only
            split
            · have hnext : Reader.Agrees S T False (Reader.next c) (Reader.next d) :=
                Reader.agrees_next hc hd h (rest (Component.containsVar_token _))
              refine hnext.andThen fun _ c' d' _ hcd' => ?_
              exact ((Reader.Follows.ofFault n.toFloat).bind fun _ => .pure _).tracks c' d' hcd'
            · split
              · exact Reader.Tracks.ofExcept (.errors rfl) c d hcd
              · exact .ok style hcd
          | _ => exact hother hcd (.shared h)
  · exact .pure style

end Grammar

end Styling
