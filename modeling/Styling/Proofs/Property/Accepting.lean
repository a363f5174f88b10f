import Mathlib
import Styling.Proofs.Grammar.Accepting
import Styling.Proofs.Property.Verdict

/-!
# What a declaration that is read looks like

A value that is read, and not deferred, is recognized as a whole.  What is declared then is of the
sorts that the longhands take, and lies in their ranges, except for those that are loose.  Its
colors are those that were written, or mixtures of them.

* `Longhand.accepts_reader` is about the grammars of longhands.
* `PropertyKind.recognized_of_readCursor` and `PropertyKind.suits_of_readCursor` are about what a
  kind of property makes of a value.
-/

namespace Styling

/-- A grammar of a value of one component gives what the leaf gives. -/
theorem Longhand.accepts_exactLeaf {α : Type} {l : Longhand} {value : α → Value} {leaf : Leaf α}
    {c : Cursor} {P : Paint → Prop} {Q : α → Prop} (h : (Reader.leaf leaf).Accepts c Q)
    (hvalue : ∀ a, Q a → l.Suits P (value a)) :
    (Longhand.exactLeaf value leaf).Accepts c fun o => ∀ v, o = .exact v → l.Suits P v :=
  h.bind fun a _ ha _ => .pure fun _ hv => PropertyValue.exact.inj hv ▸ hvalue a ha

/-- A grammar of a value that may be the keyword `none` instead gives what it reads. -/
theorem Longhand.accepts_exactOrInitial {α : Type} {l : Longhand} {value : α → Value}
    {r : Reader (Option α)} {c : Cursor} {P : Paint → Prop} {Q : α → Prop}
    (h : r.Accepts c fun o => ∀ a, o = some a → Q a) (hvalue : ∀ a, Q a → l.Suits P (value a)) :
    (Longhand.exactOrInitial value r).Accepts c fun o => ∀ v, o = .exact v → l.Suits P v := by
  refine h.bind fun o _ ho _ => .pure fun v hv => ?_
  cases o with
  | none => exact absurd hv (by simp [Grammar.exactOrInitial])
  | some a => exact PropertyValue.exact.inj hv ▸ hvalue a (ho a rfl)

/-- The grammar of a longhand recognizes what it takes, and gives values that suit it. -/
theorem Longhand.accepts_reader (l : Longhand) {c : Cursor} {P : Paint → Prop}
    (hc : c.IsComparable) (hpaints : c.Paints P) (hhints : Paint.PassesToHints P) :
    l.reader.Accepts c fun o => ∀ v, o = .exact v → l.Suits P v := by
  have hnegative : ∀ {b : Bool}, b = false → (!b) = true := fun h => congrArg not h
  have exact : ∀ {α : Type} {r : Reader α} {value : α → Value}, r.Accepts c (fun _ => True) →
      (∀ a, l.Suits P (value a)) → (do return .exact (value (← r)) : Reader PropertyValue).Accepts c
        fun o => ∀ v, o = .exact v → l.Suits P v :=
    fun h hvalue => h.bind fun a _ _ _ => .pure fun _ hv => PropertyValue.exact.inj hv ▸ hvalue a
  cases l with
  | backgroundColor | borderColor | color | outlineColor | selectionBackground | selectionColor =>
    exact accepts_exactLeaf (Grammar.accepts_paint hpaints)
      fun _ hp => ⟨rfl, .inr rfl, Value.isPainted_paint hp⟩
  | backgroundImage =>
    exact accepts_exactOrInitial (Grammar.accepts_backgroundImage hhints hpaints)
      fun _ hgs => ⟨rfl, .inr rfl, Value.isPainted_gradients hgs⟩
  | borderRadius | borderWidth | flexBasis | outlineWidth | maximum | minimum =>
    exact accepts_exactLeaf (.leaf Grammar.accepts_positiveLength)
      fun _ h => .of_uncolored rfl rfl (.inr (hnegative h))
  | outlineOffset =>
    exact accepts_exactLeaf (.leaf Grammar.accepts_length) fun _ _ =>
      .of_uncolored rfl rfl (.inr rfl)
  | extent e =>
    cases e with
    | side =>
      exact accepts_exactLeaf (.leaf Grammar.accepts_size)
        fun _ _ => .of_uncolored rfl rfl (.inr rfl)
    | _ =>
      exact accepts_exactLeaf (.leaf Grammar.accepts_positiveSize)
        fun _ h => .of_uncolored rfl rfl (.inr (hnegative h))
  | letterSpacing | wordSpacing =>
    exact accepts_exactLeaf (.leaf Grammar.accepts_size) fun _ _ => .of_uncolored rfl rfl (.inr rfl)
  | lineHeight =>
    exact accepts_exactLeaf (.leaf Grammar.accepts_positiveSize)
      fun _ h => .of_uncolored rfl rfl (.inr (hnegative h))
  | boxShadow =>
    exact accepts_exactOrInitial (Grammar.accepts_boxShadow hpaints) fun _ h => ⟨rfl, .inr rfl, h⟩
  | textShadow =>
    exact accepts_exactOrInitial (Grammar.accepts_textShadow hpaints) fun _ h => ⟨rfl, .inr rfl, h⟩
  | display =>
    refine accepts_exactLeaf (.leaf (Grammar.accepts_keyword _)) fun d _ => ?_
    cases d <;> exact .of_uncolored rfl rfl (.inr rfl)
  | position | textAlign =>
    exact accepts_exactLeaf (.leaf (Grammar.accepts_keyword _))
      fun _ _ => .of_uncolored rfl rfl (.inr rfl)
  | fontFamily =>
    exact exact Grammar.accepts_fontFamily fun _ => .of_uncolored rfl rfl (.inr rfl)
  | fontSize =>
    exact accepts_exactLeaf (.leaf Grammar.accepts_fontSize)
      fun _ h => .of_uncolored rfl rfl (.inr h)
  | fontStyle =>
    exact exact (Grammar.accepts_fontStyle true) fun _ => .of_uncolored rfl rfl (.inr rfl)
  | fontWeight =>
    exact accepts_exactLeaf (.leaf_of_forall fun d hd _ => Grammar.accepts_fontWeight (hc d hd))
      fun _ h => .of_uncolored rfl rfl (.inr h)
  | fontWidth =>
    exact accepts_exactLeaf (.leaf Grammar.accepts_fontWidth)
      fun _ h => .of_uncolored rfl rfl (.inr h)
  | opacity =>
    exact accepts_exactLeaf (.leaf_of_forall fun d hd _ => Grammar.accepts_opacity (hc d hd))
      fun _ h => .of_uncolored rfl rfl (.inr h)
  | transform => exact exact Grammar.accepts_transform fun _ => .of_uncolored rfl rfl (.inr rfl)
  | zIndex =>
    exact accepts_exactLeaf (.leaf Grammar.accepts_integer)
      fun _ _ => .of_uncolored rfl rfl (.inr rfl)

/-- What is read or deferred is deferred, or all of it is recognized. -/
theorem Reader.exactOrDeferred_accepts {α : Type} {r : Reader α} {c c' : Cursor} {P : α → Prop}
    (h : r.Accepts c P) {deferred : String → Location → α} {a : α}
    (hrun : exactOrDeferred r deferred c = .ok a c') :
    a = deferred c.remaining c.location ∨ (P a ∧ c.Recognized) := by
  rw [exactOrDeferred, EStateM.run] at hrun
  cases hwhole : (do let a ← r; expectExhausted; return a : Reader α) c with
  | ok b d =>
    rw [hwhole] at hrun
    obtain ⟨rfl, rfl⟩ := EStateM.Result.ok.inj hrun
    exact Or.inr (h.whole _ _ hwhole).1
  | error e d =>
    rw [hwhole] at hrun
    rcases e with (⟨reason, l⟩ | ⟨reason, l⟩ | l) | f
    · exact absurd hrun (by simp)
    · exact absurd hrun (by simp)
    · exact Or.inl (EStateM.Result.ok.inj hrun).1.symm
    · exact absurd hrun (by simp)

namespace PropertyKind

variable {kind : PropertyKind} {c : Cursor} {P : Paint → Prop}

theorem read_accepts (kind : PropertyKind) (hc : c.IsComparable) (hpaints : c.Paints P)
    (hhints : Paint.PassesToHints P) {c' : Cursor} {ps : List Property}
    (hrun : kind.read c = .ok ps c') :
    ps = [.deferred kind c.remaining c.location] ∨ ((∀ p ∈ ps, p.Suits P) ∧ c.Recognized) := by
  cases kind with
  | shorthand s =>
    rw [read] at hrun
    exact Reader.exactOrDeferred_accepts (s.accepts_reader hc hpaints) hrun
  | longhand l =>
    have hone : ∀ value : PropertyValue,
        (∀ v, value = .exact v → l.Suits P v) →
          ∀ p ∈ [Property.longhand l value], p.Suits P := by
      intro value hvalue p hp
      obtain rfl := List.mem_singleton.mp hp
      exact Property.suits_longhand hvalue
    rcases read_longhand_cases l c with ⟨word, value, hkeyword, hlone, -, hread⟩ | hread
    · obtain ⟨rfl, rfl⟩ := EStateM.Result.ok.inj (hread.symm.trans hrun)
      refine Or.inr ⟨hone value fun v hv => ?_,
        (Reader.Accepts.isKeywordExhausted _ _ _ hlone).1 rfl⟩
      rcases hkeyword with rfl | rfl <;> exact absurd hv (by simp)
    rw [hread, Reader.bind_apply] at hrun
    cases hvalue : Reader.exactOrDeferred l.reader .deferred c with
    | error e d =>
      rw [hvalue] at hrun
      exact absurd hrun (by simp)
    | ok value d =>
      rw [hvalue] at hrun
      obtain ⟨rfl, rfl⟩ := EStateM.Result.ok.inj hrun
      rcases Reader.exactOrDeferred_accepts (l.accepts_reader hc hpaints hhints) hvalue
        with rfl | ⟨hsuits, hall⟩
      · exact Or.inl rfl
      · exact Or.inr ⟨hone value hsuits, hall⟩

theorem readCursor_accepts (hc : c.IsComparable) (hpaints : c.Paints P)
    (hhints : Paint.PassesToHints P) {ps : List Property} (h : kind.readCursor c = .ok ps) :
    ps = [.deferred kind c.remaining c.location] ∨ ((∀ p ∈ ps, p.Suits P) ∧ c.Recognized) := by
  obtain ⟨c', hrun⟩ := readCursor_eq_ok_iff.mp h
  exact kind.read_accepts hc hpaints hhints hrun

/-- What is declared for a longhand suits it. -/
theorem suits_of_readCursor (hc : c.IsComparable) (hpaints : c.Paints P)
    (hhints : Paint.PassesToHints P) {ps : List Property} (h : kind.readCursor c = .ok ps) :
    ∀ p ∈ ps, p.Suits P := by
  rcases readCursor_accepts hc hpaints hhints h with rfl | ⟨hps, -⟩
  · intro p hp
    obtain rfl := List.mem_singleton.mp hp
    exact Property.suits_of_not_isExact rfl
  · exact hps

/-- What is declared for a longhand is of its sort, and lies in its range unless the longhand is
loose. -/
theorem isFitting_of_readCursor (hc : c.IsComparable) {ps : List Property}
    (h : kind.readCursor c = .ok ps) : ∀ p ∈ ps, p.IsFitting :=
  fun p hp => (suits_of_readCursor hc c.paints_true (fun _ _ _ => trivial) h p hp).isFitting

/-- A value without `var()` calls that is read is recognized as a whole. -/
theorem recognized_of_readCursor (hc : c.IsComparable) (hvar : c.holdsVar = false)
    {ps : List Property} (h : kind.readCursor c = .ok ps) : c.Recognized := by
  rcases readCursor_accepts hc c.paints_true (fun _ _ _ => trivial) h with rfl | ⟨-, hall⟩
  · have hcases := kind.readCursor_cases c
    rw [h] at hcases
    rcases hcases with ⟨-, hholds⟩ | ⟨hps, -⟩
    · exact absurd (hvar.symm.trans hholds) Bool.false_ne_true
    · exact absurd (hps _ (List.mem_singleton_self _)).1 Bool.false_ne_true.symm
  · exact hall

end PropertyKind

end Styling
