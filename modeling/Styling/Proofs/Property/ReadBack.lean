import Mathlib
import Styling.Proofs.Grammar.Rereading.Font
import Styling.Proofs.Grammar.Rereading.Gradient
import Styling.Proofs.Grammar.Rereading.Shadow
import Styling.Proofs.Grammar.Rereading.Transform
import Styling.Proofs.Property.Accepting
import Styling.Proofs.Property.EarlyRefusal
import Styling.Proofs.Property.Indirection

/-!
# Values that are read back

What is declared for a longhand can be written and declared again.  Writing loses what it rounds or
does not expect: a number of more than six places, a color with a channel outside of its range, a
number out of range.  A value that loses nothing is read back as a value that equals it; only the
sign of a zero may differ.

* `Value.isKept` computes whether writing loses nothing of a value.
* `Declaration.readsBack_of_isKept` is about a value that a longhand can be declared with, and
  `Declaration.readText_css` about a value that was read.
* `Declaration.exists_not_read_back` is a color that is written and cannot be read.
-/

namespace Styling

open Written (At IsPhrase StartsUnlike listChars)

/-! ## What is kept -/

/-- A text is read as the list of families that it is, and is no keyword of every longhand. -/
def isFamilyText (s : String) : Bool :=
  match Cursor.ofText s with
  | .ok c => c.holdsFamilies && Text.trim (c.toEnd.sliceFrom 0) == s &&
      ["initial", "inherit"].all fun word => !c.isLone word
  | .error _ => false

namespace Value

/-- Writing loses nothing of a value. -/
def isKept : Value → Bool
  | none | direction _ | position _ | textAlign _ => true
  | paint p => p.isKept
  | length l => keepsNumber l.value
  | size s => s.isKept
  | fontStyle s => s.isKept
  | fontWidth fraction => keepsPercentage fraction
  | boxShadows shadows => !shadows.isEmpty && shadows.all BoxShadow.isKept
  | textShadows shadows => !shadows.isEmpty && shadows.all TextShadow.isKept
  | transform m => m.isKept
  | gradients gs => !gs.isEmpty && gs.all LinearGradient.isKept
  | real x => keepsNumber x
  | integer n => decide (n.natAbs < 10 ^ Numeral.digitLimit)
  | text s => isFamilyText s

end Value

namespace Declaration

/-! ## Reading what was written -/

/-- A phrase that the grammar of a longhand reads is read as a declaration. -/
theorem readText_of_readsAll {l : Longhand} {ws : List Written} {value : PropertyValue}
    (hphrase : IsPhrase ws) (hstarts : StartsUnlike ["initial", "inherit"] ws)
    (h : l.reader.ReadsAll ws value) :
    readText l.name (String.ofList (listChars ws)) = .ok [.longhand l value] := by
  have hsource := hphrase.ofString_eq
  have hcursor : Cursor.ofText (String.ofList (listChars ws)) =
      .ok (.ofComponents ⟨listChars ws⟩ (Written.listComponents 0 ws) (listChars ws).length) := by
    refine Cursor.ofText_eq_ok.mpr ⟨⟨Written.listComponents 0 ws, []⟩, ?_, rfl, ?_⟩
    · rw [hsource]
      exact Written.componentsBy (hphrase.fits .nil)
    · rw [hsource]
      rfl
  have hname : PropertyKind.ofName? l.name = some (.longhand l) :=
    PropertyKind.ofName?_name (.longhand l)
  rw [readText_eq_bind hname, hcursor]
  exact PropertyKind.readCursor_of_takes (h _ 0 (Written.at_zero _))
    (hstarts.head?_words (by simp) 0) (hstarts.head?_words (by simp) 0)

/-- The value is written, and what is written is read as an equal value. -/
def ReadsBack (l : Longhand) (v : Value) : Prop :=
  ∃ t w, v.css = .ok t ∧ readText l.name t = .ok [.longhand l (.exact w)] ∧ (w == v) = true

section

variable {l : Longhand} {v : Value} {α : Type} [BEq α] {a : α}

theorem readsBack_of_reader {r : Reader α} {value : α → PropertyValue}
    (hreader : l.reader = (do return value (← r))) (h : r.ReadsBack v.css a)
    (hvalue : ∀ b, (b == a) = true → ∃ w, value b = .exact w ∧ (w == v) = true) :
    ReadsBack l v := by
  obtain ⟨ws, b, hcss, hphrase, hstarts, hreads, hb⟩ := h
  obtain ⟨w, hw, hwv⟩ := hvalue b hb
  refine ⟨_, w, hcss, readText_of_readsAll hphrase hstarts ?_, hwv⟩
  rw [hreader, ← hw]
  exact hreads.bind_pure value

theorem readsBack_of_leaf {f : Leaf α} {value : α → Value}
    (hreader : l.reader = Longhand.exactLeaf value f) (h : f.ReadsBack v.css a)
    (hvalue : ∀ b, (b == a) = true → (value b == v) = true) : ReadsBack l v := by
  obtain ⟨w, b, hcss, hw, hreserved, hreads, hb⟩ := h
  have hback : (Reader.leaf f).ReadsBack v.css a :=
    ⟨[w], b, by rw [hcss, Written.listChars_singleton], hw.phrase,
      ⟨w, [], rfl, hw.isBlank, fun k hk => hreserved k (List.mem_append_left ["in", "to"] hk)⟩,
      (Reader.Reads.leaf hw hreads).all, hb⟩
  exact readsBack_of_reader hreader hback fun b hb => ⟨value b, rfl, hvalue b hb⟩

end

section

variable {l : Longhand} {v : Value}

/-- A list that may be the keyword `none` instead. -/
theorem readsBack_of_optional {α : Type} [BEq α] {r : Reader (Option α)} {value : α → Value} {a : α}
    (hreader : l.reader = Longhand.exactOrInitial value r) (h : r.ReadsBack v.css (some a))
    (hvalue : ∀ b, (b == a) = true → (value b == v) = true) : ReadsBack l v := by
  refine readsBack_of_reader hreader h fun b hb => ?_
  cases b with
  | none => exact absurd hb Bool.false_ne_true
  | some b => exact ⟨value b, rfl, hvalue b hb⟩

/-- A list that is kept has entries, each of which is kept. -/
theorem exists_of_isKept_list {α : Type} {p : α → Bool} {as : List α}
    (h : (!as.isEmpty && as.all p) = true) : as ≠ [] ∧ ∀ a ∈ as, p a = true := by
  obtain ⟨hne, hall⟩ := Bool.and_eq_true_iff.mp h
  refine ⟨?_, List.all_eq_true.mp hall⟩
  rintro rfl
  exact Bool.false_ne_true hne

/-- A number of a closed interval lies beyond neither of its ends. -/
theorem not_lt_of_between {low high x : Float}
    (h : (Range.between low high).admits (.real x) = true) : ¬ x < low ∧ ¬ high < x := by
  obtain ⟨hlow, hhigh⟩ := Bool.and_eq_true_iff.mp h
  exact ⟨Binary64.not_lt_of_le (of_decide_eq_true hlow),
    Binary64.not_lt_of_le (of_decide_eq_true hhigh)⟩

end

/-- A list of families is read back as it stands. -/
theorem readsBack_fontFamily {s : String} (h : isFamilyText s = true) :
    ReadsBack .fontFamily (.text s) := by
  rw [isFamilyText] at h
  split at h
  next c hc =>
    simp only [Bool.and_eq_true, List.all_cons, List.all_nil, Bool.and_true, Bool.not_eq_true',
      beq_iff_eq] at h
    obtain ⟨⟨hfamilies, htext⟩, hinitial, hinherit⟩ := h
    have hindex : c.index = 0 := by
      obtain ⟨_, -, -, rfl⟩ := Cursor.ofText_eq_ok.mp hc
      rfl
    refine ⟨s, .text s, rfl, ?_, beq_self_eq_true s⟩
    have hreader := Grammar.fontFamily_of_holdsFamilies hfamilies
    rw [hindex, htext] at hreader
    have hname : PropertyKind.ofName? Longhand.fontFamily.name = some (.longhand .fontFamily) :=
      PropertyKind.ofName?_name (.longhand .fontFamily)
    rw [readText_eq_bind hname, hc]
    have hvalue : Longhand.fontFamily.reader c = .ok (.exact (.text s)) c.toEnd := by
      rw [Longhand.reader, Reader.bind_apply, hreader]
      rfl
    have hend : c.toEnd.pending = [] := by
      rw [Cursor.pending, Cursor.rest_toEnd]
      rfl
    exact PropertyKind.readCursor_of_reader hvalue hend
      (Cursor.isKeywordExhausted_of_isLone hinitial) (Cursor.isKeywordExhausted_of_isLone hinherit)
  next => exact absurd h Bool.false_ne_true

/-! ### The sorts of values that several longhands take -/

theorem readsBack_paint {l : Longhand} {p : Paint} (htakes : l.takes (.paint p) = true)
    (hkept : p.isKept = true) : ReadsBack l (.paint p) := by
  cases l with
  | backgroundColor | borderColor _ | color | outlineColor | selectionBackground
  | selectionColor => exact readsBack_of_leaf rfl (Grammar.readsBack_paint hkept) fun _ h => h
  | _ => exact absurd htakes Bool.false_ne_true

/-- Only the offset of an outline is a length that may be negative. -/
theorem readsBack_length {l : Longhand} {x : Length} (htakes : l.takes (.length x) = true)
    (hkept : keepsNumber x.value = true) (hadmits : l.admits (.length x) = true) :
    ReadsBack l (.length x) := by
  cases l with
  | borderRadius _ | borderWidth _ | flexBasis | outlineWidth | maximum _ | minimum _ =>
    have hsign : x.isNegative = false := (Bool.not_eq_true' _).mp hadmits
    exact readsBack_of_leaf rfl (Grammar.readsBack_positiveLength hkept hsign) fun _ h => h
  | outlineOffset => exact readsBack_of_leaf rfl (Grammar.readsBack_length hkept) fun _ h => h
  | _ => exact absurd htakes Bool.false_ne_true

theorem readsBack_size {l : Longhand} {x : Size} (htakes : l.takes (.size x) = true)
    (hkept : x.isKept = true) (hadmits : l.admits (.size x) = true) : ReadsBack l (.size x) := by
  cases l with
  | extent e =>
    cases e with
    | side _ => exact readsBack_of_leaf rfl (Grammar.readsBack_size hkept) fun _ h => h
    | childSide _ | childBetween | width | height =>
      have hsign : x.isNegative = false := (Bool.not_eq_true' _).mp hadmits
      exact readsBack_of_leaf rfl (Grammar.readsBack_positiveSize hkept hsign) fun _ h => h
  | letterSpacing | wordSpacing =>
    exact readsBack_of_leaf rfl (Grammar.readsBack_size hkept) fun _ h => h
  | lineHeight =>
    have hsign : x.isNegative = false := (Bool.not_eq_true' _).mp hadmits
    exact readsBack_of_leaf rfl (Grammar.readsBack_positiveSize hkept hsign) fun _ h => h
  | _ => exact absurd htakes Bool.false_ne_true

theorem readsBack_real {l : Longhand} {x : Float} (htakes : l.takes (.real x) = true)
    (hkept : keepsNumber x = true) (hadmits : l.admits (.real x) = true) :
    ReadsBack l (.real x) := by
  cases l with
  | fontSize =>
    have hsign : ¬ x < 0.0 := of_decide_eq_false ((Bool.not_eq_true' _).mp hadmits)
    exact readsBack_of_leaf rfl (Grammar.readsBack_fontSize hkept hsign) fun _ h => h
  | fontWeight =>
    obtain ⟨hlow, hhigh⟩ := not_lt_of_between hadmits
    exact readsBack_of_leaf rfl (Grammar.readsBack_fontWeight hkept hlow hhigh) fun _ h => h
  | opacity =>
    obtain ⟨hlow, hhigh⟩ := not_lt_of_between hadmits
    exact readsBack_of_leaf rfl (Grammar.readsBack_opacity hkept hlow hhigh) fun _ h => h
  | _ => exact absurd htakes Bool.false_ne_true

/-! ### The value of a display -/

theorem readsBack_display_none : ReadsBack .display .none := by
  refine readsBack_of_leaf rfl (Grammar.readsBack_display none) fun b hb => ?_
  cases b with
  | none => rfl
  | some _ => exact absurd hb Bool.false_ne_true

theorem readsBack_display_direction (d : Direction) : ReadsBack .display (.direction d) := by
  refine readsBack_of_leaf rfl (Grammar.readsBack_display (some d)) fun b hb => ?_
  cases b with
  | none => exact absurd hb Bool.false_ne_true
  | some _ => exact hb

/-- **A value that is kept and lies in the range of its longhand is read back.** -/
theorem readsBack_of_isKept {l : Longhand} {v : Value} (htakes : l.takes v = true)
    (hkept : v.isKept = true) (hadmits : l.admits v = true) : ReadsBack l v := by
  cases v with
  | paint p => exact readsBack_paint htakes hkept
  | length x => exact readsBack_length htakes hkept hadmits
  | size x => exact readsBack_size htakes hkept hadmits
  | real x => exact readsBack_real htakes hkept hadmits
  | none =>
    obtain rfl := Longhand.eq_of_takes rfl htakes
    exact readsBack_display_none
  | direction d =>
    obtain rfl := Longhand.eq_of_takes rfl htakes
    exact readsBack_display_direction d
  | position p =>
    obtain rfl := Longhand.eq_of_takes rfl htakes
    exact readsBack_of_leaf rfl (Grammar.readsBack_position p) fun _ h => h
  | textAlign a =>
    obtain rfl := Longhand.eq_of_takes rfl htakes
    exact readsBack_of_leaf rfl (Grammar.readsBack_textAlign a) fun _ h => h
  | fontStyle s =>
    obtain rfl := Longhand.eq_of_takes rfl htakes
    exact readsBack_of_reader rfl (Grammar.readsBack_fontStyle hkept) fun b hb => ⟨_, rfl, hb⟩
  | fontWidth x =>
    obtain rfl := Longhand.eq_of_takes rfl htakes
    have hsign : ¬ x < 0.0 := of_decide_eq_false ((Bool.not_eq_true' _).mp hadmits)
    exact readsBack_of_leaf rfl (Grammar.readsBack_fontWidth hkept hsign) fun _ h => h
  | boxShadows shadows =>
    obtain rfl := Longhand.eq_of_takes rfl htakes
    obtain ⟨hne, hall⟩ := exists_of_isKept_list hkept
    exact readsBack_of_optional rfl (Grammar.readsBack_boxShadow hne hall) fun _ h => h
  | textShadows shadows =>
    obtain rfl := Longhand.eq_of_takes rfl htakes
    obtain ⟨hne, hall⟩ := exists_of_isKept_list hkept
    exact readsBack_of_optional rfl (Grammar.readsBack_textShadow hne hall) fun _ h => h
  | gradients gs =>
    obtain rfl := Longhand.eq_of_takes rfl htakes
    obtain ⟨hne, hall⟩ := exists_of_isKept_list hkept
    exact readsBack_of_optional rfl (Grammar.readsBack_backgroundImage hne hall) fun _ h => h
  | transform m =>
    obtain rfl := Longhand.eq_of_takes rfl htakes
    exact readsBack_of_reader rfl (Grammar.readsBack_transform hkept) fun b hb => ⟨_, rfl, hb⟩
  | integer n =>
    obtain rfl := Longhand.eq_of_takes rfl htakes
    rw [Value.isKept, decide_eq_true_iff] at hkept
    exact readsBack_of_leaf rfl (Grammar.readsBack_integer hkept) fun _ h => h
  | text s =>
    obtain rfl := Longhand.eq_of_takes rfl htakes
    exact readsBack_fontFamily hkept

/-- A text that is read is a value of its own of some kind of property. -/
theorem exists_readCursor_of_readText {name value : String} {ps : List Property}
    (h : readText name value = .ok ps) :
    ∃ kind c, Cursor.ofText value = .ok c ∧ PropertyKind.readCursor kind c = .ok ps := by
  simp only [readText, bind, Except.bind] at h
  split at h
  next => exact absurd h (by simp)
  next c hc =>
    rw [read] at h
    split at h
    next kind _ => exact ⟨kind, c, hc, h⟩
    next => exact absurd h (by simp)

/-- **A declaration whose value is kept can be written and declared again.**  Every longhand that a
value is read for gets a text, which is read as this longhand alone with an equal value; only for
longhands that a shorthand reads without looking at the sign, the sign has to be looked at. -/
theorem readText_css {name value : String} {ps : List Property} {l : Longhand} {v : Value}
    (hread : readText name value = .ok ps) (hmem : Property.longhand l (.exact v) ∈ ps)
    (hkept : v.isKept = true) (hloose : l.isLoose = true → l.admits v = true) :
    ∃ t w, v.css = .ok t ∧ readText l.name t = .ok [.longhand l (.exact w)] ∧ (w == v) = true := by
  obtain ⟨kind, c, hc, hcursor⟩ := exists_readCursor_of_readText hread
  obtain ⟨htakes, hadmits⟩ := PropertyKind.isFitting_of_readCursor
    (Cursor.isComparable_ofText hc) hcursor _ hmem l v rfl rfl
  exact readsBack_of_isKept htakes hkept (hadmits.elim hloose id)

/-- The stop in the middle of a gradient is written where it was placed. -/
theorem readText_css_placed_stop : ∃ v t w,
    readText "background-image" "linear-gradient(to left, red, lime, blue)" =
      .ok [.longhand .backgroundImage (.exact v)] ∧
    v.css = .ok t ∧ readText "background-image" t = .ok [.longhand .backgroundImage (.exact w)] ∧
    (w == v) = true := by
  have hread : readText "background-image" "linear-gradient(to left, red, lime, blue)" =
      .ok [.longhand .backgroundImage (.exact (.gradients [⟨.side .left,
        [⟨0.0, .color ⟨1.0, 0.0, 0.0, 1.0⟩⟩, ⟨0.5, .color ⟨0.0, 1.0, 0.0, 1.0⟩⟩,
          ⟨1.0, .color ⟨0.0, 0.0, 1.0, 1.0⟩⟩], .srgb, .shorter⟩]))] := by
    decide +kernel
  obtain ⟨t, w, hback⟩ := readText_css hread List.mem_cons_self (by decide +kernel) (by decide)
  exact ⟨_, t, w, hread, hback⟩

/-- The channels of a color are not moved into their range, and in hexadecimal a channel outside of
it takes more than its two digits, or a sign: this color is written and cannot be read. -/
theorem exists_not_read_back :
    ∃ v, readText "color" "rgb(300,-5,0)" = .ok [.longhand .color (.exact v)] ∧
      v.css = .ok "#12c-500" ∧
      readText "color" "#12c-500" = .error (.invalid (.unexpected "#12c-500") .first) := by
  refine
    ⟨.color ⟨Binary64.ofRatio false 300 255, Binary64.ofRatio true 5 255, 0.0, 1.0⟩, ?_, ?_, ?_⟩
  · decide +kernel
  · decide +kernel
  · decide +kernel

end Declaration

end Styling
