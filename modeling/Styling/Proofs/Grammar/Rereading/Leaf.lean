import Mathlib
import Styling.Proofs.Number.Kept
import Styling.Proofs.Value.Rereading
import Styling.Grammar.Leaf

/-!
# Values of one word that are read back

A number, a length, a size or a keyword is written as one word, and the leaf of its grammar reads
that word as the value, up to the sign of a zero.  A number must be kept in the form it is written
in.

* `Leaf.ReadsBack` relates a leaf to a value and the text it is written as.
* `Grammar.readsBack_length`, `Grammar.readsBack_size` and their like are about the leaves.
* `Size.isKept` is about the number of a size.
-/

namespace Styling

open Written (ident number percentage dimension isWord_ident isWord_number isWord_percentage
  isWord_dimension)

/-- The value is written as a word that the leaf reads as an equal value; and this word is none that
has a meaning of its own. -/
def Leaf.ReadsBack {α : Type} [BEq α] (f : Leaf α) (css : Except Fault String) (a : α) : Prop :=
  ∃ w b, css = .ok (String.ofList w.chars) ∧ w.IsWord ∧
    (∀ k ∈ Written.reserved, w.isKeyword k = false) ∧ f.Reads w b ∧ (b == a) = true

/-- A leaf that only looks further at what another leaf gives. -/
theorem Leaf.ReadsBack.refine {α : Type} [BEq α] {f g : Leaf α}
    {css : Except Fault String} {a : α} (h : f.ReadsBack css a)
    (hg : ∀ source c b, f source c = .ok b → (b == a) = true → g source c = .ok b) :
    g.ReadsBack css a := by
  obtain ⟨w, b, hcss, hw, hwide, hreads, hb⟩ := h
  exact ⟨w, b, hcss, hw, hwide,
    fun source start hat => hg source _ b (hreads source start hat) hb, hb⟩

/-! ## Numbers -/

/-- The numeral is what stands in a style for the number. -/
structure NumeralParts.Shows (p : NumeralParts) (x : Float) : Prop where
  plain : p.IsPlain
  small : (Numeral.ofParts p).isOversized = false
  text : styleNumber x = .ok (String.ofList p.chars)
  shown : Quantity.shown x = .ok (Numeral.ofParts p).quantity

/-- What is shown is written as a numeral. -/
theorem exists_shows {x : Float} {q : Quantity} (h : Quantity.shown x = .ok q) :
    ∃ p : NumeralParts, p.Shows x ∧ (Numeral.ofParts p).quantity = q := by
  obtain ⟨t, ht, p, hplain, hchars, hquantity, hsmall⟩ := Quantity.isText_of_shown h
  refine ⟨p, ⟨hplain, hsmall, ?_, ?_⟩, hquantity⟩
  · rw [ht, hchars, String.ofList_toList]
  · exact h.trans (congrArg Except.ok hquantity.symm)

/-- A finite number is written as a numeral that is read as the number. -/
theorem exists_literal {x : Float} (h : x.isFinite = true) :
    ∃ p : NumeralParts, p.IsPlain ∧ (Numeral.ofParts p).isOversized = false ∧
      literal x = String.ofList p.chars ∧ (Numeral.ofParts p).toFloat = .ok x := by
  obtain ⟨negative, m, e, hx⟩ := Binary64.isFinite_iff.mp h
  obtain ⟨p, hplain, hchars, hquantity, hsmall⟩ := Quantity.isText_literal hx
  refine ⟨p, hplain, hsmall, by rw [literal, hchars], ?_⟩
  rw [Numeral.toFloat, Numeral.ofParts, hquantity]
  rfl

theorem exists_shows_of_keepsNumber {x : Float} (h : keepsNumber x = true) :
    ∃ (p : NumeralParts) (y : Float),
      p.Shows x ∧ (Numeral.ofParts p).toFloat = .ok y ∧ (y == x) = true := by
  obtain ⟨q, y, hq, hy, hx⟩ := exists_of_givesBack h
  obtain ⟨p, hp, rfl⟩ := exists_shows hq
  exact ⟨p, y, hp, hy, hx⟩

theorem exists_shows_of_keepsPercentage {x : Float} (h : keepsPercentage x = true) :
    ∃ (p : NumeralParts) (y : Float),
      p.Shows (x * 100.0) ∧ (Numeral.ofParts p).quantity.hundredth = .ok y ∧ (y == x) = true := by
  obtain ⟨q, y, hq, hy, hx⟩ := exists_of_givesBack h
  obtain ⟨p, hp, rfl⟩ := exists_shows hq
  exact ⟨p, y, hp, hy, hx⟩

namespace Grammar

theorem float_eq_ok {n : Numeral} {y : Float} (h : n.toFloat = .ok y) : float n = .ok y := by
  rw [float, h]
  rfl

section Numbers

variable {p : NumeralParts} {x y : Float}

/-- A value that is written as a number. -/
theorem readsBack_number {α : Type} [BEq α] {f : Leaf α} {a b : α} (hp : p.Shows x)
    (hf : ∀ span, ∀ source, f source (.token ⟨.number (.ofParts p), span⟩) = .ok b)
    (hb : (b == a) = true) : f.ReadsBack (styleNumber x) a :=
  ⟨number p, b, hp.text, isWord_number hp.plain hp.small, fun _ _ => rfl, fun _ _ _ => hf _ _, hb⟩

theorem readsBack_fontSize (hkept : keepsNumber x = true) (hsign : ¬ x < 0.0) :
    fontSize.ReadsBack (styleNumber x) x := by
  obtain ⟨p, y, hp, hy, hx⟩ := exists_shows_of_keepsNumber hkept
  refine readsBack_number hp (fun _ _ => ?_) hx
  simp only [fontSize, float_eq_ok hy]
  exact if_neg (mt (Binary64.lt_congr_left hx).mp hsign)

theorem readsBack_fontWeight (hkept : keepsNumber x = true) (hlow : ¬ x < 1.0)
    (hhigh : ¬ 1000.0 < x) : fontWeight.ReadsBack (styleNumber x) x := by
  obtain ⟨p, y, hp, hy, hx⟩ := exists_shows_of_keepsNumber hkept
  refine readsBack_number hp (fun _ _ => ?_) (Binary64.clamp_beq hx hlow hhigh)
  simp only [fontWeight, float_eq_ok hy]
  rfl

theorem readsBack_opacity (hkept : keepsNumber x = true) (hlow : ¬ x < 0.0) (hhigh : ¬ 1.0 < x) :
    opacity.ReadsBack (styleNumber x) x := by
  obtain ⟨p, y, hp, hy, hx⟩ := exists_shows_of_keepsNumber hkept
  refine readsBack_number hp (fun _ _ => ?_) (Binary64.clamp_beq hx hlow hhigh)
  simp only [opacity, float_eq_ok hy]
  rfl

theorem readsBack_integer {n : Int} (h : n.natAbs < 10 ^ Numeral.digitLimit) :
    integer.ReadsBack (.ok (toString n)) n := by
  obtain ⟨p, hplain, hchars, hquantity, hsmall⟩ := Quantity.isText_toString h
  refine ⟨number p, n, ?_, isWord_number hplain hsmall, fun _ _ => rfl, fun _ _ _ => ?_,
    beq_self_eq_true n⟩
  · rw [number, Written.chars, hchars, String.ofList_toList]
  · simp only [number, Written.component, integer, Numeral.ofParts, hquantity]

end Numbers

/-! ## Lengths and sizes -/

theorem toList_unit (u : LengthUnit) : u.text.toList = ['p', 'x'] ∨ u.text.toList = ['e', 'm'] := by
  cases u with
  | px => exact Or.inl rfl
  | em => exact Or.inr rfl

theorem isName_unit (u : LengthUnit) : Written.IsName u.text.toList := by
  rcases toList_unit u with h | h <;> rw [h] <;> decide

/-- No unit of lengths continues a number: the `e` of `em` is no mark of an exponent. -/
theorem endsNumeral_unit (u : LengthUnit) (rest : List Char) :
    EndsNumeral (u.text.toList ++ rest) := by
  rcases toList_unit u with h | h <;> rw [h]
  · exact .cons rfl (by decide) (by decide)
  · exact ⟨rfl, by simp, by simp [NumeralParts.scanExponent, NumeralParts.scanSign, isDigit]⟩

/-- A value that is written as a number with a unit. -/
theorem readsBack_dimension {α : Type} [BEq α] {f : Leaf α} {a b : α} {p : NumeralParts} {x : Float}
    (unit : String) (hp : p.Shows x) (hname : Written.IsName unit.toList)
    (hends : ∀ rest, EndsNumeral (unit.toList ++ rest))
    (hf : ∀ span source, f source (.token ⟨.dimension (.ofParts p) unit, span⟩) = .ok b)
    (hb : (b == a) = true) : f.ReadsBack (do return (← styleNumber x) ++ unit) a := by
  refine ⟨dimension p unit.toList, b, ?_, isWord_dimension _ hp.plain hp.small hname hends,
    fun _ _ => rfl, fun source start _ => ?_, hb⟩
  · rw [hp.text, dimension, Written.chars, String.ofList_append, String.ofList_toList]
    rfl
  · rw [dimension, String.ofList_toList]
    exact hf _ _

theorem ofText?_text (u : LengthUnit) :
    LengthUnit.ofText? (Text.lowercase u.text) = some u := by
  cases u <;> decide

theorem readsBack_length {l : Length} (hkept : keepsNumber l.value = true) :
    length.ReadsBack l.css l := by
  obtain ⟨p, y, hp, hy, hx⟩ := exists_shows_of_keepsNumber hkept
  refine readsBack_dimension _ (b := ⟨y, l.unit⟩) hp (isName_unit _) (endsNumeral_unit _)
      (fun span source => ?_) ?_
  · simp only [length, ofText?_text, float_eq_ok hy]
    rfl
  · exact Bool.and_eq_true_iff.mpr ⟨hx, beq_self_eq_true l.unit⟩

/-- Equal lengths have the same sign. -/
theorem isNegative_congr_length {a b : Length} (h : (a == b) = true) :
    a.isNegative = b.isNegative :=
  decide_eq_decide.mpr (Binary64.lt_congr_left (Bool.and_eq_true_iff.mp h).1)

theorem readsBack_positiveLength {l : Length} (hkept : keepsNumber l.value = true)
    (hsign : l.isNegative = false) : positiveLength.ReadsBack l.css l := by
  refine (readsBack_length hkept).refine fun source c b hb hbeq => ?_
  rw [positiveLength, hb]
  exact if_neg (by rw [isNegative_congr_length hbeq, hsign]; exact Bool.false_ne_true)

end Grammar

/-- The number of a size is kept. -/
def Size.isKept : Size → Bool
  | auto => true
  | length l => keepsNumber l.value
  | percent fraction => keepsPercentage fraction
  | stretch factor => keepsNumber factor

namespace Grammar

/-- A value that is written as a percentage. -/
theorem readsBack_percentage {α : Type} [BEq α] {f : Leaf α} {a b : α} {p : NumeralParts}
    {x : Float} (hp : p.Shows (x * 100.0))
    (hf : ∀ span source, f source (.token ⟨.percentage (.ofParts p), span⟩) = .ok b)
    (hb : (b == a) = true) : f.ReadsBack (do return (← styleNumber (x * 100.0)) ++ "%") a := by
  refine ⟨percentage p, b, ?_, isWord_percentage hp.plain hp.small, fun _ _ => rfl,
    fun _ _ _ => hf _ _, hb⟩
  rw [hp.text, percentage, Written.chars, String.ofList_append]
  rfl

/-- A value that is written as a word that spells no keyword of every property. -/
theorem readsBack_ident {α : Type} [BEq α] {f : Leaf α} {a b : α} {word : String}
    (hname : Written.IsName word.toList)
    (hwide : ∀ k ∈ Written.reserved, (Text.lowercase word == k) = false)
    (hf : ∀ span source, f source (.token ⟨.ident word, span⟩) = .ok b) (hb : (b == a) = true) :
    f.ReadsBack (.ok word) a := by
  have hword : ident word.toList = .token word.toList (.ident word) := by
    rw [ident, String.ofList_toList]
  refine ⟨ident word.toList, b, ?_, isWord_ident _ hname, ?_, fun source start _ => ?_, hb⟩
  · rw [hword, Written.chars, String.ofList_toList]
  · rw [hword]
    exact hwide
  · rw [hword]
    exact hf _ _

theorem readsBack_size {s : Size} (hkept : s.isKept = true) : size.ReadsBack s.css s := by
  cases s with
  | auto =>
    exact readsBack_ident (b := Size.auto) (by decide) (by decide) (fun _ _ => rfl) rfl
  | length l =>
    obtain ⟨p, y, hp, hy, hx⟩ := exists_shows_of_keepsNumber hkept
    refine readsBack_dimension _ (b := Size.length ⟨y, l.unit⟩) hp (isName_unit _)
      (endsNumeral_unit _) (fun span source => ?_) ?_
    · have hstretch : (Text.lowercase l.unit.text == "s") = false := by
        cases l.unit <;> decide
      simp only [size, hstretch, ofText?_text, float_eq_ok hy]
      rfl
    · exact Bool.and_eq_true_iff.mpr ⟨hx, beq_self_eq_true l.unit⟩
  | percent fraction =>
    obtain ⟨p, y, hp, hy, hx⟩ := exists_shows_of_keepsPercentage hkept
    refine readsBack_percentage (b := Size.percent y) hp (fun span source => ?_) hx
    simp only [size, hy]
    rfl
  | stretch factor =>
    obtain ⟨p, y, hp, hy, hx⟩ := exists_shows_of_keepsNumber hkept
    refine readsBack_dimension "s" (b := Size.stretch y) hp (by decide)
      (fun _ => .cons rfl (by decide) (by decide)) (fun span source => ?_) hx
    simp only [size, float_eq_ok hy]
    rfl

theorem readsBack_fontWidth {x : Float} (hkept : keepsPercentage x = true) (hsign : ¬ x < 0.0) :
    fontWidth.ReadsBack (do return (← styleNumber (x * 100.0)) ++ "%") x := by
  obtain ⟨p, y, hp, hy, hx⟩ := exists_shows_of_keepsPercentage hkept
  refine readsBack_percentage hp (fun span source => ?_) hx
  have hpositive := Quantity.isNegative_of_shown (Binary64.not_mul_hundred_lt_zero hsign) hp.shown
  simp only [fontWidth, hpositive, hy]
  rfl

/-- Equal sizes have the same sign. -/
theorem isNegative_congr_size {a b : Size} (h : (a == b) = true) :
    a.isNegative = b.isNegative := by
  have hvalue : (a.value == b.value) = true := by
    cases a <;> cases b <;> first | rfl | exact absurd h Bool.false_ne_true | exact h | skip
    exact (Bool.and_eq_true_iff.mp h).1
  exact decide_eq_decide.mpr (Binary64.lt_congr_left hvalue)

theorem readsBack_positiveSize {s : Size} (hkept : s.isKept = true) (hsign : s.isNegative = false) :
    positiveSize.ReadsBack s.css s := by
  refine (readsBack_size hkept).refine fun source c b hb hbeq => ?_
  rw [positiveSize, hb]
  exact if_neg (by rw [isNegative_congr_size hbeq, hsign]; exact Bool.false_ne_true)

/-! ## Keywords -/

/-- A keyword of a table stands for its meaning. -/
theorem readsBack_keyword {α : Type} [BEq α] {table : List (String × α)} {word : String} {a b : α}
    (hname : Written.IsName word.toList)
    (hwide : ∀ k ∈ Written.reserved, (Text.lowercase word == k) = false)
    (hlookup : table.lookup (Text.lowercase word) = some b) (hb : (b == a) = true) :
    (keyword table).ReadsBack (.ok word) a :=
  readsBack_ident hname hwide (fun _ _ => by simp only [keyword, hlookup]) hb

theorem readsBack_display (d : Option Direction) :
    display.ReadsBack (.ok (d.elim "none" Direction.keyword)) d := by
  refine readsBack_keyword (b := d) ?_ ?_ ?_ (beq_self_eq_true d)
  all_goals rcases d with _ | _ | _ <;> decide

theorem readsBack_position (p : Position) : position.ReadsBack (.ok p.keyword) p := by
  refine readsBack_keyword (b := p) ?_ ?_ ?_ (beq_self_eq_true p)
  all_goals cases p <;> decide

theorem readsBack_textAlign (a : TextAlign) : textAlign.ReadsBack (.ok a.keyword) a := by
  refine readsBack_keyword (b := a) ?_ ?_ ?_ (beq_self_eq_true a)
  all_goals cases a <;> decide

end Grammar

end Styling
