import Mathlib
import Styling.Number.Numeral

/-!
# Numbers that are not negative

A binary64 number lies below zero if its sign says so and it is neither zero nor no number at all.
The sign of a number is a bit of its encoding, which rounding and packing keep, so a number read
without a minus sign does not lie below zero, and neither does its hundredth part.

* `Binary64.lt_zero_iff` says when a number lies below zero.
* `Binary64.not_ofRatio_lt_zero` and `Binary64.not_div_hundred_lt_zero` are about the two ways in
  which a percentage becomes a number.
* `Quantity.not_hundredth_lt_zero` puts them together, and `not_clamp_lt` and `not_lt_clamp` are
  about numbers moved into an interval.
-/

namespace Styling

open Float.Model (UnpackedFloat Format)
open Float.Model.UnpackedFloat (Sign unpackSign packComponents)

namespace Binary64

/-- The number lies below zero. -/
def liesBelow : UnpackedFloat → Bool
  | .infinity .negative | .finite .negative _ _ _ => true
  | _ => false

theorem unpack_zero : (0.0 : Float).toModel.unpack = .zero .positive := rfl

theorem exists_unpack_hundred :
    ∃ m e hm, (100.0 : Float).toModel.unpack = .finite .positive m e hm :=
  ⟨_, _, by decide, rfl⟩

/-- Comparison with zero looks at the sign. -/
theorem lt_zero_iff (x : Float) : x < 0.0 ↔ liesBelow x.toModel.unpack = true := by
  rw [show (x < 0.0) = (decide (x.toModel < (0.0 : Float).toModel) = true) from rfl,
    decide_eq_true_iff,
    show (x.toModel < (0.0 : Float).toModel) =
      (x.toModel.unpack.lt (0.0 : Float).toModel.unpack = true) from rfl, unpack_zero]
  cases x.toModel.unpack with
  | infinity s => cases s <;> decide
  | notANumber => decide
  | zero s => cases s <;> decide
  | finite s m e hm => cases s <;> simp [UnpackedFloat.lt, UnpackedFloat.compare, liesBelow]

/-! ## Encodings -/

theorem unpackSign_packComponents {spec : Format} {sign : Sign}
    {exponent : BitVec spec.exponentBits} {mantissa : BitVec spec.mantissaBitsWithoutImplicit} :
    unpackSign (packComponents spec sign exponent mantissa) = sign.toBitVec := by
  ext i hi
  obtain rfl : i = 0 := by omega
  simp [unpackSign, packComponents, BitVec.getLsbD_append, BitVec.getElem_append,
    BitVec.getLsbD_eq_getElem]

/-- An encoding without a sign is no number below zero. -/
theorem liesBelow_unpack {spec : Format} {b : BitVec spec.numBits} (h : unpackSign b = 0#1) :
    liesBelow (UnpackedFloat.unpack spec b) = false := by
  simp only [UnpackedFloat.unpack, h, Sign.ofBitVec, if_true]
  split
  · split <;> simp [liesBelow]
  · split
    · split <;> simp [liesBelow]
    · simp [liesBelow]

/-- Packing keeps the sign, unless it turns the number into a zero. -/
theorem liesBelow_pack {u : UnpackedFloat} (h : liesBelow u = false) :
    liesBelow (UnpackedFloat.unpack .binary64 (UnpackedFloat.pack .binary64 u)) = false := by
  cases u with
  | infinity s =>
    cases s with
    | negative => exact absurd h (by decide)
    | positive => exact liesBelow_unpack unpackSign_packComponents
  | notANumber => exact liesBelow_unpack unpackSign_packComponents
  | zero s => cases s <;> decide
  | finite s m e hm =>
    cases s with
    | negative => exact absurd h (by simp [liesBelow])
    | positive =>
      refine liesBelow_unpack ?_
      unfold UnpackedFloat.pack
      dsimp only
      split
      · exact unpackSign_packComponents
      · split <;> exact unpackSign_packComponents

theorem liesBelow_roundWithAccuracy {spec : Format} {m : Nat} {e : Int}
    {accuracy : UnpackedFloat.Accuracy} :
    liesBelow (UnpackedFloat.roundWithAccuracy spec .positive m e accuracy) = false := by
  unfold UnpackedFloat.roundWithAccuracy
  dsimp only
  split <;> rfl

/-! ## Numbers that are read -/

/-- The encoding of a magnitude leaves the place of the sign free. -/
theorem not_ofSignedBits_lt_zero {bits : Nat} (h : bits < 2 ^ 63) :
    ¬ ofSignedBits false bits < 0.0 := by
  rw [lt_zero_iff, Bool.not_eq_true]
  refine liesBelow_pack (liesBelow_unpack ?_)
  have hbit : (UInt64.ofNat bits).toBitVec.getLsbD 63 = false := by
    rw [show (UInt64.ofNat bits).toBitVec = BitVec.ofNat 64 bits from rfl, BitVec.getLsbD_ofNat,
      Nat.testBit_lt_two_pow h, Bool.and_false]
  ext i hi
  obtain rfl : i = 0 := by omega
  simp only [unpackSign, Bool.false_eq_true, if_false, Nat.add_zero, BitVec.cast_eq,
    BitVec.getElem_extract, BitVec.getElem_zero]
  exact hbit

theorem nearestBits_le_infinityBits (num den : Nat) : nearestBits num den ≤ infinityBits := by
  unfold nearestBits
  split
  · exact Nat.zero_le _
  · exact Nat.min_le_right _ _

theorem not_ofRatio_lt_zero (num den : Nat) : ¬ ofRatio false num den < 0.0 :=
  not_ofSignedBits_lt_zero (Nat.lt_of_le_of_lt (nearestBits_le_infinityBits num den) (by decide))

/-- The hundredth part of a number has the sign of the number. -/
theorem not_div_hundred_lt_zero {x : Float} (h : ¬ x < 0.0) : ¬ x / 100.0 < 0.0 := by
  rw [lt_zero_iff, Bool.not_eq_true] at h ⊢
  obtain ⟨m, e, hm, hundred⟩ := exists_unpack_hundred
  have hdiv : liesBelow (UnpackedFloat.div .binary64 x.toModel.unpack
      (100.0 : Float).toModel.unpack) = false := by
    rw [hundred]
    cases hx : x.toModel.unpack with
    | infinity s =>
      rw [hx] at h
      cases s with
      | negative => exact absurd h (by decide)
      | positive => rfl
    | notANumber => rfl
    | zero s => cases s <;> rfl
    | finite s m' e' hm' =>
      rw [hx] at h
      cases s with
      | negative => exact absurd h (by simp [liesBelow])
      | positive => exact liesBelow_roundWithAccuracy
  exact liesBelow_pack hdiv

end Binary64

/-- The hundredth part of a quantity that is not negative is not negative. -/
theorem Quantity.not_hundredth_lt_zero {q : Quantity} {x : Float} (h : q.isNegative = false)
    (hx : q.hundredth = .ok x) : ¬ x < 0.0 := by
  cases q with
  | integer n =>
    simp only [hundredth, Binary64.quotient] at hx
    split at hx
    next => exact absurd hx (by simp)
    next =>
      rw [isNegative] at h
      rw [h] at hx
      obtain rfl := Except.ok.inj hx
      exact Binary64.not_ofRatio_lt_zero _ _
  | decimal y =>
    obtain rfl := Except.ok.inj hx
    exact Binary64.not_div_hundred_lt_zero (of_decide_eq_false h)

/-! ## Numbers moved into an interval -/

section Clamp

variable {α : Type} [LT α] [DecidableLT α] {low high : α}

/-- A number that was moved into an interval does not lie below it. -/
theorem not_clamp_lt (hlow : ¬ low < low) (hhigh : ¬ high < low) (a : α) :
    ¬ clamp low high a < low := by
  have hlarger : ¬ larger a low < low := by
    unfold larger
    split
    · exact hlow
    · assumption
  unfold clamp smaller
  split
  · exact hhigh
  · exact hlarger

/-- A number that was moved into an interval does not lie above it. -/
theorem not_lt_clamp (hhigh : ¬ high < high) (a : α) : ¬ high < clamp low high a := by
  unfold clamp smaller
  split
  · exact hhigh
  · assumption

end Clamp

end Styling
