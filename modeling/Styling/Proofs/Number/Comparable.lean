import Styling.Proofs.Number.Sign

/-!
# Numbers that can be compared

No comparison holds of the binary64 value that is no number, so a test that nothing lies below a
bound lets it pass.  It is never written: reading a numeral gives zero, a finite number or an
infinity, and so does a hundredth part.  Two such numbers are ordered one way or the other, and what
is moved into an interval lies there.

* `Binary64.le_of_not_lt` is the order.
* `Binary64.isNaN_pack` says that packing makes no number into none, from which the arithmetic
  follows; `Binary64.isNaN_ofSignedBits` is about encodings.
* `Quantity.isNaN_ofParts` is about numerals, `Quantity.isNaN_toFloat` and
  `Quantity.isNaN_hundredth` about the two ways in which they are used.
* `clamp_mem` is about numbers moved into an interval.
-/

namespace Styling

open Float.Model (UnpackedFloat)
open Float.Model.UnpackedFloat (Sign unpackExponent unpackMantissa packComponents)

namespace Binary64

/-! ## The order -/

theorem compare_swap (u v : UnpackedFloat) : v.compare u = (u.compare v).map Ordering.swap := by
  have hthen : ∀ (m₁ m₂ : Nat) (e₁ e₂ : Int), (compare e₂ e₁).then (compare m₂ m₁) =
      ((compare e₁ e₂).then (compare m₁ m₂)).swap := fun m₁ m₂ e₁ e₂ => by
    rw [Ordering.swap_then, @Std.OrientedCmp.eq_swap _ compare _ e₂ e₁,
      @Std.OrientedCmp.eq_swap _ compare _ m₂ m₁]
  cases u with
  | notANumber => cases v <;> rfl
  | infinity s =>
    cases v with
    | infinity s' => cases s <;> cases s' <;> rfl
    | _ => cases s <;> rfl
  | zero s =>
    cases v with
    | infinity s' | finite s' => cases s' <;> rfl
    | _ => rfl
  | finite s m e =>
    cases v with
    | notANumber => rfl
    | infinity s' => cases s' <;> rfl
    | zero => cases s <;> rfl
    | finite s' m' e' => cases s <;> cases s' <;> simp [UnpackedFloat.compare, hthen m m' e e']

theorem isSome_compare {u v : UnpackedFloat} (hu : u.isNaN = false) (hv : v.isNaN = false) :
    (u.compare v).isSome = true := by
  cases u with
  | notANumber => exact absurd hu (by decide)
  | infinity s =>
    cases v with
    | notANumber => exact absurd hv (by decide)
    | _ => cases s <;> rfl
  | zero s =>
    cases v with
    | notANumber => exact absurd hv (by decide)
    | infinity s' | finite s' => cases s' <;> rfl
    | zero => rfl
  | finite s =>
    cases v with
    | notANumber => exact absurd hv (by decide)
    | infinity s' | finite s' => cases s <;> cases s' <;> rfl
    | zero => cases s <;> rfl

theorem le_of_lt_eq_false {u v : UnpackedFloat} (hu : u.isNaN = false) (hv : v.isNaN = false)
    (h : u.lt v = false) : v.le u = true := by
  obtain ⟨o, ho⟩ := Option.isSome_iff_exists.mp (isSome_compare hu hv)
  rw [UnpackedFloat.lt, ho] at h
  rw [UnpackedFloat.le, compare_swap, ho]
  cases o with
  | lt => exact absurd h (by decide)
  | eq | gt => rfl

/-- Two numbers are ordered one way or the other. -/
theorem le_of_not_lt {x y : Float} (hx : x.isNaN = false) (hy : y.isNaN = false) (h : ¬ x < y) :
    y ≤ x := by
  have hlt : x.toModel.unpack.lt y.toModel.unpack = false := by
    rw [← Bool.not_eq_true]
    exact fun hmodel => h (decide_eq_true (p := x.toModel < y.toModel) hmodel)
  exact decide_eq_true (p := y.toModel ≤ x.toModel) (le_of_lt_eq_false hx hy hlt)

/-! ## Encodings -/

/-- Components make a number if their exponent is not the greatest. -/
theorem isNaN_packComponents {s : Sign} {e : Nat} {m : BitVec 52} (he : e + 1 < 2 ^ 11) :
    (UnpackedFloat.unpack .binary64
      (packComponents .binary64 s (BitVec.ofNat 11 e) m)).isNaN = false := by
  have hne : BitVec.ofNat 11 e ≠ -1#11 := by
    intro heq
    have hnat := congrArg BitVec.toNat heq
    simp only [BitVec.toNat_ofNat, BitVec.neg_one_eq_allOnes, BitVec.toNat_allOnes] at hnat
    omega
  simp only [UnpackedFloat.unpack, UnpackedFloat.unpackExponent_packComponents,
    UnpackedFloat.unpackMantissa_packComponents]
  rw [if_neg hne]
  split
  · split <;> rfl
  · rfl

/-- Packing makes no number into none. -/
theorem isNaN_pack {u : UnpackedFloat} (h : u.isNaN = false) :
    (UnpackedFloat.unpack .binary64 (UnpackedFloat.pack .binary64 u)).isNaN = false := by
  cases u with
  | notANumber => exact absurd h (by decide)
  | infinity s | zero s => cases s <;> decide
  | finite s m e hm =>
    unfold UnpackedFloat.pack
    dsimp only
    split
    next => cases s <;> decide
    next hexponent =>
      split
      next => exact isNaN_packComponents (Nat.lt_of_not_le hexponent)
      next => exact isNaN_packComponents (e := 0) (by decide)

/-- An encoding whose magnitude is not above that of infinity is one of a number. -/
theorem isNaN_unpack {b : BitVec 64} (h : b.toNat % 2 ^ 63 ≤ infinityBits) :
    (UnpackedFloat.unpack .binary64 b).isNaN = false := by
  have hmantissa : (@unpackMantissa .binary64 b).toNat = b.toNat % 2 ^ 52 := by
    simp [unpackMantissa]
  have hexponent : (@unpackExponent .binary64 b).toNat = b.toNat / 2 ^ 52 % 2 ^ 11 := by
    simp [unpackExponent, Nat.shiftRight_eq_div_pow]
  have hinfinity : infinityBits = 2047 * 2 ^ 52 := rfl
  simp only [UnpackedFloat.unpack]
  split
  next hones =>
    -- the magnitude is that of infinity, and so nothing is left for the mantissa
    have hgreatest : b.toNat / 2 ^ 52 % 2 ^ 11 = 2047 := hexponent ▸ congrArg BitVec.toNat hones
    have hzero : (@unpackMantissa .binary64 b).toNat = 0 := by omega
    rw [if_pos (BitVec.eq_of_toNat_eq hzero)]
    rfl
  next =>
    split
    · split <;> rfl
    · rfl

/-- What is encoded by a sign and a magnitude that is not above infinity is a number. -/
theorem isNaN_ofSignedBits {negative : Bool} {bits : Nat} (h : bits ≤ infinityBits) :
    (ofSignedBits negative bits).isNaN = false := by
  have hinfinity : infinityBits = 2047 * 2 ^ 52 := rfl
  have hsign : Nat.pow 2 63 = 2 ^ 63 := rfl
  refine isNaN_pack (isNaN_unpack ?_)
  rw [show ∀ n, (UInt64.ofNat n).toBitVec = BitVec.ofNat 64 n from fun _ => rfl,
    BitVec.toNat_ofNat, hsign]
  split <;> omega

theorem isNaN_ofRatio (negative : Bool) (num den : Nat) :
    (ofRatio negative num den).isNaN = false :=
  isNaN_ofSignedBits (nearestBits_le_infinityBits num den)

theorem isNaN_of_quotient {n : Int} {den : Nat} {x : Float} (h : quotient n den = .ok x) :
    x.isNaN = false := by
  rw [quotient] at h
  split at h
  next => exact absurd h (by simp)
  next =>
    obtain rfl := Except.ok.inj h
    exact isNaN_ofRatio _ _ _

/-- The hundredth part of a number is a number. -/
theorem isNaN_div_hundred {x : Float} (h : x.isNaN = false) : (x / 100.0).isNaN = false := by
  obtain ⟨m, e, hm, hundred⟩ := exists_unpack_hundred
  have hx : x.toModel.unpack.isNaN = false := h
  have hdiv : (UnpackedFloat.div .binary64 x.toModel.unpack
      (100.0 : Float).toModel.unpack).isNaN = false := by
    rw [hundred]
    cases hunpack : x.toModel.unpack with
    | notANumber =>
      rw [hunpack] at hx
      exact absurd hx (by decide)
    | infinity s | zero s => rfl
    | finite s m' e' hm' =>
      simp only [UnpackedFloat.div, UnpackedFloat.roundWithAccuracy]
      split <;> rfl
  exact isNaN_pack hdiv

end Binary64

/-! ## Written numbers -/

theorem Decimal.magnitudeBits_le_infinityBits (d : Decimal) :
    d.magnitudeBits ≤ Binary64.infinityBits := by
  unfold magnitudeBits
  split
  · exact Nat.zero_le _
  · split
    · exact Nat.le_refl _
    · split
      · exact Nat.zero_le _
      · exact Binary64.nearestBits_le_infinityBits _ _

namespace Quantity

/-- The quantity is no number. -/
def isNaN : Quantity → Bool
  | integer _ => false
  | decimal x => x.isNaN

theorem isNaN_ofParts (p : NumeralParts) : (ofParts p).isNaN = false := by
  unfold ofParts
  split
  · rfl
  · exact Binary64.isNaN_ofSignedBits p.decimal.magnitudeBits_le_infinityBits

variable {q : Quantity} {x : Float}

theorem isNaN_toFloat (h : q.isNaN = false) (hx : q.toFloat = .ok x) : x.isNaN = false := by
  cases q with
  | integer n => exact Binary64.isNaN_of_quotient hx
  | decimal y =>
    obtain rfl := Except.ok.inj hx
    exact h

theorem isNaN_hundredth (h : q.isNaN = false) (hx : q.hundredth = .ok x) : x.isNaN = false := by
  cases q with
  | integer n => exact Binary64.isNaN_of_quotient hx
  | decimal y =>
    obtain rfl := Except.ok.inj hx
    exact Binary64.isNaN_div_hundred h

end Quantity

/-! ## Numbers moved into an interval -/

section Clamp

variable {low high a : Float}

theorem isNaN_clamp (hlow : low.isNaN = false) (hhigh : high.isNaN = false)
    (ha : a.isNaN = false) : (clamp low high a).isNaN = false := by
  unfold clamp smaller
  split
  · exact hhigh
  · unfold larger
    split
    · exact hlow
    · exact ha

/-- A number that was moved into an interval lies there. -/
theorem clamp_mem (hlow : low.isNaN = false) (hhigh : high.isNaN = false) (ha : a.isNaN = false)
    (hbounds : ¬ low < low ∧ ¬ high < high ∧ ¬ high < low) :
    low ≤ clamp low high a ∧ clamp low high a ≤ high := by
  have hclamp := isNaN_clamp hlow hhigh ha
  exact ⟨Binary64.le_of_not_lt hclamp hlow (not_clamp_lt hbounds.1 hbounds.2.2 a),
    Binary64.le_of_not_lt hhigh hclamp (not_lt_clamp hbounds.2.1 a)⟩

end Clamp

end Styling
