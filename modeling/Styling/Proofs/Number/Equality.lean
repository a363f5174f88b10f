import Mathlib
import Styling.Proofs.Number.Comparable
import Styling.Proofs.Number.Nearest

/-!
# Numbers that compare equal

Two binary64 numbers compare equal if they are the same number or both are zero, whatever the signs
of the zeros; the value that is no number does not even equal itself.  So whatever is computed from
one of two equal numbers can be compared with what is computed from the other by looking at zero
apart from the rest.

A style writes some numbers as they are and computes with them again when they are read: it
multiplies by one and by zero and adds zero.  None of this changes a finite number.

* `Binary64.beq_iff` says when two numbers compare equal.
* `Binary64.clamp_beq` is about numbers moved into an interval that they lie in.
* `Binary64.mul_one`, `Binary64.isZero_mul_zero` and `Binary64.add_beq` are about finite numbers.
-/

namespace Styling

open Float.Model (UnpackedFloat Format totalExponent)
open Float.Model.UnpackedFloat (Sign Accuracy ExtendedMantissa unpackExponent unpackMantissa
  unpackSign packComponents shiftToTargetExponent shiftToExponent)

namespace Binary64

/-! ## Unpacking -/

/-- Unpacking loses nothing. -/
theorem ofModel_pack_unpack (x : Float) : Float.ofModel (.pack x.toModel.unpack) = x := by
  obtain ⟨⟨bits, valid⟩⟩ := x
  have hpack : UnpackedFloat.pack .binary64 (UnpackedFloat.unpack .binary64 bits.toBitVec) =
      bits.toBitVec := by
    have hparts := packComponents_unpack bits.toBitVec
    by_cases hexponent : @unpackExponent .binary64 bits.toBitVec = -1#11
    · by_cases hmantissa : @unpackMantissa .binary64 bits.toBitVec = 0#52
      · rw [hexponent, hmantissa] at hparts
        rw [UnpackedFloat.unpack]
        simp only [hexponent, hmantissa, if_true]
        exact hparts
      · rw [UnpackedFloat.unpack]
        simp only [hexponent, hmantissa, if_true, if_false]
        exact (valid.eq_packedNaN hexponent hmantissa).symm
    · rw [← hparts]
      exact pack_unpack_packComponents hexponent
  refine congrArg Float.ofModel ?_
  simp only [Float.Model.unpack, Float.Model.pack, Float.Model.mk.injEq]
  exact congrArg UInt64.ofBitVec hpack

/-- Numbers that are unpacked alike are the same. -/
theorem eq_of_unpack_eq {x y : Float} (h : x.toModel.unpack = y.toModel.unpack) : x = y := by
  rw [← ofModel_pack_unpack x, h, ofModel_pack_unpack]

/-- The number is zero, with either sign. -/
def IsZero (x : Float) : Prop :=
  ∃ s, x.toModel.unpack = .zero s

theorem IsZero.eq_or_eq {x : Float} (h : IsZero x) : x = 0.0 ∨ x = -0.0 := by
  obtain ⟨s, hs⟩ := h
  cases s with
  | positive => exact Or.inl (eq_of_unpack_eq hs)
  | negative => exact Or.inr (eq_of_unpack_eq hs)

/-! ## Comparison -/

theorem compare_self {u : UnpackedFloat} (h : u.isNaN = false) : u.compare u = some .eq := by
  cases u with
  | notANumber => exact absurd h (by decide)
  | infinity s => cases s <;> rfl
  | zero => rfl
  | finite s => cases s <;> simp [UnpackedFloat.compare]

theorem eq_of_compare_eq {u v : UnpackedFloat} (h : u.compare v = some .eq) :
    (u = v ∧ u.isNaN = false) ∨ ((∃ s, u = .zero s) ∧ ∃ s, v = .zero s) := by
  cases u with
  | notANumber => exact absurd h (by simp [UnpackedFloat.compare])
  | infinity s =>
    cases v with
    | infinity s' =>
      cases s <;> cases s' <;> first | exact Or.inl ⟨rfl, rfl⟩ | exact absurd h (by decide)
    | _ => cases s <;> exact absurd h (by simp [UnpackedFloat.compare])
  | zero s =>
    cases v with
    | zero s' => exact Or.inr ⟨⟨s, rfl⟩, s', rfl⟩
    | notANumber => exact absurd h (by simp [UnpackedFloat.compare])
    | infinity s' | finite s' => cases s' <;> exact absurd h (by simp [UnpackedFloat.compare])
  | finite s m e =>
    cases v with
    | notANumber => exact absurd h (by simp [UnpackedFloat.compare])
    | zero => cases s <;> exact absurd h (by simp [UnpackedFloat.compare])
    | infinity s' => cases s' <;> exact absurd h (by simp [UnpackedFloat.compare])
    | finite s' m' e' =>
      cases s <;> cases s' <;> simp [UnpackedFloat.compare, Ordering.then_eq_eq] at h ⊢ <;>
        exact ⟨⟨h.2, h.1⟩, rfl⟩

/-- **Two numbers compare equal if they are the same number or both zero.** -/
theorem beq_iff {x y : Float} :
    (x == y) = true ↔ (x = y ∧ x.isNaN = false) ∨ (IsZero x ∧ IsZero y) := by
  rw [show (x == y) = (x.toModel.unpack.compare y.toModel.unpack == some .eq) from rfl, beq_iff_eq]
  constructor
  · intro h
    exact (eq_of_compare_eq h).imp_left fun h => ⟨eq_of_unpack_eq h.1, h.2⟩
  · rintro (⟨rfl, h⟩ | ⟨⟨s, hs⟩, s', hs'⟩)
    · exact compare_self h
    · rw [hs, hs']
      rfl

section Equal

variable {x y z : Float}

theorem beq_symm (h : (x == y) = true) : (y == x) = true := by
  rcases beq_iff.mp h with ⟨rfl, -⟩ | ⟨hx, hy⟩
  · exact h
  · exact beq_iff.mpr (Or.inr ⟨hy, hx⟩)

theorem beq_trans (hxy : (x == y) = true) (hyz : (y == z) = true) : (x == z) = true := by
  rcases beq_iff.mp hxy with ⟨rfl, -⟩ | ⟨hx, hy⟩
  · exact hyz
  · rcases beq_iff.mp hyz with ⟨rfl, -⟩ | ⟨-, hz⟩
    · exact hxy
    · exact beq_iff.mpr (Or.inr ⟨hx, hz⟩)

theorem lt_iff : x < y ↔ x.toModel.unpack.compare y.toModel.unpack = some .lt := by
  rw [show (x < y) = (decide (x.toModel < y.toModel) = true) from rfl, decide_eq_true_iff]
  exact beq_iff_eq

theorem le_iff :
    x ≤ y ↔ (x.toModel.unpack.compare y.toModel.unpack).any Ordering.isLE = true := by
  rw [show (x ≤ y) = (decide (x.toModel ≤ y.toModel) = true) from rfl, decide_eq_true_iff]
  exact Iff.rfl

/-- What lies between numbers does not lie beyond them. -/
theorem not_lt_of_le (h : x ≤ y) : ¬ y < x := by
  rw [le_iff] at h
  rw [lt_iff, compare_swap]
  cases hcompare : x.toModel.unpack.compare y.toModel.unpack with
  | none => simp
  | some o =>
    rw [hcompare] at h
    cases o <;> simp at h ⊢

/-- Equal numbers are compared alike with any third one. -/
theorem compare_congr (h : (x == y) = true) (v : UnpackedFloat) :
    x.toModel.unpack.compare v = y.toModel.unpack.compare v := by
  rcases beq_iff.mp h with ⟨rfl, -⟩ | ⟨⟨s, hs⟩, s', hs'⟩
  · rfl
  · rw [hs, hs']
    cases v with
    | infinity s'' | finite s'' => cases s'' <;> rfl
    | _ => rfl

theorem lt_congr_left (h : (x == y) = true) : x < z ↔ y < z := by
  rw [lt_iff, lt_iff, compare_congr h]

theorem lt_congr_right (h : (x == y) = true) : z < x ↔ z < y := by
  rw [lt_iff, lt_iff, compare_swap, compare_congr h, ← compare_swap]

/-- A number that equals one inside an interval is not moved into the interval. -/
theorem clamp_beq {low high : Float} (h : (y == x) = true) (hlow : ¬ x < low) (hhigh : ¬ high < x) :
    (clamp low high y == x) = true := by
  rw [clamp, larger, if_neg (mt (lt_congr_left h).mp hlow), smaller,
    if_neg (mt (lt_congr_right h).mp hhigh)]
  exact h

end Equal

/-! ## Finite numbers -/

theorem isFinite_iff {x : Float} :
    x.isFinite = true ↔ ∃ negative m e, ofFloat x = .finite negative m e := by
  have hexponent : (@unpackExponent .binary64 x.toBits.toBitVec).toNat =
      x.toBits.toNat / 2 ^ 52 % 2 ^ 11 := by
    simp [unpackExponent, Nat.shiftRight_eq_div_pow]
  have hgreatest : @unpackExponent .binary64 x.toBits.toBitVec = -1#11 ↔
      x.toBits.toNat / Nat.pow 2 52 % 2048 = 2047 := by
    rw [← BitVec.toNat_inj, hexponent]
    exact Iff.rfl
  rw [show x.isFinite = (UnpackedFloat.unpack .binary64 x.toBits.toBitVec).isFinite from rfl]
  simp only [UnpackedFloat.unpack, ofFloat, ofBits]
  by_cases h : x.toBits.toNat / Nat.pow 2 52 % 2048 = 2047
  · rw [if_pos (hgreatest.mpr h), if_pos h]
    split <;> split <;> simp [UnpackedFloat.isFinite]
  · rw [if_neg (mt hgreatest.mp h), if_neg h]
    split
    · split <;> split <;> simp [UnpackedFloat.isFinite]
    · split <;> simp [UnpackedFloat.isFinite]

theorem isNaN_of_isFinite {x : Float} (h : x.isFinite = true) : x.isNaN = false := by
  rw [show x.isFinite = x.toModel.unpack.isFinite from rfl] at h
  rw [show x.isNaN = x.toModel.unpack.isNaN from rfl]
  cases hx : x.toModel.unpack with
  | notANumber =>
    rw [hx] at h
    exact absurd h (by simp [UnpackedFloat.isFinite])
  | _ => rfl

/-- The exponent of a number is the one that rounding aims at. -/
theorem targetExponent_unpack {x : Float} {s : Sign} {m : Nat} {e : Int} {hm : 0 < m}
    (h : x.toModel.unpack = .finite s m e hm) :
    Format.binary64.targetExponent (totalExponent m e) = e := by
  have htarget : ∀ t, Format.binary64.targetExponent t = max (t - 53) (-1074) := fun _ => rfl
  rw [htarget, totalExponent]
  simp only [Float.Model.unpack, UnpackedFloat.unpack] at h
  have hmantissa := (@unpackMantissa .binary64 x.toModel.toBits.toBitVec).isLt
  split at h
  next => split at h <;> exact absurd h (by simp)
  next =>
    split at h
    next hzero =>
      split at h
      next => exact absurd h (by simp)
      next =>
        -- a number of the least exponent
        obtain ⟨-, rfl, he⟩ := UnpackedFloat.finite.inj h
        have hlog : (@unpackMantissa .binary64 x.toModel.toBits.toBitVec).toNat.log2 < 52 :=
          (Nat.log2_lt hm.ne').mpr hmantissa
        rw [hzero] at he
        simp [Format.exponentBias] at he
        omega
    next hpos =>
      -- the mantissa is filled up by a bit of its own
      obtain ⟨-, rfl, he⟩ := UnpackedFloat.finite.inj h
      have hvalue : (1#1 ++ @unpackMantissa .binary64 x.toModel.toBits.toBitVec).toNat =
          2 ^ 52 + (@unpackMantissa .binary64 x.toModel.toBits.toBitVec).toNat := by
        rw [BitVec.toNat_append, ← Nat.shiftLeft_add_eq_or_of_lt hmantissa]
        rfl
      have hlog : (1#1 ++ @unpackMantissa .binary64 x.toModel.toBits.toBitVec).toNat.log2 = 52 :=
        (Nat.log2_eq_iff hm.ne').mpr (by rw [hvalue]; omega)
      have hexponent : 0 < (@unpackExponent .binary64 x.toModel.toBits.toBitVec).toNat :=
        Nat.pos_of_ne_zero fun h0 => hpos (BitVec.eq_of_toNat_eq h0)
      rw [hlog]
      simp [Format.exponentBias] at he
      omega

/-- Bits that are shifted in can be shifted out. -/
theorem shiftRight_mul_pow (m k : Nat) :
    (ExtendedMantissa.mk (m * 2 ^ k) false false) >>> k = ⟨m, false, false⟩ := by
  induction k generalizing m with
  | zero => simp [HShiftRight.hShiftRight, Nat.repeat]
  | succ k ih =>
    have hstep : (ExtendedMantissa.mk (m * 2 ^ (k + 1)) false false) >>> (k + 1) =
        ((ExtendedMantissa.mk (m * 2 * 2 ^ k) false false) >>> k).shiftRightOne := by
      rw [show m * 2 ^ (k + 1) = m * 2 * 2 ^ k by ring]
      rfl
    rw [hstep, ih]
    simp [ExtendedMantissa.shiftRightOne]

/-- A mantissa that has more bits than the format has room for, but only zeros among them. -/
theorem roundWithAccuracy_mul_pow {m : Nat} {e : Int} (s : Sign) (hm : 0 < m)
    (htarget : Format.binary64.targetExponent (totalExponent m e) = e) (k : Nat) :
    UnpackedFloat.roundWithAccuracy .binary64 s (m * 2 ^ k) (e - k) .exact = .finite s m e hm := by
  have hlog : (m * 2 ^ k).log2 = m.log2 + k := by
    refine (Nat.log2_eq_iff (Nat.mul_pos hm (Nat.two_pow_pos k)).ne').mpr ⟨?_, ?_⟩
    · rw [Nat.pow_add]
      exact Nat.mul_le_mul_right _ (Nat.log2_self_le hm.ne')
    · rw [Nat.add_right_comm, Nat.pow_add]
      exact Nat.mul_lt_mul_of_pos_right Nat.lt_log2_self (Nat.two_pow_pos k)
  have htotal : totalExponent (m * 2 ^ k) (e - k) = totalExponent m e := by
    rw [totalExponent, totalExponent, hlog]
    omega
  have hfirst : shiftToTargetExponent .binary64 (m * 2 ^ k) (e - k) .exact =
      (⟨m, false, false⟩, e) := by
    simp only [shiftToTargetExponent, shiftToExponent, htotal, htarget,
      ExtendedMantissa.ofMantissaAndAccuracy]
    rw [show (e - (e - k)).toNat = k by omega, shiftRight_mul_pow, Int.sub_add_cancel]
  have hsecond : shiftToTargetExponent .binary64 m e .exact = (⟨m, false, false⟩, e) := by
    simp only [shiftToTargetExponent, shiftToExponent, htarget,
      ExtendedMantissa.ofMantissaAndAccuracy]
    rw [Int.sub_self, Int.toNat_zero, show (0 : Nat) = ((0 : Nat) : Int).toNat from rfl]
    simp [HShiftRight.hShiftRight, Nat.repeat]
  have hrounded : (ExtendedMantissa.mk m false false).roundedMantissa = m := rfl
  simp only [UnpackedFloat.roundWithAccuracy, hfirst, hrounded, hsecond]
  exact dif_neg hm.ne'

/-- A finite number is zero or has a mantissa. -/
theorem isZero_or_finite {x : Float} (h : x.isFinite = true) :
    IsZero x ∨ ∃ s m e hm, x.toModel.unpack = .finite s m e hm := by
  rw [show x.isFinite = x.toModel.unpack.isFinite from rfl] at h
  cases hx : x.toModel.unpack with
  | zero s => exact Or.inl ⟨s, hx⟩
  | finite s m e hm => exact Or.inr ⟨s, m, e, hm, rfl⟩
  | infinity | notANumber =>
    rw [hx] at h
    exact absurd h (by simp [UnpackedFloat.isFinite])

theorem mul_eq (x y : Float) : x * y =
    Float.ofModel (.pack (UnpackedFloat.mul .binary64 x.toModel.unpack y.toModel.unpack)) :=
  rfl

theorem add_eq (x y : Float) : x + y =
    Float.ofModel (.pack (UnpackedFloat.add .binary64 x.toModel.unpack y.toModel.unpack)) :=
  rfl

/-- **One times a finite number is the number.** -/
theorem mul_one {x : Float} (h : x.isFinite = true) : x * 1.0 = x := by
  have hone : (1.0 : Float).toModel.unpack = .finite .positive (2 ^ 52) (-52) (by decide) := rfl
  rcases isZero_or_finite h with hzero | ⟨s, m, e, hm, hx⟩
  · rcases hzero.eq_or_eq with rfl | rfl <;> decide
  · have hmul : UnpackedFloat.mul .binary64 x.toModel.unpack (1.0 : Float).toModel.unpack =
        x.toModel.unpack := by
      rw [hx, hone]
      have hsign : s * Sign.positive = s := by cases s <;> rfl
      rw [UnpackedFloat.mul, hsign]
      exact roundWithAccuracy_mul_pow s hm (targetExponent_unpack hx) 52
    rw [mul_eq, hmul, ofModel_pack_unpack]

/-- Zero times a finite number is zero. -/
theorem isZero_mul_zero {x : Float} (h : x.isFinite = true) : IsZero (x * 0.0) := by
  have hpack : ∀ s, IsZero (Float.ofModel (.pack (.zero s))) := fun s => by
    cases s with
    | positive => exact ⟨.positive, rfl⟩
    | negative => exact ⟨.negative, rfl⟩
  rcases isZero_or_finite h with ⟨s, hs⟩ | ⟨s, m, e, hm, hx⟩
  · rw [mul_eq, hs]
    exact hpack _
  · rw [mul_eq, hx]
    exact hpack _

/-- The sum of two zeros is zero. -/
theorem IsZero.add {x y : Float} (hx : IsZero x) (hy : IsZero y) : IsZero (x + y) := by
  obtain ⟨s, hs⟩ := hx
  obtain ⟨t, ht⟩ := hy
  rw [add_eq, hs, ht]
  cases s <;> cases t <;> first | exact ⟨.positive, rfl⟩ | exact ⟨.negative, rfl⟩

/-- Adding zero changes nothing, apart from the sign of a zero. -/
theorem add_beq {x z : Float} (h : x.isNaN = false) (hz : IsZero z) :
    (x + z == x) = true ∧ (z + x == x) = true := by
  by_cases hx : IsZero x
  · exact ⟨beq_iff.mpr (Or.inr ⟨hx.add hz, hx⟩), beq_iff.mpr (Or.inr ⟨hz.add hx, hx⟩)⟩
  · obtain ⟨s, hs⟩ := hz
    have hadd : x + z = x ∧ z + x = x := by
      rw [add_eq, add_eq, hs]
      cases hcases : x.toModel.unpack with
      | zero t => exact absurd ⟨t, hcases⟩ hx
      | _ =>
        simp only [UnpackedFloat.add]
        rw [← hcases, ofModel_pack_unpack]
        exact ⟨rfl, rfl⟩
    rw [hadd.1, hadd.2]
    exact ⟨beq_iff.mpr (Or.inl ⟨rfl, h⟩), beq_iff.mpr (Or.inl ⟨rfl, h⟩)⟩

end Binary64

end Styling
