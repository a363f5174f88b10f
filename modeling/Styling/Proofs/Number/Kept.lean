import Mathlib
import Styling.Proofs.Number.Equality
import Styling.Proofs.Number.Literal

/-!
# Numbers that are kept

A number in a style is rounded to six places, and a fraction is written as a percentage, that is as
a hundred times the number.  A number is kept if what is read from its text equals the number.

* `keepsNumber` and `keepsPercentage` compute whether a number is kept in either form.
* `keepsNumber_iff` says that just the numbers of at most six places are kept as they are.
-/

namespace Styling

open Float.Model (UnpackedFloat)
open Float.Model.UnpackedFloat (Sign unpackSign)

/-- A computation gives a number that equals the given one. -/
def givesBack (r : Except Fault Float) (x : Float) : Bool :=
  match r with
  | .ok y => y == x
  | .error _ => false

theorem givesBack_iff {r : Except Fault Float} {x : Float} :
    givesBack r x = true ↔ ∃ y, r = .ok y ∧ (y == x) = true := by
  cases r <;> simp [givesBack]

/-- A number equals what is read from its text in a style. -/
def keepsNumber (x : Float) : Bool :=
  givesBack (Quantity.shown x >>= Quantity.toFloat) x

/-- A fraction equals what is read from its text as a percentage. -/
def keepsPercentage (x : Float) : Bool :=
  givesBack (Quantity.shown (x * 100.0) >>= Quantity.hundredth) x

/-- What is shown and then read. -/
theorem exists_of_givesBack {x y : Float} {f : Quantity → Except Fault Float}
    (h : givesBack (Quantity.shown x >>= f) y = true) :
    ∃ q z, Quantity.shown x = .ok q ∧ f q = .ok z ∧ (z == y) = true := by
  obtain ⟨z, hz, hy⟩ := givesBack_iff.mp h
  cases hshown : Quantity.shown x with
  | error f =>
    rw [hshown] at hz
    exact absurd hz (by simp [bind, Except.bind])
  | ok q =>
    rw [hshown] at hz
    exact ⟨q, z, rfl, hz, hy⟩

namespace Binary64

/-- A number equal to a finite one is finite. -/
theorem isFinite_of_beq {x y : Float} (h : (x == y) = true) (hx : x.isFinite = true) :
    y.isFinite = true := by
  rcases beq_iff.mp h with ⟨rfl, -⟩ | ⟨-, s, hs⟩
  · exact hx
  · rw [show y.isFinite = y.toModel.unpack.isFinite from rfl, hs]
    rfl

theorem beq_self_of_isFinite {x : Float} (h : x.isFinite = true) : (x == x) = true :=
  beq_iff.mpr (Or.inl ⟨rfl, isNaN_of_isFinite h⟩)

/-- The integer part of a finite number does not lie beyond the range. -/
theorem exists_ofInt_truncate {x : Float} (h : x.isFinite = true) :
    ∃ n y, truncate x = .ok n ∧ ofInt n = .ok y := by
  obtain ⟨negative, m, e, hx⟩ := isFinite_iff.mp h
  obtain ⟨-, hm, -, hhigh, -, hbits⟩ := bits_of_ofFloat hx
  have hinfinity : infinityBits = 2047 * 2 ^ 52 := rfl
  let magnitude := m * Nat.pow 2 e.toNat / Nat.pow 2 (-e).toNat
  have hfits : nearestBits magnitude 1 < infinityBits := by
    by_cases he : 0 ≤ e
    · have hself := nearestBits_of_ofFloat hx
      rw [show (-e).toNat = 0 by omega, pow_zero] at hself
      simp only [magnitude]
      rw [show (-e).toNat = 0 by omega, show Nat.pow 2 0 = 1 from rfl, Nat.div_one, Nat.pow_eq,
        hself]
      omega
    · refine nearestBits_lt_infinityBits (k := 53) Nat.one_pos (by decide) ?_
      simp only [magnitude]
      rw [show e.toNat = 0 by omega, show Nat.pow 2 0 = 1 from rfl, Nat.mul_one, Nat.one_mul]
      exact Nat.lt_of_le_of_lt (Nat.div_le_self _ _) hm
  let n : Int := if negative then -magnitude else magnitude
  have htruncate : truncate x = .ok n := by rw [truncate, toIntBy, hx]
  have habs : n.natAbs = magnitude := by
    simp only [n]
    split
    · rw [Int.natAbs_neg, Int.natAbs_natCast]
    · exact Int.natAbs_natCast _
  exact ⟨n, _, htruncate, if_neg (by rw [habs]; exact hfits.ne)⟩

/-- **A finite number stays finite when it is rounded to decimal places.** -/
theorem isFinite_roundPlaces {x : Float} (h : x.isFinite = true) (places : Nat) :
    (roundPlaces places x).isFinite = true := by
  obtain ⟨negative, m, e, hx⟩ := isFinite_iff.mp h
  obtain ⟨-, hm, -, hhigh, -, hbits⟩ := bits_of_ofFloat hx
  have hinfinity : infinityBits = 2047 * 2 ^ 52 := rfl
  have hten : 0 < Nat.pow 10 places := Nat.pow_pos (by decide)
  simp only [roundPlaces, hx, ofRatio]
  refine isFinite_ofSignedBits ?_
  by_cases he : 0 ≤ e
  · -- an integral number is not changed
    have hself := nearestBits_of_ofFloat hx
    have hinteger : roundDiv (m * Nat.pow 2 e.toNat * Nat.pow 10 places) (Nat.pow 2 (-e).toNat) =
        m * 2 ^ e.toNat * Nat.pow 10 places := by
      rw [show (-e).toNat = 0 by omega]
      exact (congrArg (roundDiv · 1) (Nat.mul_one _).symm).trans (roundDiv_mul_self Nat.one_pos _)
    rw [show (-e).toNat = 0 by omega, pow_zero] at hself
    rw [hinteger, nearestBits_congr hten Nat.one_pos (Nat.mul_one _), hself]
    omega
  · -- the mantissa bounds the quotient, and so also what it is rounded to
    refine nearestBits_lt_infinityBits (k := 53) hten (by decide) ?_
    rw [show e.toNat = 0 by omega, show Nat.pow 2 0 = 1 from rfl, Nat.mul_one]
    refine Nat.lt_of_le_of_lt (roundDiv_le (Nat.two_pow_pos _)
      (Nat.le_mul_of_pos_right (m * Nat.pow 10 places) (Nat.two_pow_pos _))) ?_
    rw [Nat.mul_comm]
    exact Nat.mul_lt_mul_of_pos_left hm hten

end Binary64

/-- A finite number is shown. -/
theorem exists_shown {x : Float} (h : (Binary64.roundPlaces 6 x).isFinite = true) :
    ∃ q y, Quantity.shown x = .ok q ∧ q.toFloat = .ok y ∧
      (y == Binary64.roundPlaces 6 x) = true := by
  obtain ⟨n, y, hn, hy⟩ := Binary64.exists_ofInt_truncate h
  have hshown : Quantity.shown x = .ok (if Binary64.roundPlaces 6 x == y then .integer n
      else .decimal (Binary64.roundPlaces 6 x)) := by
    simp only [Quantity.shown, hn, hy, bind, Except.bind, pure, Except.pure]
  rw [hshown]
  by_cases hwhole : (Binary64.roundPlaces 6 x == y) = true
  · rw [if_pos hwhole]
    exact ⟨_, y, rfl, hy, Binary64.beq_symm hwhole⟩
  · rw [if_neg hwhole]
    exact ⟨_, _, rfl, rfl, Binary64.beq_self_of_isFinite h⟩

/-- Only a finite number is shown. -/
theorem isFinite_of_shown {x : Float} {q : Quantity} (h : Quantity.shown x = .ok q) :
    (Binary64.roundPlaces 6 x).isFinite = true := by
  simp only [Quantity.shown, bind, Except.bind] at h
  cases hwhole : Binary64.truncate (Binary64.roundPlaces 6 x) with
  | error f =>
    rw [hwhole] at h
    exact absurd h (by simp)
  | ok n => exact Binary64.isFinite_iff.mpr (Quantity.exists_of_truncate hwhole).2

/-- **Just the finite numbers that rounding to six places leaves alone are kept.** -/
theorem keepsNumber_iff {x : Float} :
    keepsNumber x = true ↔ x.isFinite = true ∧ (Binary64.roundPlaces 6 x == x) = true := by
  constructor
  · intro h
    obtain ⟨q, z, hq, hz, hx⟩ := exists_of_givesBack h
    have hfinite := isFinite_of_shown hq
    obtain ⟨q', y, hq', hy, hround⟩ := exists_shown hfinite
    obtain rfl := Except.ok.inj (hq.symm.trans hq')
    obtain rfl := Except.ok.inj (hz.symm.trans hy)
    have hkept := Binary64.beq_trans (Binary64.beq_symm hround) hx
    exact ⟨Binary64.isFinite_of_beq hkept hfinite, hkept⟩
  · rintro ⟨hfinite, hkept⟩
    obtain ⟨q, y, hq, hy, hround⟩ :=
      exists_shown (Binary64.isFinite_of_beq (Binary64.beq_symm hkept) hfinite)
    refine givesBack_iff.mpr ⟨y, ?_, Binary64.beq_trans hround hkept⟩
    rw [hq]
    exact hy

/-! ## Signs -/

namespace Binary64

theorem eq_ofBitVec_of_unpack {b : BitVec 64} {s : Sign} {m : Nat} {e : Int} {hm : 0 < m}
    (h : UnpackedFloat.unpack .binary64 b = .finite s m e hm) :
    s = Sign.ofBitVec (@unpackSign .binary64 b) := by
  simp only [UnpackedFloat.unpack] at h
  split at h
  next => split at h <;> exact absurd h (by simp)
  next =>
    split at h
    next =>
      split at h
      next => exact absurd h (by simp)
      next => exact (UnpackedFloat.finite.inj h).1.symm
    next => exact (UnpackedFloat.finite.inj h).1.symm

/-- A finite number with a minus sign lies below zero, unless it is zero. -/
theorem lt_zero_of_ofFloat {x : Float} {m : Nat} {e : Int} (h : ofFloat x = .finite true m e)
    (hm : m ≠ 0) : x < 0.0 := by
  obtain ⟨hsign, -, -, -, -, -⟩ := bits_of_ofFloat h
  have hgreat := of_decide_eq_true hsign.symm
  have hnegative : @unpackSign .binary64 x.toBits.toBitVec = 1#1 := by
    have hlt := x.toBits.toNat_lt
    refine BitVec.eq_of_toNat_eq ?_
    simp [unpackSign, Nat.shiftRight_eq_div_pow]
    omega
  have hfinite := isFinite_iff.mpr ⟨_, _, _, h⟩
  rcases isZero_or_finite hfinite with hzero | ⟨s, m', e', hm', hx⟩
  · rcases hzero.eq_or_eq with rfl | rfl
    · exact absurd (h.symm.trans (by decide : ofFloat 0.0 = .finite false 0 (-1074))) (by simp)
    · exact absurd (h.symm.trans (by decide : ofFloat (-0.0) = .finite true 0 (-1074)))
        (by simp [hm])
  · have hs := eq_ofBitVec_of_unpack (b := x.toBits.toBitVec) hx
    rw [hnegative] at hs
    rw [lt_zero_iff, hx, hs]
    rfl

/-- A hundred times a number that does not lie below zero. -/
theorem not_mul_hundred_lt_zero {x : Float} (h : ¬ x < 0.0) : ¬ x * 100.0 < 0.0 := by
  rw [lt_zero_iff, Bool.not_eq_true] at h ⊢
  obtain ⟨m, e, hm, hundred⟩ := exists_unpack_hundred
  refine liesBelow_pack (u := .mul .binary64 x.toModel.unpack (100.0 : Float).toModel.unpack) ?_
  rw [hundred]
  cases hx : x.toModel.unpack with
  | infinity s =>
    rw [hx] at h
    cases s with
    | negative => exact absurd h (by decide)
    | positive => rfl
  | notANumber => rfl
  | zero s => cases s <;> rfl
  | finite s m' e' hm' =>
    rw [hx] at h
    cases s with
    | negative => exact absurd h (by simp [liesBelow])
    | positive => exact liesBelow_roundWithAccuracy

/-- Rounding to decimal places moves no number below zero. -/
theorem not_roundPlaces_lt_zero {x : Float} (h : ¬ x < 0.0) (places : Nat) :
    ¬ roundPlaces places x < 0.0 := by
  rw [roundPlaces]
  split
  next negative m e hx =>
    cases negative with
    | false => exact not_ofRatio_lt_zero _ _
    | true =>
      by_cases hm : m = 0
      · subst hm
        have hzero : roundDiv 0 (Nat.pow 2 (-e).toNat) = 0 := roundDiv_eq_zero (Nat.two_pow_pos _)
        rw [Nat.zero_mul, Nat.zero_mul]
        dsimp only
        rw [hzero, ofRatio, nearestBits, if_pos rfl]
        decide
      · exact absurd (lt_zero_of_ofFloat hx hm) h
  next => exact h

/-- The integer part of a number that does not lie below zero. -/
theorem truncate_nonneg {x : Float} {n : Int} (h : ¬ x < 0.0) (hn : truncate x = .ok n) :
    0 ≤ n := by
  rw [truncate, toIntBy] at hn
  split at hn
  next => exact absurd hn (by simp)
  next => exact absurd hn (by simp)
  next negative m e hx =>
    obtain rfl := Except.ok.inj hn
    cases negative with
    | false => exact Int.natCast_nonneg _
    | true =>
      by_cases hm : m = 0
      · subst hm
        simp
      · exact absurd (lt_zero_of_ofFloat hx hm) h

end Binary64

/-- What is shown of a number that does not lie below zero carries no minus sign. -/
theorem Quantity.isNegative_of_shown {x : Float} {q : Quantity} (h : ¬ x < 0.0)
    (hq : shown x = .ok q) : q.isNegative = false := by
  have hround := Binary64.not_roundPlaces_lt_zero h 6
  simp only [shown, bind, Except.bind] at hq
  cases hwhole : Binary64.truncate (Binary64.roundPlaces 6 x) with
  | error f =>
    rw [hwhole] at hq
    exact absurd hq (by simp)
  | ok n =>
    rw [hwhole] at hq
    dsimp only at hq
    cases hfloat : Binary64.ofInt n with
    | error f =>
      rw [hfloat] at hq
      exact absurd hq (by simp)
    | ok y =>
      rw [hfloat] at hq
      obtain rfl := Except.ok.inj hq
      split
      next => exact decide_eq_false (Int.not_lt.mpr (Binary64.truncate_nonneg hround hwhole))
      next => exact decide_eq_false hround

end Styling
