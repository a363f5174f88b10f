import Mathlib
import Styling.Number.Decimal
import Styling.Proofs.Number.Sign

/-!
# The nearest number of a quotient

Rounding looks at a numerator and a denominator, but only their quotient matters: two spellings of
one quotient have the same nearest number.  From this the two tests that spare a decimal large
powers are justified, and two decimals of the same value read as the same number.

A finite number is its own nearest number, so an exact value taken from a number and brought back is
the number itself.

* `Binary64.log2Div_eq_log` and `roundDiv_congr` say that the two steps of rounding depend on the
  quotient alone, and `Binary64.nearestBits_congr` puts them together.
* `Decimal.magnitudeBits_eq` drops the tests, and `Decimal.magnitudeBits_pad` is about zeros at the
  end of a coefficient.
* `Binary64.ofSignedBits_nearestBits` brings an exact value back.
-/

namespace Styling

open Float.Model (UnpackedFloat Format)
open Float.Model.UnpackedFloat (Sign unpackSign unpackExponent unpackMantissa packComponents)

/-! ## Rounding to a natural number -/

theorem roundDiv_mul_left {k : Nat} (hk : 0 < k) (n d : Nat) :
    roundDiv (k * n) (k * d) = roundDiv n d := by
  have hless : ∀ a b : Nat, 2 * (k * a) < k * b ↔ 2 * a < b := fun a b => by
    rw [Nat.mul_left_comm]
    exact Nat.mul_lt_mul_left hk
  have hgreater : ∀ a b : Nat, k * b < 2 * (k * a) ↔ b < 2 * a := fun a b => by
    rw [Nat.mul_left_comm]
    exact Nat.mul_lt_mul_left hk
  simp only [roundDiv, Nat.mul_div_mul_left n d hk, Nat.mul_mod_mul_left, hless, hgreater]

/-- Two spellings of one quotient are rounded alike. -/
theorem roundDiv_congr {n d n' d' : Nat} (hd : 0 < d) (hd' : 0 < d') (h : n * d' = n' * d) :
    roundDiv n d = roundDiv n' d' := by
  rw [← roundDiv_mul_left hd' n d, ← roundDiv_mul_left hd n' d', Nat.mul_comm d' n, h,
    Nat.mul_comm n' d, Nat.mul_comm d d']

/-- A quotient below one half is rounded to zero. -/
theorem roundDiv_eq_zero {n d : Nat} (h : 2 * n < d) : roundDiv n d = 0 := by
  have hlt : n < d := by omega
  rw [roundDiv, Nat.div_eq_of_lt hlt, Nat.mod_eq_of_lt hlt, if_pos h]

/-- A natural number is rounded to itself. -/
theorem roundDiv_mul_self {d : Nat} (hd : 0 < d) (n : Nat) : roundDiv (n * d) d = n := by
  rw [roundDiv, Nat.mul_div_cancel n hd, Nat.mul_mod_left, Nat.mul_zero, if_pos hd]

/-! ## The power of two below a quotient -/

/-- A power with an exponent of either sign as a quotient of natural powers. -/
theorem zpow_eq_div {b : ℚ} (hb : b ≠ 0) (e : Int) : b ^ e = b ^ e.toNat / b ^ (-e).toNat := by
  rw [eq_div_iff (pow_ne_zero _ hb), ← zpow_natCast, ← zpow_natCast, ← zpow_add₀ hb]
  congr 1
  omega

namespace Binary64

/-- Comparison with a power of two, as rounding computes it. -/
theorem mul_pow_le_mul_pow_iff (num : Nat) {den : Nat} (hd : 0 < den) (e : Int) :
    den * Nat.pow 2 e.toNat ≤ num * Nat.pow 2 (-e).toNat ↔ (2 : ℚ) ^ e ≤ num / den := by
  have hden : (0 : ℚ) < den := by exact_mod_cast hd
  rw [zpow_eq_div two_ne_zero, div_le_div_iff₀ (by positivity) hden, mul_comm]
  exact_mod_cast Iff.rfl

/-- The logarithm is the exponent of the power of two that encloses a number with the next one. -/
theorem eq_log_of_between {r : ℚ} {e : Int} (hle : (2 : ℚ) ^ e ≤ r) (hlt : r < 2 ^ (e + 1)) :
    e = Int.log 2 r := by
  have hpos : 0 < r := lt_of_lt_of_le (zpow_pos two_pos e) hle
  have hle' := (Int.zpow_le_iff_le_log one_lt_two hpos).mp (by exact_mod_cast hle)
  have hlt' := (Int.lt_zpow_iff_log_lt one_lt_two hpos).mp (by exact_mod_cast hlt)
  omega

/-- A positive natural number lies between two powers of two. -/
theorem log2_between {n : Nat} (hn : 0 < n) :
    (2 : ℚ) ^ (n.log2 : Int) ≤ n ∧ (n : ℚ) < 2 ^ ((n.log2 : Int) + 1) := by
  rw [zpow_natCast, show (n.log2 : Int) + 1 = ((n.log2 + 1 : Nat) : Int) from rfl, zpow_natCast]
  exact ⟨by exact_mod_cast Nat.log2_self_le hn.ne', by exact_mod_cast Nat.lt_log2_self⟩

/-- **The exponent that rounding finds is the logarithm of the quotient.** -/
theorem log2Div_eq_log {num den : Nat} (hn : 0 < num) (hd : 0 < den) :
    log2Div num den = Int.log 2 ((num : ℚ) / den) := by
  have hden : (0 : ℚ) < den := by exact_mod_cast hd
  -- the logarithms of numerator and denominator enclose the quotient in two powers
  have hnum := log2_between hn
  have hdiv := log2_between hd
  have hupper : (num : ℚ) / den < 2 ^ ((num.log2 : Int) - den.log2 + 1) := by
    rw [div_lt_iff₀ hden]
    calc (num : ℚ) < 2 ^ ((num.log2 : Int) + 1) := hnum.2
      _ = 2 ^ ((num.log2 : Int) - den.log2 + 1) * 2 ^ (den.log2 : Int) := by
        rw [← zpow_add₀ two_ne_zero]
        congr 1
        omega
      _ ≤ 2 ^ ((num.log2 : Int) - den.log2 + 1) * den := by gcongr; exact hdiv.1
  have hlower : (2 : ℚ) ^ ((num.log2 : Int) - den.log2 - 1) ≤ num / den := by
    rw [le_div_iff₀ hden]
    calc (2 : ℚ) ^ ((num.log2 : Int) - den.log2 - 1) * den
        ≤ 2 ^ ((num.log2 : Int) - den.log2 - 1) * 2 ^ ((den.log2 : Int) + 1) := by
          gcongr
          exact hdiv.2.le
      _ = 2 ^ (num.log2 : Int) := by
        rw [← zpow_add₀ two_ne_zero]
        congr 1
        omega
      _ ≤ num := hnum.1
  unfold log2Div
  dsimp only
  split
  next h => exact eq_log_of_between ((mul_pow_le_mul_pow_iff _ hd _).mp h) hupper
  next h =>
    refine eq_log_of_between hlower ?_
    rw [Int.sub_add_cancel]
    exact not_le.mp fun hle => h ((mul_pow_le_mul_pow_iff _ hd _).mpr hle)

/-- **Two spellings of one quotient have the same nearest number.** -/
theorem nearestBits_congr {n d n' d' : Nat} (hd : 0 < d) (hd' : 0 < d') (h : n * d' = n' * d) :
    nearestBits n d = nearestBits n' d' := by
  by_cases hn : n = 0
  · subst hn
    rw [Nat.zero_mul, eq_comm, Nat.mul_eq_zero] at h
    rw [nearestBits, nearestBits, if_pos rfl, if_pos (h.resolve_right (by omega))]
  have hn' : n' ≠ 0 := fun hzero => by
    rw [hzero, Nat.zero_mul, Nat.mul_eq_zero] at h
    omega
  have hquotient : (n : ℚ) / d = n' / d' := by
    rw [div_eq_div_iff (by exact_mod_cast hd.ne') (by exact_mod_cast hd'.ne')]
    exact_mod_cast h
  have hround : ∀ a b : Nat, roundDiv (n * Nat.pow 2 a) (d * Nat.pow 2 b) =
      roundDiv (n' * Nat.pow 2 a) (d' * Nat.pow 2 b) := fun a b => by
    refine roundDiv_congr (Nat.mul_pos hd (Nat.two_pow_pos b))
      (Nat.mul_pos hd' (Nat.two_pow_pos b)) ?_
    rw [Nat.mul_mul_mul_comm, h, Nat.mul_mul_mul_comm]
  rw [nearestBits, nearestBits, if_neg hn, if_neg hn',
    log2Div_eq_log (Nat.pos_of_ne_zero hn) hd, log2Div_eq_log (Nat.pos_of_ne_zero hn') hd',
    hquotient]
  dsimp only
  rw [hround]

theorem le_log2Div {num den k : Nat} (hd : 0 < den) (h : den * 2 ^ k ≤ num) :
    (k : Int) ≤ log2Div num den := by
  have hn : 0 < num := Nat.lt_of_lt_of_le (Nat.mul_pos hd (Nat.two_pow_pos k)) h
  have hquotient := (mul_pow_le_mul_pow_iff num hd k).mp (by simpa using h)
  rw [log2Div_eq_log hn hd]
  refine (Int.zpow_le_iff_le_log one_lt_two
    (div_pos (by exact_mod_cast hn) (by exact_mod_cast hd))).mp ?_
  exact_mod_cast hquotient

theorem log2Div_lt {num den k : Nat} (hn : 0 < num) (h : num * 2 ^ k < den) :
    log2Div num den < -k := by
  have hd : 0 < den := Nat.lt_of_le_of_lt (Nat.zero_le _) h
  have hquotient := (mul_pow_le_mul_pow_iff num hd (-k)).not.mp (by simpa using h)
  rw [log2Div_eq_log hn hd]
  refine (Int.lt_zpow_iff_log_lt one_lt_two
    (div_pos (by exact_mod_cast hn) (by exact_mod_cast hd))).mp ?_
  exact_mod_cast not_le.mp hquotient

/-- A quotient that is too large becomes infinity. -/
theorem nearestBits_of_large {num den k : Nat} (hd : 0 < den) (hk : 1025 ≤ k)
    (h : den * 2 ^ k ≤ num) : nearestBits num den = infinityBits := by
  have hn : num ≠ 0 := (Nat.lt_of_lt_of_le (Nat.mul_pos hd (Nat.two_pow_pos k)) h).ne'
  have hplace : 2047 ≤ (max (log2Div num den - 52) (-1074) + 1074).toNat := by
    have hlog := le_log2Div hd h
    omega
  rw [nearestBits, if_neg hn]
  exact Nat.min_eq_right (Nat.le_trans (Nat.mul_le_mul_right _ hplace) (Nat.le_add_right _ _))

theorem log2Div_lt_of_lt {num den k : Nat} (hn : 0 < num) (hd : 0 < den) (h : num < den * 2 ^ k) :
    log2Div num den < k := by
  have hquotient := (mul_pow_le_mul_pow_iff num hd k).not.mp (by simpa using h)
  rw [log2Div_eq_log hn hd]
  refine (Int.lt_zpow_iff_log_lt one_lt_two
    (div_pos (by exact_mod_cast hn) (by exact_mod_cast hd))).mp ?_
  exact_mod_cast not_le.mp hquotient

/-- A quotient that is at most a natural number is rounded to no more than it. -/
theorem roundDiv_le {n d b : Nat} (hd : 0 < d) (h : n ≤ b * d) : roundDiv n d ≤ b := by
  have hdiv := Nat.div_add_mod n d
  have hmod := Nat.mod_lt n hd
  have hquotient : n / d ≤ b := Nat.div_le_of_le_mul (Nat.mul_comm b d ▸ h)
  rcases Nat.lt_or_eq_of_le hquotient with hless | hequal
  · rw [roundDiv]
    split_ifs <;> omega
  · -- nothing is left of the quotient, or it would be greater
    have hrest : n % d = 0 := by
      rw [hequal, Nat.mul_comm] at hdiv
      omega
    rw [roundDiv, hrest, Nat.mul_zero, if_pos hd]
    exact hquotient

/-- The mantissa of a rounded quotient has at most 53 bits, or is the next power of two. -/
theorem mantissa_le {num den : Nat} (hn : 0 < num) (hd : 0 < den) {q : Int}
    (hq : log2Div num den - 52 ≤ q) :
    roundDiv (num * Nat.pow 2 (-q).toNat) (den * Nat.pow 2 q.toNat) ≤ 2 ^ 53 := by
  have hden : (0 : ℚ) < den := by exact_mod_cast hd
  have hnum : (0 : ℚ) < num := by exact_mod_cast hn
  have hlog : (num : ℚ) / den < 2 ^ (53 + q) := by
    have hlog := log2Div_eq_log hn hd
    refine (Int.lt_zpow_iff_log_lt one_lt_two (div_pos hnum hden)).mpr ?_
    omega
  refine roundDiv_le (Nat.mul_pos hd (Nat.two_pow_pos _)) ?_
  have hvalue : (num : ℚ) * 2 ^ (-q).toNat ≤ 2 ^ 53 * (den * 2 ^ q.toNat) := by
    rw [zpow_add₀ two_ne_zero, zpow_eq_div two_ne_zero q, div_lt_iff₀ hden] at hlog
    have hpow : (0 : ℚ) < 2 ^ (-q).toNat := by positivity
    calc (num : ℚ) * 2 ^ (-q).toNat
        ≤ 2 ^ (53 : Int) * (2 ^ q.toNat / 2 ^ (-q).toNat) * den * 2 ^ (-q).toNat := by
          gcongr
      _ = 2 ^ 53 * (den * 2 ^ q.toNat) := by
          field_simp
  exact_mod_cast hvalue

/-- A quotient that is not too large does not become infinity. -/
theorem nearestBits_lt_infinityBits {num den k : Nat} (hd : 0 < den) (hk : k ≤ 1023)
    (h : num < den * 2 ^ k) : nearestBits num den < infinityBits := by
  rw [nearestBits]
  split
  next => decide
  next hn =>
    have hpos := Nat.pos_of_ne_zero hn
    have hlog := log2Div_lt_of_lt hpos hd h
    have hmantissa := mantissa_le hpos hd (le_max_left (log2Div num den - 52) (-1074))
    refine Nat.lt_of_le_of_lt (Nat.min_le_left _ _) ?_
    have hplace : (max (log2Div num den - 52) (-1074) + 1074).toNat ≤ 2044 := by omega
    have hscaled := Nat.mul_le_mul_right (Nat.pow 2 52) hplace
    exact Nat.lt_of_le_of_lt (Nat.add_le_add hscaled hmantissa) (by decide)

/-- A quotient that is too small becomes zero. -/
theorem nearestBits_of_small {num den k : Nat} (hk : 1075 ≤ k) (h : num * 2 ^ k < den) :
    nearestBits num den = 0 := by
  by_cases hn : num = 0
  · rw [nearestBits, if_pos hn]
  have hq : max (log2Div num den - 52) (-1074) = -1074 := by
    have hlog := log2Div_lt (Nat.pos_of_ne_zero hn) h
    omega
  have hm : ∀ p, p + 1 ≤ k → roundDiv (num * Nat.pow 2 p) (den * Nat.pow 2 0) = 0 := fun p hp =>
    roundDiv_eq_zero <| by
      calc 2 * (num * 2 ^ p) = num * 2 ^ (p + 1) := by rw [pow_succ]; ring
        _ ≤ num * 2 ^ k := Nat.mul_le_mul_left num (Nat.pow_le_pow_right Nat.two_pos hp)
        _ < den := h
        _ = den * Nat.pow 2 0 := (Nat.mul_one den).symm
  rw [nearestBits, if_neg hn]
  dsimp only
  rw [hq, show (-(-1074) : Int).toNat = 1074 from rfl, show (-1074 : Int).toNat = 0 from rfl,
    hm 1074 hk]
  rfl

end Binary64

/-! ## Decimals -/

namespace Decimal

theorem two_pow_le_ten_pow (n : Nat) : 2 ^ (3 * n) ≤ 10 ^ n := by
  rw [pow_mul]
  exact Nat.pow_le_pow_left (by decide) n

/-- **The tests for large powers change nothing.** -/
theorem magnitudeBits_eq (d : Decimal) :
    d.magnitudeBits = Binary64.nearestBits (d.coefficient * 10 ^ d.exponent.toNat)
      (10 ^ (-d.exponent).toNat) := by
  unfold magnitudeBits
  split
  next hzero => rw [hzero, Nat.zero_mul, Binary64.nearestBits, if_pos rfl]
  next hpos =>
    split
    next hlarge =>
      -- a coefficient of one is enough for infinity
      refine (Binary64.nearestBits_of_large (k := 3 * d.exponent.toNat) (Nat.pow_pos (by decide))
        (by omega) ?_).symm
      rw [show (-d.exponent).toNat = 0 by omega, pow_zero, Nat.one_mul]
      exact Nat.le_trans (two_pow_le_ten_pow _)
        (Nat.le_mul_of_pos_left _ (Nat.pos_of_ne_zero hpos))
    next =>
      split
      next hsmall =>
        let digits := d.coefficient.log2 + 1
        let k := (-d.exponent).toNat - digits
        refine (Binary64.nearestBits_of_small (k := 3 * k) (by omega) ?_).symm
        rw [show d.exponent.toNat = 0 by omega, pow_zero, Nat.mul_one]
        calc d.coefficient * 2 ^ (3 * k)
            < 2 ^ digits * 2 ^ (3 * k) :=
              Nat.mul_lt_mul_of_pos_right Nat.lt_log2_self (Nat.two_pow_pos _)
          _ ≤ 10 ^ digits * 10 ^ k :=
            Nat.mul_le_mul (Nat.pow_le_pow_left (by decide) _) (two_pow_le_ten_pow k)
          _ = 10 ^ (digits + k) := (pow_add _ _ _).symm
          _ ≤ 10 ^ (-d.exponent).toNat := Nat.pow_le_pow_right (by decide) (by omega)
      next => rfl

/-- Zeros at the end of the coefficient can be moved to the exponent. -/
theorem magnitudeBits_pad (c k : Nat) (e : Int) :
    (Decimal.mk (c * 10 ^ k) (e - k)).magnitudeBits = (Decimal.mk c e).magnitudeBits := by
  rw [magnitudeBits_eq, magnitudeBits_eq]
  refine Binary64.nearestBits_congr (Nat.pow_pos (by decide)) (Nat.pow_pos (by decide)) ?_
  dsimp only
  rw [Nat.mul_assoc, Nat.mul_assoc, Nat.mul_assoc, ← pow_add, ← pow_add, ← pow_add]
  congr 2
  omega

end Decimal

/-! ## Finite numbers -/

namespace Binary64

/-- An encoding is put together from its three parts. -/
theorem packComponents_unpack (b : BitVec 64) :
    packComponents .binary64 (Sign.ofBitVec (@unpackSign .binary64 b)) (@unpackExponent .binary64 b)
      (@unpackMantissa .binary64 b) = b := by
  have hsign : ∀ v : BitVec 1, (Sign.ofBitVec v).toBitVec = v := by decide
  have happend :
      (b.extractLsb 63 63 ++ b.extractLsb 62 52 ++ b.extractLsb 51 0 : BitVec 64) = b := by
    refine BitVec.eq_of_getLsbD_eq fun i hi => ?_
    rw [BitVec.getLsbD_append, BitVec.getLsbD_append]
    simp only [BitVec.getLsbD_extractLsb]
    split
    · simp
      omega
    · split
      · rw [show 52 + (i - (51 - 0 + 1)) = i by omega]
        simp
        omega
      · rw [show 63 + (i - (51 - 0 + 1) - (62 - 52 + 1)) = i by omega]
        simp
        omega
  rw [packComponents, hsign]
  exact happend

/-- Unpacking and packing give back an encoding whose exponent is not the greatest. -/
theorem pack_unpack_packComponents {s : Sign} {e : BitVec 11} {m : BitVec 52} (h : e ≠ -1#11) :
    UnpackedFloat.pack .binary64 (UnpackedFloat.unpack .binary64 (packComponents .binary64 s e m)) =
      packComponents .binary64 s e m := by
  have hsign : Sign.ofBitVec s.toBitVec = s := by cases s <;> rfl
  have hm := m.isLt
  simp only [UnpackedFloat.unpack, UnpackedFloat.unpackExponent_packComponents,
    UnpackedFloat.unpackMantissa_packComponents, unpackSign_packComponents, hsign]
  rw [if_neg h]
  by_cases he : e = 0#11
  · subst he
    rw [if_pos rfl]
    by_cases hzero : m = 0#52
    · subst hzero
      rw [dif_pos rfl]
      rfl
    · have hshort : m.toNat.log2 + 1 ≠ Format.binary64.mantissaBits := by
        have hlog := (Nat.log2_lt fun h0 => hzero (BitVec.eq_of_toNat_eq h0)).mpr hm
        exact (Nat.succ_lt_succ hlog).ne
      rw [dif_neg hzero]
      simp only [UnpackedFloat.pack]
      rw [if_neg (by decide), if_neg hshort, BitVec.ofNat_toNat]
      rfl
  · have hmantissa : (1#1 ++ m).toNat = 2 ^ 52 + m.toNat := by
      rw [BitVec.toNat_append, ← Nat.shiftLeft_add_eq_or_of_lt hm]
      rfl
    have hlong : (1#1 ++ m).toNat.log2 + 1 = Format.binary64.mantissaBits := by
      rw [hmantissa, (Nat.log2_eq_iff (by omega)).mpr (show 2 ^ 52 ≤ _ ∧ _ < 2 ^ (52 + 1) by omega)]
      rfl
    have hbias : ((e.toNat : Int) - (Format.binary64.exponentBias + (52 : Nat)) +
        Format.binary64.exponentBias + (52 : Nat)).toNat = e.toNat := by omega
    have hfits : ¬ 2 ^ 11 ≤ e.toNat + 1 := by
      have hne : e.toNat ≠ 2047 := fun h0 => h (BitVec.eq_of_toNat_eq h0)
      omega
    rw [if_neg he]
    simp only [UnpackedFloat.pack]
    rw [hbias, if_neg hfits, if_pos hlong, BitVec.ofNat_toNat, hmantissa]
    congr 1
    refine BitVec.eq_of_toNat_eq ?_
    simpa using hm

/-- The parts of the encoding of a finite number. -/
theorem bits_of_ofFloat {x : Float} {negative : Bool} {m : Nat} {e : Int}
    (h : ofFloat x = .finite negative m e) :
    negative = decide (2 ^ 63 ≤ x.toBits.toNat) ∧ m < 2 ^ 53 ∧ -1074 ≤ e ∧ e ≤ 971 ∧
      (e = -1074 ∨ 2 ^ 52 ≤ m) ∧ (e + 1074).toNat * 2 ^ 52 + m = x.toBits.toNat % 2 ^ 63 := by
  have hsplit := Nat.div_add_mod (x.toBits.toNat % 2 ^ 63) (2 ^ 52)
  have hexponent : x.toBits.toNat % 2 ^ 63 / 2 ^ 52 = x.toBits.toNat / 2 ^ 52 % 2048 := by omega
  have hfraction : x.toBits.toNat % 2 ^ 63 % 2 ^ 52 = x.toBits.toNat % 2 ^ 52 := by omega
  rw [hexponent, hfraction] at hsplit
  simp only [ofFloat, ofBits, Nat.pow_eq] at h
  split at h
  next => split at h <;> exact absurd h (by simp)
  next =>
    split at h
    next hzero =>
      obtain ⟨rfl, rfl, rfl⟩ := Binary64.finite.inj h
      rw [hzero] at hsplit
      refine ⟨by simp, ?_, ?_, ?_, Or.inl rfl, ?_⟩
      · omega
      · omega
      · omega
      · rw [← hsplit, show ((-1074 : Int) + 1074).toNat = 0 from rfl, Nat.zero_mul, Nat.mul_zero]
    next hpos =>
      obtain ⟨rfl, rfl, rfl⟩ := Binary64.finite.inj h
      refine ⟨by simp, ?_, ?_, ?_, Or.inr ?_, ?_⟩ <;> omega

/-- Packing undoes unpacking unless the exponent is the greatest. -/
theorem pack_unpack {b : BitVec 64} (h : @unpackExponent .binary64 b ≠ -1#11) :
    UnpackedFloat.pack .binary64 (UnpackedFloat.unpack .binary64 b) = b := by
  have hparts := packComponents_unpack b
  rw [← hparts]
  exact pack_unpack_packComponents h

/-- The exponent of a magnitude below infinity is not the greatest. -/
theorem unpackExponent_ne {b : BitVec 64} (h : b.toNat % 2 ^ 63 < infinityBits) :
    @unpackExponent .binary64 b ≠ -1#11 := by
  have hinfinity : infinityBits = 2047 * 2 ^ 52 := rfl
  have hexponent : (@unpackExponent .binary64 b).toNat = b.toNat / 2 ^ 52 % 2 ^ 11 := by
    simp [unpackExponent, Nat.shiftRight_eq_div_pow]
  intro hones
  have hgreatest : b.toNat / 2 ^ 52 % 2 ^ 11 = 2047 := hexponent ▸ congrArg BitVec.toNat hones
  omega

/-- A finite number is encoded anew by its bits. -/
theorem ofBits_toBits {x : Float} (h : x.toBits.toNat % 2 ^ 63 < infinityBits) :
    Float.ofBits x.toBits = x := by
  have hpack := pack_unpack (unpackExponent_ne (b := x.toBits.toBitVec) h)
  obtain ⟨⟨bits, valid⟩⟩ := x
  refine congrArg Float.ofModel ?_
  simp only [Float.Model.ofBits, Float.Model.pack, Float.Model.mk.injEq]
  exact congrArg UInt64.ofBitVec hpack

/-- What is encoded by a sign and a magnitude below infinity is finite. -/
theorem isFinite_ofSignedBits {negative : Bool} {bits : Nat} (h : bits < infinityBits) :
    (ofSignedBits negative bits).isFinite = true := by
  have hinfinity : infinityBits = 2047 * 2 ^ 52 := rfl
  let b : BitVec 64 := BitVec.ofNat 64 (bits + if negative then Nat.pow 2 63 else 0)
  have hmagnitude : b.toNat % 2 ^ 63 < infinityBits := by
    have hsign : Nat.pow 2 63 = 2 ^ 63 := rfl
    rw [BitVec.toNat_ofNat, hsign]
    split <;> omega
  have hne := unpackExponent_ne hmagnitude
  have hunpack : (UnpackedFloat.unpack .binary64 b).isFinite = true := by
    simp only [UnpackedFloat.unpack]
    rw [if_neg hne]
    split
    · split <;> rfl
    · rfl
  rw [← pack_unpack hne] at hunpack
  exact hunpack

/-- The exact value of a finite number has the number itself as the nearest one. -/
theorem nearestBits_of_ofFloat {x : Float} {negative : Bool} {m : Nat} {e : Int}
    (h : ofFloat x = .finite negative m e) :
    nearestBits (m * 2 ^ e.toNat) (2 ^ (-e).toNat) = x.toBits.toNat % 2 ^ 63 := by
  obtain ⟨-, hm, hlow, hhigh, hnormal, hbits⟩ := bits_of_ofFloat h
  by_cases hzero : m = 0
  · subst hzero
    rw [Nat.zero_mul, nearestBits, if_pos rfl]
    omega
  have hpos : 0 < m := Nat.pos_of_ne_zero hzero
  have hnum : 0 < m * 2 ^ e.toNat := Nat.mul_pos hpos (Nat.two_pow_pos _)
  -- the exponent of the last place is the exponent of the number
  have hlog : log2Div (m * 2 ^ e.toNat) (2 ^ (-e).toNat) = m.log2 + e := by
    have hvalue : ((m * 2 ^ e.toNat : Nat) : ℚ) / (2 ^ (-e).toNat : Nat) = m * 2 ^ e := by
      rw [zpow_eq_div two_ne_zero]
      push_cast
      rw [mul_div_assoc]
    have hbetween := log2_between hpos
    have hpow : (0 : ℚ) < 2 ^ e := zpow_pos two_pos e
    rw [log2Div_eq_log hnum (Nat.two_pow_pos _), hvalue, eq_comm]
    refine eq_log_of_between ?_ ?_
    · rw [zpow_add₀ two_ne_zero]
      exact mul_le_mul_of_nonneg_right hbetween.1 hpow.le
    · rw [show (m.log2 : Int) + e + 1 = m.log2 + 1 + e by omega, zpow_add₀ two_ne_zero]
      exact mul_lt_mul_of_pos_right hbetween.2 hpow
  have hq : max (m.log2 + e - 52) (-1074) = e := by
    have hshort := (Nat.log2_lt hzero).mpr hm
    rcases hnormal with rfl | hlong
    · omega
    · have hlong := (Nat.le_log2 hzero).mpr hlong
      omega
  have hround : roundDiv (m * 2 ^ e.toNat * Nat.pow 2 (-e).toNat)
      (2 ^ (-e).toNat * Nat.pow 2 e.toNat) = m := by
    rw [Nat.mul_assoc, Nat.mul_comm (2 ^ (-e).toNat)]
    exact roundDiv_mul_self (Nat.mul_pos (Nat.two_pow_pos _) (Nat.two_pow_pos _)) m
  rw [nearestBits, if_neg hnum.ne', hlog]
  dsimp only
  rw [hq, hround]
  refine (Nat.min_eq_left ?_).trans hbits
  rw [show infinityBits = 2047 * 2 ^ 52 from rfl, Nat.pow_eq]
  omega

/-- **The exact value of a finite number brings the number back.** -/
theorem ofSignedBits_nearestBits {x : Float} {negative : Bool} {m : Nat} {e : Int}
    (h : ofFloat x = .finite negative m e) :
    ofSignedBits negative (nearestBits (m * 2 ^ e.toNat) (2 ^ (-e).toNat)) = x := by
  obtain ⟨rfl, hm, hlow, hhigh, hnormal, hbits⟩ := bits_of_ofFloat h
  have hinfinity : infinityBits = 2047 * 2 ^ 52 := rfl
  have hfinite : x.toBits.toNat % 2 ^ 63 < infinityBits := by omega
  have hencoding : x.toBits.toNat % 2 ^ 63 +
      (if decide (2 ^ 63 ≤ x.toBits.toNat) = true then Nat.pow 2 63 else 0) = x.toBits.toNat := by
    have hlt := x.toBits.toNat_lt
    rw [Nat.pow_eq]
    simp only [decide_eq_true_eq]
    split <;> omega
  rw [nearestBits_of_ofFloat h, ofSignedBits, hencoding, UInt64.ofNat_toNat]
  exact ofBits_toBits hfinite

end Binary64

end Styling
