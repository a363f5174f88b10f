import Mathlib.Algebra.Group.ModEq
import Mathlib.Algebra.Order.Floor.Ring
import Mathlib.Analysis.Convex.Segment
import Mathlib.Data.Rat.Floor
import Mathlib.Tactic.Linarith
import Styling.Color.Space

/-!
# The arc between two hues

Over scalars that obey the laws of arithmetic, the two hues that a mixture goes between are the
given ones up to full turns, and the way from the first to the second is the arc that the direction
names: at most half a turn, at least half a turn, or less than a turn up or down.  The hue of a
mixture starts at the first of them, ends at the second and meets every hue between them.

* `Hue.wrap` reduces a hue into one turn, and `HueDirection.spans` are the differences that the ends
  of an arc may have.
* `HueDirection.adjust_modEq` and `HueDirection.sub_adjust_mem_spans` are about the ends, for any
  reduction into one turn.
* `Color.image_blend` is about all values between two values.
* `Color.blendHues_sweeps` puts them together.
-/

namespace Styling

open AddCommGroup

/-- The differences, in degrees, between the ends of an arc of a direction. -/
def HueDirection.spans {α : Type} [Field α] [LinearOrder α] : HueDirection → Set α
  | shorter => Set.Icc (-180) 180
  | longer => Set.Icc (-360) (-180) ∪ Set.Icc 180 360
  | increasing => Set.Ico 0 360
  | decreasing => Set.Ioc (-360) 0

/-- A hue in degrees reduced into one turn. -/
def Hue.wrap {α : Type} [Field α] [LinearOrder α] [FloorRing α] (h : α) : α :=
  h - ⌊h / 360⌋ * 360

variable {α : Type} [Field α] [LinearOrder α] [IsStrictOrderedRing α]

namespace Hue

variable [FloorRing α]

omit [IsStrictOrderedRing α] in
/-- The reduction takes whole turns off. -/
theorem wrap_modEq (h : α) : wrap h ≡ h [PMOD 360] := by
  rw [modEq_iff_zsmul]
  refine ⟨⌊h / 360⌋, ?_⟩
  rw [wrap, zsmul_eq_mul, sub_sub_cancel]

theorem wrap_mem (h : α) : wrap h ∈ Set.Ico 0 360 :=
  ⟨Int.sub_floor_div_mul_nonneg h (by norm_num), Int.sub_floor_div_mul_lt h (by norm_num)⟩

end Hue

namespace HueDirection

variable {wrap : α → α} (direction : HueDirection) (first second : α)

/-- A hue may be moved by a turn after the reduction, and no further. -/
theorem adjust_modEq (hwrap : ∀ h, wrap h ≡ h [PMOD 360]) :
    (direction.adjust wrap first second).1 ≡ first [PMOD 360] ∧
      (direction.adjust wrap first second).2 ≡ second [PMOD 360] := by
  have hturn : ∀ h, wrap h + 360 ≡ h [PMOD 360] := fun h => by
    simpa using (hwrap h).add_nsmul 1
  have hfirst : (direction.adjust wrap first second).1 = wrap first ∨
      (direction.adjust wrap first second).1 = wrap first + 360 := by
    cases direction <;> simp only [adjust] <;> split_ifs <;> simp
  have hsecond : (direction.adjust wrap first second).2 = wrap second ∨
      (direction.adjust wrap first second).2 = wrap second + 360 := by
    cases direction <;> simp only [adjust] <;> split_ifs <;> simp
  constructor
  · rcases hfirst with h | h <;> rw [h]
    · exact hwrap first
    · exact hturn first
  · rcases hsecond with h | h <;> rw [h]
    · exact hwrap second
    · exact hturn second

/-- **The way from the first hue to the second is an arc of the direction.** -/
theorem sub_adjust_mem_spans (hwrap : ∀ h, wrap h ∈ Set.Ico 0 360) :
    (direction.adjust wrap first second).2 - (direction.adjust wrap first second).1 ∈
      direction.spans := by
  obtain ⟨hfirst, hfirst'⟩ := hwrap first
  obtain ⟨hsecond, hsecond'⟩ := hwrap second
  cases direction with
  | shorter =>
    simp only [adjust, spans, Set.mem_Icc]
    split_ifs with habove hbelow
    · constructor <;> linarith
    · constructor <;> linarith
    · exact ⟨not_lt.mp hbelow, not_lt.mp habove⟩
  | longer =>
    simp only [adjust, spans, Set.mem_union, Set.mem_Icc]
    split_ifs with hshort hshort'
    · exact Or.inl ⟨by linarith, by linarith⟩
    · exact Or.inr ⟨by linarith, by linarith⟩
    · -- neither hue is moved, since the difference is half a turn or more
      by_cases hpos : 0 < wrap second - wrap first
      · exact Or.inr ⟨not_lt.mp fun h => hshort ⟨hpos, h⟩, by linarith⟩
      · exact Or.inl ⟨by linarith, not_lt.mp fun h => hshort' ⟨h, hpos⟩⟩
  | increasing =>
    simp only [adjust, spans, Set.mem_Ico]
    split_ifs with hless
    · constructor <;> linarith
    · exact ⟨sub_nonneg.mpr (not_lt.mp hless), by linarith⟩
  | decreasing =>
    simp only [adjust, spans, Set.mem_Ioc]
    split_ifs with hless
    · constructor <;> linarith
    · exact ⟨by linarith, sub_nonpos.mpr (not_lt.mp hless)⟩

end HueDirection

namespace Color

/-- The values blended from two values are those between them. -/
theorem image_blend (x y : α) : blend x y '' Set.Icc 0 1 = Set.uIcc x y := by
  have hblend : blend x y = fun t => x + t • (y - x) := by
    funext t
    rw [blend, smul_eq_mul, mul_comm]
  rw [hblend, ← segment_eq_image', segment_eq_uIcc]

/-- **A mixture sweeps the arc that the direction names**: it goes from one hue that is the first to
one that is the second, up to full turns, their difference is one of the direction, and it meets
every hue between them. -/
theorem blendHues_sweeps [FloorRing α] (direction : HueDirection) (first second : α) :
    let arc := direction.adjust Hue.wrap first second
    let hue := blendHues Hue.wrap direction first second
    (arc.1 ≡ first [PMOD 360] ∧ arc.2 ≡ second [PMOD 360]) ∧
      arc.2 - arc.1 ∈ direction.spans ∧
      (hue 0 = arc.1 ∧ hue 1 = arc.2) ∧ hue '' Set.Icc 0 1 = Set.uIcc arc.1 arc.2 := by
  intro arc hue
  have hmodEq := direction.adjust_modEq first second Hue.wrap_modEq
  have hspan := direction.sub_adjust_mem_spans first second Hue.wrap_mem
  have hends : hue 0 = arc.1 ∧ hue 1 = arc.2 := by
    simp only [hue, blendHues, blend]
    constructor
    · ring
    · ring
  exact ⟨hmodEq, hspan, hends, image_blend arc.1 arc.2⟩

/-- Between equal hues the longer way is a full turn. -/
theorem blendHues_sweeps_full_turn :
    IsStrictOrderedRing ℚ ∧ HueDirection.longer.adjust Hue.wrap (-90 : ℚ) 990 = (270, 630) ∧
      (((270 : ℚ) ≡ -90 [PMOD 360] ∧ (630 : ℚ) ≡ 990 [PMOD 360]) ∧
        (630 : ℚ) - 270 ∈ HueDirection.longer.spans ∧
        (blendHues Hue.wrap .longer (-90 : ℚ) 990 0 = 270 ∧
          blendHues Hue.wrap .longer (-90 : ℚ) 990 1 = 630) ∧
        blendHues Hue.wrap .longer (-90 : ℚ) 990 '' Set.Icc 0 1 = Set.uIcc 270 630) := by
  have harc : HueDirection.longer.adjust Hue.wrap (-90 : ℚ) 990 = (270, 630) := by
    decide +kernel
  have hsweeps := blendHues_sweeps .longer (-90 : ℚ) 990
  rw [harc] at hsweeps
  exact ⟨inferInstance, harc, hsweeps⟩

end Color

end Styling
