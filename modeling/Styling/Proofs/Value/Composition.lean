import Mathlib.Algebra.Ring.Defs
import Mathlib.Algebra.Order.Field.Rat
import Mathlib.Tactic.Abel
import Styling.Number.Binary64
import Styling.Value.Affine

/-!
# Composing affine maps

Over scalars that obey the laws of arithmetic, which binary64 does not, affine maps are a monoid
that acts on the points of the plane.

* `Affine.before_assoc`, `Affine.identity_before` and `Affine.before_identity` are the laws of the
  monoid.
* `Affine.apply_before` says that a composed map applies its maps in turn, and
  `Affine.apply_compose` says it of a list.
* `Affine.compose_append` is about two lists one behind the other.
-/

namespace Styling

/-- The rational number that a finite binary64 number is. -/
def Binary64.exactly (x : Float) : ℚ :=
  match ofFloat x with
  | finite negative mantissa exponent => (if negative then -1 else 1) * mantissa * 2 ^ exponent
  | nan | infinite _ => 0

namespace Affine

variable {R : Type} [Semiring R]

/-- A map read over other scalars, entry by entry. -/
def map {α β : Type} (value : α → β) (m : Affine α) : Affine β :=
  ⟨value m.a, value m.b, value m.c, value m.d, value m.e, value m.f⟩

/-! ## The monoid -/

theorem before_assoc (l m n : Affine R) : (l.before m).before n = l.before (m.before n) := by
  simp only [before, mk.injEq, mul_add, add_mul, mul_assoc]
  refine ⟨?_, ?_, ?_, ?_, ?_, ?_⟩ <;> abel

@[simp] theorem identity_before (m : Affine R) : identity.before m = m := by
  simp [before, identity]

@[simp] theorem before_identity (m : Affine R) : m.before identity = m := by
  simp [before, identity]

/-! ## The action on points -/

@[simp] theorem apply_identity (x y : R) : (identity : Affine R).apply x y = (x, y) := by
  simp [apply, identity]

/-- **A composed map applies the one map and then the other.** -/
theorem apply_before (m n : Affine R) (x y : R) :
    (m.before n).apply x y = n.apply (m.apply x y).1 (m.apply x y).2 := by
  simp only [apply, before, Prod.mk.injEq, mul_add, add_mul, mul_assoc]
  constructor <;> abel

/-! ## Lists of maps -/

/-- The composition of maps that are read over other scalars. -/
def composeOver {α β : Type} [Add β] [Mul β] [OfNat β 0] [OfNat β 1] (value : α → β)
    (ms : List (Affine α)) : Affine β :=
  compose (ms.map (map value))

/-- Composing goes on from any map. -/
theorem foldl_before (m : Affine R) (ms : List (Affine R)) :
    ms.foldl before m = m.before (compose ms) := by
  induction ms generalizing m with
  | nil => exact (before_identity m).symm
  | cons n ms ih =>
    rw [compose, List.foldl_cons, List.foldl_cons, ih, ih, identity_before, before_assoc]

theorem compose_append (ms ns : List (Affine R)) :
    compose (ms ++ ns) = (compose ms).before (compose ns) := by
  rw [compose, List.foldl_append, foldl_before]
  rfl

/-- **The composition of maps applies them in turn**, the first one first. -/
theorem apply_compose (ms : List (Affine R)) (x y : R) :
    (compose ms).apply x y = ms.foldl (fun p m => m.apply p.1 p.2) (x, y) := by
  induction ms generalizing x y with
  | nil => exact apply_identity x y
  | cons m ms ih =>
    rw [List.foldl_cons, ← ih, ← apply_before, compose, List.foldl_cons, identity_before,
      foldl_before]

theorem composeOver_append {α : Type} (value : α → R) (ms ns : List (Affine α)) :
    composeOver value (ms ++ ns) = (composeOver value ms).before (composeOver value ns) := by
  rw [composeOver, List.map_append, compose_append]
  rfl

theorem apply_composeOver {α : Type} (value : α → R) (ms : List (Affine α)) (x y : R) :
    (composeOver value ms).apply x y =
      ms.foldl (fun p m => (m.map value).apply p.1 p.2) (x, y) := by
  rw [composeOver, apply_compose, List.foldl_map]

/-- A move by ten and then a scaling by two, not the other way round. -/
example :
    (composeOver Binary64.exactly [.shift 10.0 0.0, .scaling 2.0 2.0]).apply 1 2 = (22, 4) := by
  decide +kernel

end Affine

end Styling
