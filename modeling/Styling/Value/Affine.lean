import Styling.Number.Decimal

/-!
# Affine maps of the plane

The matrix `[a b c d e f]` maps `(x, y)` to `(a x + c y + e, b x + d y + f)`.  Maps are composed
from left to right: `m.before n` applies `m` first.

The matrix and its operations are stated over any scalar with addition and multiplication; a style
uses them over binary64.
-/

namespace Styling

/-- An affine map of the plane. -/
structure Affine (α : Type) where
  a : α
  b : α
  c : α
  d : α
  e : α
  f : α
  deriving BEq, DecidableEq, Repr

namespace Affine

variable {α : Type}

/-- The map that moves nothing. -/
def identity [OfNat α 0] [OfNat α 1] : Affine α := ⟨1, 0, 0, 1, 0, 0⟩

/-- The map that applies `m` first and `n` second. -/
def before [Add α] [Mul α] (m n : Affine α) : Affine α :=
  ⟨n.a * m.a + n.c * m.b, n.b * m.a + n.d * m.b, n.a * m.c + n.c * m.d, n.b * m.c + n.d * m.d,
    n.a * m.e + n.c * m.f + n.e, n.b * m.e + n.d * m.f + n.f⟩

/-- The image of a point. -/
def apply [Add α] [Mul α] (m : Affine α) (x y : α) : α × α :=
  (m.a * x + m.c * y + m.e, m.b * x + m.d * y + m.f)

/-- The map that applies the given maps in order. -/
def compose [Add α] [Mul α] [OfNat α 0] [OfNat α 1] (ms : List (Affine α)) : Affine α :=
  ms.foldl before identity

/-- The move by a vector. -/
def shift [OfNat α 0] [OfNat α 1] (x y : α) : Affine α := ⟨1, 0, 0, 1, x, y⟩

/-- The scaling along the axes. -/
def scaling [OfNat α 0] (x y : α) : Affine α := ⟨x, 0, 0, y, 0, 0⟩

/-- The rotation by the angle with the given sine and cosine. -/
def rotation [Neg α] [OfNat α 0] (sin cos : α) : Affine α := ⟨cos, sin, -sin, cos, 0, 0⟩

/-- The skew by the angles with the given tangents. -/
def skewing [OfNat α 0] [OfNat α 1] (tanX tanY : α) : Affine α := ⟨1, tanY, tanX, 1, 0, 0⟩

/-- The entries in order. -/
def entries (m : Affine α) : List α := [m.a, m.b, m.c, m.d, m.e, m.f]

/-- The matrix of six entries. -/
def ofEntries? : List α → Option (Affine α)
  | [a, b, c, d, e, f] => some ⟨a, b, c, d, e, f⟩
  | _ => none

/-- The tolerance for comparing matrices. -/
def defaultTolerance : Float := 1e-9

/-- Corresponding entries of two matrices agree up to a tolerance, which may not be negative. -/
def isClose (m n : Affine Float) (tolerance : Float) : Except Fault Bool :=
  if tolerance < 0.0 then .error .domain
  else .ok ((m.entries.zip n.entries).all fun p => Binary64.isClose p.1 p.2 tolerance)

/-- A map as it stands in a style. -/
def css (m : Affine Float) : String :=
  if m == identity then "none"
  else "matrix(" ++ String.intercalate ", " (m.entries.map literal) ++ ")"

end Affine

end Styling
