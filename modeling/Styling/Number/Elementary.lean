import Styling.Number.Binary64

/-!
# Elementary functions with their faults

The trigonometric functions have no value at infinity, and a power of finite numbers that leaves the
range is a fault instead of an infinity.
-/

namespace Styling.Elementary

/-- The number π. -/
def pi : Float := 3.141592653589793

/-- The number 2π. -/
def tau : Float := 6.283185307179586

/-- Apply a function that has no value at infinity. -/
def finiteOnly (f : Float → Float) (x : Float) : Except Fault Float :=
  if x.isInf then .error .domain else .ok (f x)

/-- The sine of an angle in radians. -/
def sin (x : Float) : Except Fault Float := finiteOnly Float.sin x

/-- The cosine of an angle in radians. -/
def cos (x : Float) : Except Fault Float := finiteOnly Float.cos x

/-- The tangent of an angle in radians. -/
def tan (x : Float) : Except Fault Float := finiteOnly Float.tan x

/-- A power; finite numbers must have a finite power. -/
def pow (x y : Float) : Except Fault Float :=
  let z := Float.pow x y
  if z.isInf && x.isFinite && y.isFinite then .error .overflow else .ok z

/-- A quotient; the divisor must not be zero. -/
def div (x y : Float) : Except Fault Float :=
  if y == 0.0 then .error .divisionByZero else .ok (x / y)

/-- The magnitude of the first number with the sign of the second. -/
def copySign (magnitude sign : Float) : Float :=
  let negative := decide (Nat.pow 2 63 ≤ sign.toBits.toNat)
  if negative then -magnitude.abs else magnitude.abs

/-- The length of a vector, computed without leaving the range on the way. -/
def hypot (x y : Float) : Float :=
  let a := x.abs
  let b := y.abs
  if a.isInf || b.isInf then 1.0 / 0.0
  else if a.isNaN || b.isNaN then 0.0 / 0.0
  else
    let m := larger a b
    if m == 0.0 then 0.0 else m * ((a / m) * (a / m) + (b / m) * (b / m)).sqrt

/-- An angle in degrees taken to radians. -/
def radians (x : Float) : Float := x * (pi / 180.0)

/-- An angle in radians taken to degrees. -/
def degrees (x : Float) : Float := x * (180.0 / pi)

end Styling.Elementary
