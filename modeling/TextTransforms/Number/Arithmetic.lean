import TextTransforms.Number.Dyadic

/-!
# Operations on floating-point numbers

Operations that the core library lacks. Remainder and rounding to zero are exact;
the hypotenuse is corrected once after the square root, and scaled where squares
would overflow or underflow.
-/

namespace TextTransforms.Number

/-- The remainder of the division that rounds to zero; it has the sign of `x`. -/
def rem (x y : Float) : Float :=
  if x.isNaN || y.isNaN || x.isInf || y == 0 then 0 / 0
  else if y.isInf || x == 0 then x
  else
    let r := ((Dyadic.ofFloat x).rem (Dyadic.ofFloat y)).toFloat
    if x < 0 then -r else r

/-- Rounds to zero. -/
def trunc (x : Float) : Float := if x < 0 then x.ceil else x.floor

/-- Rounds to the nearest integer, halves up. -/
def round (x : Float) : Float := (x + 0.5).floor

/-- One with the sign of `x`; zeros and NaN stay. -/
def sign (x : Float) : Float := if x > 0 then 1 else if x < 0 then -1 else x

/-- The greater number; NaN counts as absent, and of equal numbers the first is taken. -/
def max (x y : Float) : Float := if x.isNaN || y > x then y else x

/-- The lesser number; NaN counts as absent, and of equal numbers the first is taken. -/
def min (x y : Float) : Float := if x.isNaN || y < x then y else x

/-! ## The hypotenuse -/

/-- The hypotenuse of a triangle with the legs `a ≥ b`, where neither square
overflows or underflows: the root of the sum of squares less its error. -/
def hypotKernel (a b : Float) : Float :=
  let h := (a * a + b * b).sqrt
  let error :=
    if h ≤ 2 * b then
      let d := h - b
      a * (2 * d - a) + (d - 2 * (a - b)) * d
    else
      let d := h - a
      2 * d * (a - 2 * b) + ((4 * d - b) * b + d * d)
  h - error / (2 * h)

/-- Legs above this are scaled down. -/
def hypotLarge : Float := Float.scaleB 1 511

/-- Legs below this are scaled up. -/
def hypotTiny : Float := Float.scaleB 1 (-459)

def hypotScale : Float := Float.scaleB 1 (-600)

/-- A leg shorter than the other by this factor does not count. -/
def hypotEpsilon : Float := Float.scaleB 1 (-54)

/-- The length of the vector `(x, y)`; infinite if one part is. -/
def hypot (x y : Float) : Float :=
  if x.isInf || y.isInf then 1 / 0
  else if x.isNaN || y.isNaN then x + y
  else
    let a := if x.abs < y.abs then y.abs else x.abs
    let b := if x.abs < y.abs then x.abs else y.abs
    if a > hypotLarge then
      if b ≤ a * hypotEpsilon then a + b
      else hypotKernel (a * hypotScale) (b * hypotScale) / hypotScale
    else if b < hypotTiny then
      if a ≥ b / hypotEpsilon then a + b
      else hypotKernel (a / hypotScale) (b / hypotScale) * hypotScale
    else if b ≤ a * hypotEpsilon then a + b
    else hypotKernel a b

end TextTransforms.Number
