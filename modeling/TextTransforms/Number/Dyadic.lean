/-!
# Dyadics

The magnitude of a finite floating-point number as `mantissa * 2 ^ exponent`.
Operations that have to be exact are done on it.
-/

namespace TextTransforms

structure Dyadic where
  mantissa : Nat
  exponent : Int
  deriving DecidableEq, Repr

namespace Dyadic

/-- The exponent of the least floating-point numbers. -/
def minExponent : Int := -1074

/-- The magnitude of a finite number. -/
def ofFloat (x : Float) : Dyadic :=
  let bits : Nat := x.toBits.toNat
  let biased : Nat := bits / Nat.pow 2 52 % Nat.pow 2 11
  let fraction : Nat := bits % Nat.pow 2 52
  if biased = 0 then ⟨fraction, minExponent⟩
  else ⟨Nat.pow 2 52 + fraction, biased + minExponent - 1⟩

/-- The number with this magnitude; exact if it has one. -/
def toFloat (d : Dyadic) : Float := (Float.ofNat d.mantissa).scaleB d.exponent

/-- The mantissa when the exponent is lowered to `exponent`. -/
def mantissaAt (d : Dyadic) (exponent : Int) : Nat :=
  d.mantissa * Nat.pow 2 (d.exponent - exponent).toNat

/-- The remainder of the division that rounds to zero. -/
def rem (a b : Dyadic) : Dyadic :=
  let exponent := min a.exponent b.exponent
  ⟨a.mantissaAt exponent % b.mantissaAt exponent, exponent⟩

end Dyadic

end TextTransforms
