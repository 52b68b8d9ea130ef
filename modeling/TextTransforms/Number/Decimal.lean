import TextTransforms.Number.Numeral

/-!
# Decimals

A decimal is `digits * 10 ^ exponent`, exact; it is rounded once, when it becomes
a floating-point number.
-/

namespace TextTransforms

structure Decimal where
  digits : Nat
  exponent : Int
  deriving DecidableEq, Repr

namespace Decimal

/-- The decimal written `whole.fraction`; either text of digits may be empty. -/
def ofDigits (whole fraction : Text) : Decimal :=
  ⟨Numeral.value (whole ++ fraction), -(fraction.length : Int)⟩

/-- The nearest floating-point number, a tie going to the even one. -/
def toFloat (d : Decimal) : Float :=
  Float.ofScientific d.digits (decide (d.exponent < 0)) d.exponent.natAbs

end Decimal

end TextTransforms
