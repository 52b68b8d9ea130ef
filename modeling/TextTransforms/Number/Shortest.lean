import TextTransforms.Number.Decimal
import TextTransforms.Number.Dyadic

/-!
# Shortest decimals

The decimal with the fewest digits among those that round to a given positive
floating-point number, and of these the nearest to it. It is searched on ever
finer decimal grids: if a grid has a point that rounds to the number, then one
of the two grid points next to the number does.
-/

namespace TextTransforms

/-- The reals that round to `value` lie between `low` and `high`; all three are
numerators over `scale`. The ends belong to them if `closed`. -/
structure RoundingInterval where
  low : Nat
  value : Nat
  high : Nat
  scale : Nat
  closed : Bool
  deriving DecidableEq, Repr

namespace RoundingInterval

/-- The interval reaches half way to the numbers next to `d`. The one below a
power of two is only half as far away as the one above. -/
def ofDyadic (d : Dyadic) : RoundingInterval :=
  let exponent := d.exponent - 2
  let unit := Nat.pow 2 exponent.toNat
  let isNarrow := d.mantissa = Nat.pow 2 52 ∧ d.exponent > Dyadic.minExponent
  { low := (4 * d.mantissa - if isNarrow then 1 else 2) * unit
    value := 4 * d.mantissa * unit
    high := (4 * d.mantissa + 2) * unit
    scale := Nat.pow 2 (-exponent).toNat
    closed := d.mantissa % 2 = 0 }

/-- Whether `n * 10 ^ e` lies in the interval. -/
def holds (i : RoundingInterval) (n : Nat) (e : Int) : Bool :=
  let up := Nat.pow 10 (-e).toNat
  let point := n * (i.scale * Nat.pow 10 e.toNat)
  if i.closed then i.low * up ≤ point && point ≤ i.high * up
  else i.low * up < point && point < i.high * up

/-- The nearest point of the grid `10 ^ e` in the interval; of two that are
equally near, the greater. -/
def nearest? (i : RoundingInterval) (e : Int) : Option Nat :=
  let value := i.value * Nat.pow 10 (-e).toNat
  let unit := i.scale * Nat.pow 10 e.toNat
  let below := value / unit
  if i.holds below e then
    if i.holds (below + 1) e && unit ≤ 2 * (value % unit) then some (below + 1) else some below
  else if i.holds (below + 1) e then some (below + 1)
  else none

/-- Searches `count` grids, the coarsest being `10 ^ e`. -/
def search (i : RoundingInterval) (e : Int) : Nat → Option Decimal
  | 0 => none
  | count + 1 =>
    match i.nearest? e with
    | some n => some ⟨n, e⟩
    | none => search i (e - 1) count

end RoundingInterval

namespace Dyadic

/-- The dyadic as a decimal, exactly. -/
def toDecimal (d : Dyadic) : Decimal :=
  ⟨d.mantissa * Nat.pow 2 d.exponent.toNat * Nat.pow 5 (-d.exponent).toNat, min d.exponent 0⟩

/-- A power of ten above the dyadic, at most two too high: its binary length
times an upper bound of the logarithm of two. -/
def decimalBound (d : Dyadic) : Int :=
  ((d.mantissa.log2 : Int) + 1 + d.exponent) * 30103 / 100000 + 1

/-- The shortest decimal that rounds to `d`. Seventeen digits suffice for every
floating-point number; the exact value stands in where they would not. -/
def shortest (d : Dyadic) : Decimal :=
  ((RoundingInterval.ofDyadic d).search d.decimalBound 20).getD d.toDecimal

end Dyadic

end TextTransforms
