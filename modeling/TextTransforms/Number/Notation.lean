import TextTransforms.Number.Shortest

/-!
# The text of a number

A finite number is written with its shortest digits: positionally from `10 ^ -6`
up to `10 ^ 21`, otherwise with one digit before the point and a signed exponent.
Both zeros are `0`.
-/

namespace TextTransforms

/-- Digits without trailing zeros, and the place of the point counted from the first digit. -/
def Decimal.significant (d : Decimal) : Text × Int :=
  let digits := Numeral.ofNat d.digits
  ((digits.reverse.dropWhile (· == '0')).reverse, digits.length + d.exponent)

/-- Digits with the point at `place`; zeros fill up to the point. -/
def positional (digits : Text) (place : Int) : Text :=
  if place ≤ 0 then ['0', '.'] ++ List.replicate (-place).toNat '0' ++ digits
  else if digits.length ≤ place then
    digits ++ List.replicate (place - digits.length).toNat '0'
  else digits.take place.toNat ++ '.' :: digits.drop place.toNat

/-- Digits with the point behind the first, and the exponent that moves it to `place`. -/
def scientific (digits : Text) (place : Int) : Text :=
  let fraction := digits.drop 1
  digits.take 1 ++ (if fraction.isEmpty then [] else '.' :: fraction)
    ++ ['e', if place < 1 then '-' else '+'] ++ Numeral.ofNat (place - 1).natAbs

def Decimal.text (d : Decimal) : Text :=
  let (digits, place) := d.significant
  if -5 ≤ place ∧ place ≤ 21 then positional digits place else scientific digits place

def numberText (x : Float) : Text :=
  if x.isNaN then "NaN".toList
  else if x == 0 then ['0']
  else
    let magnitude :=
      if x.isInf then "Infinity".toList else (Dyadic.ofFloat x).shortest.text
    if x < 0 then '-' :: magnitude else magnitude

end TextTransforms
