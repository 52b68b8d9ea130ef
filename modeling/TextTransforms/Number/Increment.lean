import TextTransforms.Text.Basic

/-!
# Counting up the numbers of a text

Every run of ASCII digits is replaced by the numeral of the next number. Digits
are added to from the right with a carry, so runs may have any length; leading
zeros are dropped.
-/

namespace TextTransforms

/-- The digit after `d`, for digits below nine. -/
def nextDigit (d : Char) : Char := Char.ofNat (d.toNat + 1)

/-- Adds one to a text of digits of the same length; the flag tells whether a one
is carried out of it. -/
def addOne : Text → Text × Bool
  | [] => ([], true)
  | d :: t =>
    let (t, carry) := addOne t
    if carry then
      if d = '9' then ('0' :: t, true) else (nextDigit d :: t, false)
    else (d :: t, false)

/-- The numeral of the number after the one that `digits` denotes. -/
def successor (digits : Text) : Text :=
  let (t, carry) := addOne (digits.dropWhile (· == '0'))
  if carry then '1' :: t else t

/-- Adds one to every number in a text. -/
def incrementNumbers : Text → Text
  | [] => []
  | c :: t =>
    if c.isDigit then
      successor (c :: t.takeWhile Char.isDigit) ++ incrementNumbers (t.dropWhile Char.isDigit)
    else c :: incrementNumbers t
termination_by t => t.length
decreasing_by
  · exact Nat.lt_succ_of_le (Text.length_dropWhile_le _ t)
  · simp

end TextTransforms
