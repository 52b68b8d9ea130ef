import TextTransforms.Text.Basic

/-!
# Decimal numerals

Natural numbers as texts of ASCII digits. An index is a numeral below `2 ^ 64`;
a longer one denotes nothing. Shown here: every number below the limit is read
back from its numeral (`index?_ofNat`).
-/

namespace TextTransforms.Numeral

/-- The number that a text of digits denotes; zero for the empty text. -/
def value (digits : Text) : Nat := Nat.ofDigitChars 10 digits 0

/-- The numeral of `n`, without leading zeros. -/
def ofNat (n : Nat) : Text := Nat.toDigits 10 n

@[simp] theorem value_ofNat (n : Nat) : value (ofNat n) = n :=
  Nat.ofDigitChars_toDigits (by decide) (by decide)

theorem isDigit_of_mem_ofNat {n : Nat} {c : Char} (h : c ∈ ofNat n) : c.isDigit = true :=
  Nat.isDigit_of_mem_toDigits (by decide) (by decide) h

theorem ofNat_ne_nil (n : Nat) : ofNat n ≠ [] := Nat.toDigits_ne_nil

/-! ## Indices -/

/-- Indices are below this number. -/
def indexLimit : Nat := Nat.pow 2 64

/-- The index that a text denotes, if it is a numeral below the limit. -/
def index? (t : Text) : Option Nat :=
  if !t.isEmpty && t.all Char.isDigit && value t < indexLimit then some (value t) else none

theorem index?_ofNat {n : Nat} (h : n < indexLimit) : index? (ofNat n) = some n := by
  have hd : (ofNat n).all Char.isDigit = true :=
    List.all_eq_true.2 fun _ hc => isDigit_of_mem_ofNat hc
  simp [index?, h, hd, ofNat_ne_nil]

end TextTransforms.Numeral
