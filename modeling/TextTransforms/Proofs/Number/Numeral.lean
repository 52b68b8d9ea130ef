import Mathlib.Data.List.Induction
import Mathlib.Data.Nat.Digits.Defs
import TextTransforms.Number.Numeral

/-!
# Numerals with leading zeros

A text of digits is the numeral of the number that it denotes, behind zeros
(`exists_zeros`). That number is the one of place-value notation: each digit stands for its
position in `0123456789`, and counts ten times what it would count one place further on
(`value_eq_ofDigits`).
-/

namespace TextTransforms.Numeral

theorem isDigit_iff {c : Char} : c.isDigit = true ↔ 48 ≤ c.toNat ∧ c.toNat ≤ 57 := by
  rw [Char.isDigit, Bool.and_eq_true, decide_eq_true_iff, decide_eq_true_iff]
  rfl

@[simp] theorem value_append_singleton (d : Text) (c : Char) :
    value (d ++ [c]) = 10 * value d + (c.toNat - 48) := by
  rw [value, Nat.ofDigitChars_append, Nat.ofDigitChars_cons]
  rfl

theorem value_zeros_append (k : Nat) (d : Text) : value (List.replicate k '0' ++ d) = value d := by
  rw [value, Nat.ofDigitChars_append, Nat.ofDigitChars_replicate_zero, Nat.mul_zero, value]

/-- A digit is its own numeral. -/
theorem ofNat_digit {c : Char} (h : c.isDigit = true) : ofNat (c.toNat - 48) = [c] := by
  obtain ⟨hlow, hhigh⟩ := isDigit_iff.1 h
  have hlt : c.toNat - 48 < 10 := by omega
  have hsame : (c.toNat - 48).digitChar = c := by
    apply Char.toNat_inj.1
    rw [Nat.toNat_digitChar_of_lt_ten hlt]
    omega
  rw [ofNat, Nat.toDigits_of_lt_base hlt, hsame]

/-- One more digit behind a numeral, if that is not zero. -/
theorem ofNat_append_digit {n : Nat} {c : Char} (hn : 0 < n) (h : c.isDigit = true) :
    ofNat n ++ [c] = ofNat (10 * n + (c.toNat - 48)) := by
  obtain ⟨-, hhigh⟩ := isDigit_iff.1 h
  rw [← ofNat_digit h]
  exact Nat.toDigits_append_toDigits (by decide) hn (by omega)

theorem exists_zeros {d : Text} (hne : d ≠ []) (hd : ∀ c ∈ d, c.isDigit = true) :
    ∃ k, d = List.replicate k '0' ++ ofNat (value d) := by
  induction d using List.reverseRecOn with
  | nil => exact absurd rfl hne
  | append_singleton d c ih =>
    have hc : c.isDigit = true := hd c (by simp)
    by_cases hnil : d = []
    · subst hnil
      refine ⟨0, ?_⟩
      rw [value_append_singleton, show value [] = 0 from rfl, Nat.mul_zero, Nat.zero_add,
        ofNat_digit hc]
      rfl
    · obtain ⟨k, hk⟩ := ih hnil fun x hx => hd x (List.mem_append_left _ hx)
      rw [value_append_singleton]
      by_cases hzero : value d = 0
      · rw [hzero] at hk ⊢
        refine ⟨k + 1, ?_⟩
        rw [Nat.mul_zero, Nat.zero_add, ofNat_digit hc, List.replicate_succ']
        conv => lhs; rw [hk]
        rfl
      · refine ⟨k, ?_⟩
        rw [← ofNat_append_digit (Nat.pos_of_ne_zero hzero) hc, ← List.append_assoc, ← hk]

/-! ## Place values -/

/-- What a digit stands for. -/
def digit (c : Char) : Nat := "0123456789".toList.idxOf c

theorem digit_eq {c : Char} (h : c.isDigit = true) : digit c = c.toNat - 48 := by
  obtain ⟨hlow, hhigh⟩ := isDigit_iff.1 h
  have places : ∀ k < 10, digit (Char.ofNat (48 + k)) = k := by decide
  have hc := places (c.toNat - 48) (by omega)
  rwa [Nat.add_sub_cancel' hlow, Char.ofNat_toNat] at hc

theorem value_eq_ofDigits {d : Text} (hd : ∀ c ∈ d, c.isDigit = true) :
    value d = Nat.ofDigits 10 (d.reverse.map digit) := by
  induction d using List.reverseRecOn with
  | nil => rfl
  | append_singleton d c ih =>
    have hc : c.isDigit = true := hd c (by simp)
    rw [value_append_singleton, ih fun x hx => hd x (List.mem_append_left _ hx),
      List.reverse_append, List.reverse_singleton, List.singleton_append, List.map_cons,
      Nat.ofDigits_cons, digit_eq hc, Nat.add_comm]

end TextTransforms.Numeral
