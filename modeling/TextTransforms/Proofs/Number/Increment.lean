import TextTransforms.Number.Increment
import TextTransforms.Proofs.Number.Numeral
import TextTransforms.Proofs.Text.RunMap

/-!
# Counting up on digits

Adding one from the right, with a carry, to digits without leading zeros makes the numeral of
the next number (`carried_significant`). Zeros in front of a number are dropped first
(`dropWhile_zeros`), so every run of digits is replaced by the numeral of the next number,
however long it is (`successor_eq`), and after `k` rounds each number is larger by `k`
(`incrementNumbers_iterate`).
-/

namespace TextTransforms

open Text (runs mapRuns IsRun)

/-! ## Digits without leading zeros -/

namespace Numeral

variable {n : Nat} {c : Char} {d : Text}

/-- The numeral of `n` with no zero in front, so that zero has no digits. -/
def significant (n : Nat) : Text := if n = 0 then [] else ofNat n

/-- One more digit makes a numeral, also behind no digits at all. -/
theorem significant_append_digit (hc : c.isDigit = true) :
    significant n ++ [c] = ofNat (10 * n + (c.toNat - 48)) := by
  rw [significant]
  split
  · rename_i hn
    rw [hn, Nat.mul_zero, Nat.zero_add, ofNat_digit hc, List.nil_append]
  · rename_i hn
    exact ofNat_append_digit (Nat.pos_of_ne_zero hn) hc

theorem toNat_ne_of_ne_zero (hc : c.isDigit = true) (h : c ≠ '0') : c.toNat - 48 ≠ 0 := by
  obtain ⟨hlow, -⟩ := isDigit_iff.1 hc
  have hne : c.toNat ≠ '0'.toNat := fun e => h (Char.toNat_inj.1 e)
  have hzero : '0'.toNat = 48 := rfl
  omega

theorem dropWhile_zeros (hd : ∀ c ∈ d, c.isDigit = true) :
    d.dropWhile (· == '0') = significant (value d) := by
  induction d using List.reverseRecOn with
  | nil => rfl
  | append_singleton d c ih =>
    have hc : c.isDigit = true := hd c (by simp)
    have hdrop := ih fun x hx => hd x (List.mem_append_left _ hx)
    rw [List.dropWhile_append, hdrop, value_append_singleton]
    by_cases hzero : value d = 0
    · rw [hzero, Nat.mul_zero, Nat.zero_add, significant, if_pos rfl]
      by_cases hc0 : c = '0'
      · subst hc0
        rfl
      · have hne := toNat_ne_of_ne_zero hc hc0
        simp [significant, hc0, hne, ofNat_digit hc]
    · have hne : ofNat (value d) ≠ [] := ofNat_ne_nil _
      have hlarge : 10 * value d + (c.toNat - 48) ≠ 0 := by omega
      simp only [significant, hzero, hlarge, if_false, List.isEmpty_iff, hne]
      exact ofNat_append_digit (Nat.pos_of_ne_zero hzero) hc

theorem isRun_ofNat (n : Nat) : IsRun Char.isDigit (ofNat n) :=
  ⟨ofNat_ne_nil n, fun _ => isDigit_of_mem_ofNat⟩

end Numeral

open Numeral (significant ofNat value)

/-! ## The carry -/

section Carry

variable {c : Char} {d s t : Text}

theorem nextDigit_spec (hc : c.isDigit = true) (h : c ≠ '9') :
    (nextDigit c).isDigit = true ∧ (nextDigit c).toNat = c.toNat + 1 := by
  obtain ⟨hlow, hhigh⟩ := Numeral.isDigit_iff.1 hc
  have hne : c.toNat ≠ '9'.toNat := fun e => h (Char.toNat_inj.1 e)
  have hnine : '9'.toNat = 57 := rfl
  have hvalid : (c.toNat + 1).isValidChar := .inl (by omega)
  have hnext : (nextDigit c).toNat = c.toNat + 1 := by
    rw [nextDigit, Char.ofNat, dif_pos hvalid]
    rfl
  exact ⟨Numeral.isDigit_iff.2 (by omega), hnext⟩

/-- Adding one starts at the last digit. -/
theorem addOne_append (s : Text) (c : Char) :
    addOne (s ++ [c]) =
      if c = '9' then ((addOne s).1 ++ ['0'], (addOne s).2) else (s ++ [nextDigit c], false) := by
  induction s with
  | nil => simp [addOne]
  | cons d s ih =>
    rw [List.cons_append, addOne, ih]
    by_cases hc : c = '9'
    · simp only [hc, if_true, addOne]
      split
      · split <;> rfl
      · rfl
    · simp only [hc, if_false, Bool.false_eq_true, List.cons_append]

/-- Adds one, with a new digit in front where one is carried out. -/
def carried (t : Text) : Text := if (addOne t).2 then '1' :: (addOne t).1 else (addOne t).1

theorem carried_append (s : Text) (c : Char) :
    carried (s ++ [c]) = if c = '9' then carried s ++ ['0'] else s ++ [nextDigit c] := by
  rw [carried, addOne_append]
  split
  · rw [carried]
    split <;> rfl
  · rfl

theorem successor_eq_carried (d : Text) : successor d = carried (d.dropWhile (· == '0')) := rfl

theorem carried_significant (n : Nat) : carried (significant n) = ofNat (n + 1) := by
  induction n using Nat.strongRecOn with
  | ind n ih =>
    by_cases hn : n = 0
    · subst hn
      rfl
    · have hr : n % 10 < 10 := Nat.mod_lt n (by decide)
      obtain ⟨c, hc, hvalue⟩ : ∃ c : Char, c.isDigit = true ∧ c.toNat - 48 = n % 10 :=
        ⟨(n % 10).digitChar, by rwa [Nat.isDigit_digitChar, decide_eq_true_iff], by
          rw [Nat.toNat_digitChar_of_lt_ten hr]; omega⟩
      have hsplit : significant n = significant (n / 10) ++ [c] := by
        rw [Numeral.significant_append_digit hc, hvalue, Nat.div_add_mod, significant, if_neg hn]
      rw [hsplit, carried_append]
      split
      · rename_i hnine
        have hnext : significant (n / 10 + 1) = ofNat (n / 10 + 1) := if_neg (Nat.succ_ne_zero _)
        have hlast : n % 10 = 9 := by rw [← hvalue, hnine]; rfl
        rw [ih (n / 10) (by omega), ← hnext, Numeral.significant_append_digit (by decide)]
        congr 1
        change 10 * (n / 10 + 1) + 0 = n + 1
        omega
      · rename_i hnine
        obtain ⟨hdigit, htoNat⟩ := nextDigit_spec hc hnine
        obtain ⟨hlow, -⟩ := Numeral.isDigit_iff.1 hc
        rw [Numeral.significant_append_digit hdigit]
        congr 1
        omega

theorem successor_eq (hd : ∀ c ∈ d, c.isDigit = true) : successor d = ofNat (value d + 1) := by
  rw [successor_eq_carried, Numeral.dropWhile_zeros hd, carried_significant]

end Carry

/-! ## All numbers of a text -/

section Numbers

variable {c : Char} {s t : Text}

theorem incrementNumbers_eq_mapRuns (t : Text) :
    incrementNumbers t = mapRuns Char.isDigit (fun d => ofNat (value d + 1)) t := by
  induction t using Text.run_induction Char.isDigit with
  | nil => rw [incrementNumbers, Text.mapRuns_nil]
  | other c t hc ih =>
    rw [incrementNumbers, if_neg (by simp [hc]), Text.mapRuns_cons hc, ih]
  | run s t hs ht ih =>
    rw [Text.mapRuns_append hs ht, ← ih, ← successor_eq hs.2]
    obtain ⟨c, s, rfl, hc⟩ := hs.exists_cons
    have htail : ∀ d ∈ s, d.isDigit = true := fun d hd => hs.2 d (List.mem_cons_of_mem c hd)
    rw [List.cons_append, incrementNumbers, if_pos hc, Text.takeWhile_run htail ht,
      Text.dropWhile_run htail ht]

/-- The numbers of a text, from left to right. -/
def numbers (t : Text) : List Nat :=
  ((runs Char.isDigit t).filter (·.all Char.isDigit)).map value

theorem numbers_cons (hc : c.isDigit = false) : numbers (c :: t) = numbers t := by
  simp [numbers, Text.runs_cons hc, hc]

theorem numbers_append (hs : IsRun Char.isDigit s)
    (ht : ∀ c, t.head? = some c → c.isDigit = false) :
    numbers (s ++ t) = value s :: numbers t := by
  have hall : s.all Char.isDigit = true := List.all_eq_true.2 hs.2
  simp [numbers, Text.runs_append hs ht, hall]

theorem numbers_incrementNumbers (t : Text) :
    numbers (incrementNumbers t) = (numbers t).map (· + 1) := by
  rw [incrementNumbers_eq_mapRuns]
  induction t using Text.run_induction Char.isDigit with
  | nil => rfl
  | other c t hc ih => rw [Text.mapRuns_cons hc, numbers_cons hc, numbers_cons hc, ih]
  | run s t hs ht ih =>
    rw [Text.mapRuns_append hs ht, numbers_append (Numeral.isRun_ofNat _) (Text.head?_mapRuns ht),
      numbers_append hs ht, ih, Numeral.value_ofNat, List.map_cons]

theorem iterate_numbers (k : Nat) (t : Text) :
    numbers (incrementNumbers^[k] t) = (numbers t).map (· + k) := by
  induction k with
  | zero => simp
  | succ k ih =>
    rw [Function.iterate_succ_apply', numbers_incrementNumbers, ih, List.map_map]
    rfl

theorem iterate_incrementNumbers (k : Nat) (t : Text) :
    incrementNumbers^[k + 1] t = mapRuns Char.isDigit (fun d => ofNat (value d + (k + 1))) t := by
  induction k with
  | zero => exact incrementNumbers_eq_mapRuns t
  | succ k ih =>
    rw [Function.iterate_succ_apply', ih, incrementNumbers_eq_mapRuns,
      Text.mapRuns_mapRuns fun _ _ => Numeral.isRun_ofNat _]
    simp only [Numeral.value_ofNat]
    rfl

end Numbers

/-- Every longest run of digits is replaced by the numeral, without leading zeros, of the number
after the one that it denotes, and all else stays in place. So `k` rounds add `k` to every
number; no round at all leaves its leading zeros too. -/
theorem incrementNumbers_iterate (t : Text) :
    incrementNumbers t = mapRuns Char.isDigit (fun d => ofNat (value d + 1)) t ∧
    ∀ k, incrementNumbers^[k] t =
        mapRuns Char.isDigit (fun d => if k = 0 then d else ofNat (value d + k)) t ∧
      numbers (incrementNumbers^[k] t) = (numbers t).map (· + k) := by
  refine ⟨incrementNumbers_eq_mapRuns t, fun k => ⟨?_, iterate_numbers k t⟩⟩
  cases k with
  | zero => exact Text.mapRuns_self.symm
  | succ k => exact iterate_incrementNumbers k t

end TextTransforms
