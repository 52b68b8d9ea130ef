import TextTransforms.Proofs.Number.Numeral
import TextTransforms.Proofs.Template.Pieces

/-!
# Pieces by ordered choice

The pieces of a spec are those of a reader that tries a name, a count, digits and other
characters in turn, as long as one of them applies (`readAll`). One of them always does, so
nothing of a spec is left over (`readAll_eq`).
-/

namespace TextTransforms.SpecPiece

open Text (isWordChar)

/-! ## The alternatives -/

def name? : Text → Option (SpecPiece × Text)
  | [] => none
  | c :: t =>
    if c.isAlpha || c == '_' then
      some (literal (c :: t.takeWhile isWordChar), t.dropWhile isWordChar)
    else none

/-- Digits with `$` behind them that denote an index. -/
def count? (t : Text) : Option (SpecPiece × Text) :=
  match t.dropWhile Char.isDigit with
  | '$' :: rest => (Numeral.index? (t.takeWhile Char.isDigit)).map fun n => (count n, rest)
  | _ => none

/-- The run of a class at the start of the text. -/
def run? (p : Char → Bool) (t : Text) : Option (SpecPiece × Text) :=
  if (t.takeWhile p).isEmpty then none else some (literal (t.takeWhile p), t.dropWhile p)

/-- What the first alternative that applies takes from the text. -/
def first? (t : Text) : Option (SpecPiece × Text) :=
  name? t <|> count? t <|> run? Char.isDigit t <|> run? (!isWordChar ·) t

/-- The pieces from the start of the text on, and what is left where no alternative applies.
A piece that takes nothing would be repeated for ever and is an error. -/
def readAll (t : Text) : Option (List SpecPiece × Text) :=
  match first? t with
  | none => some ([], t)
  | some (piece, rest) =>
    if rest.length < t.length then
      (readAll rest).map fun (pieces, left) => (piece :: pieces, left)
    else none
termination_by t.length

/-! ## Which one applies -/

private theorem isWordChar_eq (c : Char) :
    isWordChar c = (c.isAlpha || c == '_' || c.isDigit) := by
  rw [isWordChar, Char.isAlphanum, Bool.or_right_comm]

private theorem not_isName_of_isDigit {c : Char} (h : c.isDigit = true) :
    (c.isAlpha || c == '_') = false := by
  obtain ⟨hlow, hhigh⟩ := Numeral.isDigit_iff.1 h
  have hne : c ≠ '_' := by
    rintro rfl
    exact absurd hhigh (by decide)
  have hupper : ¬ c.isUpper = true := by
    intro hu
    have : 65 ≤ c.toNat := (of_decide_eq_true hu).1
    omega
  have hlower : ¬ c.isLower = true := by
    intro hl
    have : 97 ≤ c.toNat := of_decide_eq_true (Bool.and_eq_true_iff.1 hl).1
    omega
  have halpha : ¬ c.isAlpha = true := fun h => (Bool.or_eq_true_iff.1 h).elim hupper hlower
  simp [halpha, hne]

theorem name?_of_isDigit {c : Char} (t : Text) (h : c.isDigit = true) : name? (c :: t) = none := by
  rw [name?, if_neg (by simp [not_isName_of_isDigit h])]

theorem name?_of_not_isWordChar {c : Char} (t : Text) (h : isWordChar c = false) :
    name? (c :: t) = none := by
  rw [isWordChar_eq, Bool.or_eq_false_iff] at h
  rw [name?, if_neg (by simp [h.1])]

theorem index?_of_isDigits {digits : Text} (h : IsDigits digits) :
    Numeral.index? digits =
      if Numeral.value digits < Numeral.indexLimit then some (Numeral.value digits) else none := by
  have hall : digits.all Char.isDigit = true := List.all_eq_true.2 h.2
  simp [Numeral.index?, h.1, hall]

theorem run?_eq {p : Char → Bool} {s rest : Text} (hne : s ≠ []) (hs : ∀ c ∈ s, p c = true)
    (hr : ∀ c, rest.head? = some c → p c = false) :
    run? p (s ++ rest) = some (literal s, rest) := by
  rw [run?, Text.takeWhile_run hs hr, Text.dropWhile_run hs hr, if_neg (by simpa using hne)]

theorem Leads.first?_eq {s rest : Text} {piece : SpecPiece} (h : Leads s rest piece) :
    first? (s ++ rest) = some (piece, rest) := by
  cases h with
  | @count digits _ hd hv =>
    have hstop := Text.stops_cons (p := Char.isDigit) rest (by decide : '$'.isDigit = false)
    have hcount : count? (digits ++ '$' :: rest) = some (.count (Numeral.value digits), rest) := by
      rw [count?, Text.takeWhile_run hd.2 hstop, Text.dropWhile_run hd.2 hstop]
      simp [index?_of_isDigits hd, hv]
    rw [List.append_assoc, List.singleton_append, first?, hcount]
    obtain ⟨c, ds, rfl⟩ := List.exists_cons_of_ne_nil hd.1
    rw [List.cons_append, name?_of_isDigit _ (hd.2 c List.mem_cons_self)]
    rfl
  | digits hd hr hv =>
    have hcount : count? (s ++ rest) = none := by
      rw [count?, Text.takeWhile_run hd.2 hr, Text.dropWhile_run hd.2 hr]
      split
      · rw [index?_of_isDigits hd, if_neg (Nat.not_lt.2 (hv rfl))]
        rfl
      · rfl
    rw [first?, hcount, run?_eq hd.1 hd.2 hr]
    obtain ⟨c, ds, rfl⟩ := List.exists_cons_of_ne_nil hd.1
    rw [List.cons_append, name?_of_isDigit _ (hd.2 c List.mem_cons_self)]
    rfl
  | @name c t _ hc hd ht hr =>
    rw [isWordChar_eq, hd, Bool.or_false] at hc
    rw [first?, List.cons_append, name?, if_pos hc, Text.takeWhile_run ht hr,
      Text.dropWhile_run ht hr]
    rfl
  | @other c t _ hc ht hr =>
    have hdigit : c.isDigit = false := by
      rw [isWordChar_eq, Bool.or_eq_false_iff] at hc
      exact hc.2
    have hcount : count? (c :: (t ++ rest)) = none := by
      rw [count?, List.takeWhile_cons_of_neg (by simp [hdigit])]
      split
      · rfl
      · rfl
    have hdigits : run? Char.isDigit (c :: (t ++ rest)) = none := by
      rw [run?, List.takeWhile_cons_of_neg (by simp [hdigit])]
      rfl
    have hother : run? (!isWordChar ·) (c :: t ++ rest) = some (.literal (c :: t), rest) :=
      run?_eq (List.cons_ne_nil c t) (by simpa [hc] using ht) (by simpa using hr)
    rw [first?, hother, List.cons_append, name?_of_not_isWordChar _ hc, hcount, hdigits]
    rfl

theorem first?_nil : first? [] = none := rfl

/-- The alternatives in turn read all of a spec, and its pieces. -/
theorem readAll_eq (t : Text) : readAll t = some (specPieces t, []) := by
  induction t using pieces_induction with
  | nil =>
    rw [readAll, first?_nil, specPieces_nil]
  | cons s rest piece hs ih =>
    have hlt : rest.length < (s ++ rest).length := by
      have := List.length_pos_iff.2 hs.ne_nil
      rw [List.length_append]
      omega
    rw [readAll, hs.first?_eq, hs.specPieces_eq]
    dsimp only
    rw [if_pos hlt, ih]
    rfl

end TextTransforms.SpecPiece
