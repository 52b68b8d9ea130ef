import TextTransforms.Call.Lexeme
import TextTransforms.Text.Blank

/-!
# Arguments

The argument tail of a call runs to the parenthesis that closes the call
(`splitAtClose`). Its arguments are the pieces between the commas outside
brackets and literals (`splitArguments`), trimmed, without the empty ones.

Shown here: neither scan loses a lexeme (`splitAtClose_eq`, `pieces_eq`).
-/

namespace TextTransforms

/-! ## The end of the tail -/

/-- The lexemes before and behind the parenthesis that closes the call. There is
none when a `"` is unclosed or another bracket would close the call. -/
def splitAtClose (depth : Nat) : List Lexeme → Option (List Lexeme × List Lexeme)
  | [] => none
  | l :: ls =>
    if l = .char '"' then none
    else if l.isCloser ∧ depth = 0 then
      if l = .char ')' then some ([], ls) else none
    else (splitAtClose (l.nest depth) ls).map fun (inside, rest) => (l :: inside, rest)

theorem splitAtClose_eq {depth : Nat} {ls inside rest : List Lexeme}
    (h : splitAtClose depth ls = some (inside, rest)) : ls = inside ++ .char ')' :: rest := by
  induction ls generalizing depth inside with
  | nil => simp [splitAtClose] at h
  | cons l ls ih =>
    rw [splitAtClose] at h
    split at h
    · simp at h
    · split at h
      · split at h
        · rename_i hl
          obtain ⟨rfl, rfl⟩ : [] = inside ∧ ls = rest := by simpa using h
          simp [hl]
        · simp at h
      · obtain ⟨⟨a, b⟩, hr, he⟩ := Option.map_eq_some_iff.1 h
        obtain ⟨rfl, rfl⟩ : l :: a = inside ∧ b = rest := by simpa using he
        simp [ih hr]

/-! ## The pieces between commas -/

/-- The piece before the first comma at depth zero, and the pieces behind it. -/
def pieces (depth : Nat) : List Lexeme → List Lexeme × List (List Lexeme)
  | [] => ([], [])
  | l :: ls =>
    if l = .char ',' ∧ depth = 0 then
      let (first, rest) := pieces depth ls
      ([], first :: rest)
    else
      let (first, rest) := pieces (l.nest depth) ls
      (l :: first, rest)

/-- Joined by commas, the pieces give back the lexemes. -/
theorem pieces_eq (depth : Nat) (ls : List Lexeme) :
    (pieces depth ls).1 ++ (pieces depth ls).2.flatMap (.char ',' :: ·) = ls := by
  induction ls generalizing depth with
  | nil => rfl
  | cons l ls ih =>
    rw [pieces]
    split
    · rename_i h
      simp only [List.flatMap_cons, List.nil_append, List.cons_append, ih, h.1]
    · simp only [List.cons_append, ih]

/-- The arguments of a tail: its pieces, trimmed, less the empty ones. -/
def splitArguments (tail : Text) : List Text :=
  let (first, rest) := pieces 0 (lexemes tail)
  ((first :: rest).map fun piece => Text.trim (sourceOf piece)).filter fun piece => !piece.isEmpty

end TextTransforms
