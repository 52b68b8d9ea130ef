import TextTransforms.Text.Basic

/-!
# Lines

A line keeps the line feed that ends it; only the last line of a text may lack
one. Shown here: the lines of a text make up the text (`flatten_lines`), none
is empty (`ne_nil_of_mem_lines`), and a line feed stands only at the end of a
line (`eq_of_mem_lines`).
-/

namespace TextTransforms.Text

def lines : Text → List Text
  | [] => []
  | c :: t =>
    if c = '\n' then [c] :: lines t
    else match lines t with
      | [] => [[c]]
      | line :: rest => (c :: line) :: rest

@[simp] theorem flatten_lines (t : Text) : (lines t).flatten = t := by
  induction t with
  | nil => rfl
  | cons c t ih =>
    rw [lines]
    split
    · simp [ih]
    · split <;> rename_i h <;> rw [h] at ih <;> simp at ih <;> simp [ih]

theorem ne_nil_of_mem_lines {t line : Text} (h : line ∈ lines t) : line ≠ [] := by
  induction t generalizing line with
  | nil => simp [lines] at h
  | cons c t ih =>
    rw [lines] at h
    split at h
    · rcases List.mem_cons.1 h with rfl | h
      · simp
      · exact ih h
    · split at h <;> rename_i e
      · simp_all
      · rcases List.mem_cons.1 h with rfl | h
        · simp
        · exact ih (e ▸ List.mem_cons_of_mem _ h)

/-- Every line is free of line feeds but for one that may end it. -/
theorem eq_of_mem_lines {t line : Text} (h : line ∈ lines t) :
    '\n' ∉ line ∨ ∃ s, line = s ++ ['\n'] ∧ '\n' ∉ s := by
  induction t generalizing line with
  | nil => simp [lines] at h
  | cons c t ih =>
    rw [lines] at h
    split at h
    · rename_i hc
      rcases List.mem_cons.1 h with rfl | h
      · exact .inr ⟨[], by simp [hc], by simp⟩
      · exact ih h
    · rename_i hc
      split at h <;> rename_i e
      · obtain rfl : line = [c] := by simpa using h
        exact .inl (by simpa using Ne.symm hc)
      · rename_i first rest
        rcases List.mem_cons.1 h with rfl | h
        · rcases ih (e ▸ List.mem_cons_self) with hn | ⟨s, rfl, hs⟩
          · exact .inl (by simp [hn, Ne.symm hc])
          · exact .inr ⟨c :: s, rfl, by simp [hs, Ne.symm hc]⟩
        · exact ih (e ▸ List.mem_cons_of_mem _ h)

end TextTransforms.Text
