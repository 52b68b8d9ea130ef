import TextTransforms.Text.Basic
import TextTransforms.Text.Ranges

/-!
# Blank characters

The Unicode property White_Space as closed ranges of code points (25 code
points, unchanged since Unicode 6.3), and trimming by it.

Shown here: the table extends the ASCII notion (`isBlank_of_isWhitespace`),
and a trimmed text neither starts nor ends with a blank
(`isBlank_head_trim`, `isBlank_getLast_trim`).
-/

namespace TextTransforms.Text

/-- The ranges of White_Space, ascending. -/
def blankRanges : CharRanges :=
  [(0x9, 0xD), (0x20, 0x20), (0x85, 0x85), (0xA0, 0xA0), (0x1680, 0x1680), (0x2000, 0x200A),
   (0x2028, 0x2029), (0x202F, 0x202F), (0x205F, 0x205F), (0x3000, 0x3000)]

def isBlank (c : Char) : Bool := blankRanges.contains c

theorem isBlank_of_isWhitespace {c : Char} (h : c.isWhitespace = true) : isBlank c = true := by
  simp only [Char.isWhitespace, Bool.or_eq_true, decide_eq_true_eq] at h
  rcases h with ((h | h) | h) | h <;> subst h <;> decide

/-! ## Trimming -/

def trimStart (t : Text) : Text := t.dropWhile isBlank

def trimEnd (t : Text) : Text := (t.reverse.dropWhile isBlank).reverse

def trim (t : Text) : Text := trimEnd (trimStart t)

theorem trimStart_suffix (t : Text) : trimStart t <:+ t := List.dropWhile_suffix _

theorem isBlank_head_trimStart {t : Text} {c : Char} (h : (trimStart t).head? = some c) :
    isBlank c = false := by
  have := List.head?_dropWhile_not isBlank t
  rw [show t.dropWhile isBlank = trimStart t from rfl, h] at this
  simpa using this

theorem isBlank_getLast_trimEnd {t : Text} {c : Char} (h : (trimEnd t).getLast? = some c) :
    isBlank c = false := by
  have := List.head?_dropWhile_not isBlank t.reverse
  rw [trimEnd, List.getLast?_reverse] at h
  rw [h] at this
  simpa using this

theorem isBlank_getLast_trim {t : Text} {c : Char} (h : (trim t).getLast? = some c) :
    isBlank c = false :=
  isBlank_getLast_trimEnd h

theorem trimEnd_append_blanks (t : Text) : ∃ s, t = trimEnd t ++ s ∧ s.all isBlank = true := by
  refine ⟨(t.reverse.takeWhile isBlank).reverse, ?_, ?_⟩
  · rw [trimEnd, ← List.reverse_append, List.takeWhile_append_dropWhile, List.reverse_reverse]
  · rw [List.all_reverse]; exact List.all_takeWhile

theorem isBlank_head_trim {t : Text} {c : Char} (h : (trim t).head? = some c) :
    isBlank c = false := by
  obtain ⟨s, hs, -⟩ := trimEnd_append_blanks (trimStart t)
  apply isBlank_head_trimStart (t := t)
  rw [hs, List.head?_append]
  simp [show trimEnd (trimStart t) = trim t from rfl, h]

end TextTransforms.Text
