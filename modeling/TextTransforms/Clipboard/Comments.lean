import TextTransforms.Text.Basic

/-!
# Comments

Removes line comments, up to the line break, and closed block comments. Two
slashes behind a colon do not start a comment, so that addresses survive, and a
block comment that is never closed stays. String literals are not recognised.
-/

namespace TextTransforms.Clipboard

def isLineBreak (c : Char) : Bool := c == '\n' || c == '\r'

@[simp] theorem isLineBreak_iff {c : Char} : isLineBreak c = true ↔ c = '\n' ∨ c = '\r' := by
  simp [isLineBreak]

@[simp] theorem isLineBreak_eq_false_iff {c : Char} :
    isLineBreak c = false ↔ c ≠ '\n' ∧ c ≠ '\r' := by
  simp [isLineBreak]

/-- The text behind the first end of a block comment. -/
def behindBlock? : Text → Option Text
  | [] => none
  | c :: t => if c = '*' ∧ t.head? = some '/' then some t.tail else behindBlock? t

theorem length_lt_of_behindBlock? {t rest : Text} (h : behindBlock? t = some rest) :
    rest.length < t.length := by
  induction t with
  | nil => simp [behindBlock?] at h
  | cons c t ih =>
    rw [behindBlock?] at h
    rw [List.length_cons]
    split at h
    · obtain rfl : t.tail = rest := by simpa using h
      rw [List.length_tail]
      omega
    · exact Nat.lt_succ_of_lt (ih h)

/-- Removes the comments of a text. `previous` is the character before it, a slash
behind a comment; once a block comment is found to be unclosed, `openBlock` is
set and no block comment is looked for any more. -/
def stripCommentsFrom (previous : Option Char) (openBlock : Bool) : Text → Text
  | [] => []
  | c :: t =>
    if c = '/' ∧ t.head? = some '/' ∧ previous ≠ some ':' then
      stripCommentsFrom (some '/') openBlock (t.dropWhile (!isLineBreak ·))
    else if c = '/' ∧ t.head? = some '*' ∧ openBlock = false then
      match h : behindBlock? t.tail with
      | some rest =>
        have := length_lt_of_behindBlock? h
        stripCommentsFrom (some '/') openBlock rest
      | none => c :: stripCommentsFrom (some c) true t
    else c :: stripCommentsFrom (some c) openBlock t
termination_by t => t.length
decreasing_by
  · exact Nat.lt_succ_of_le (Text.length_dropWhile_le _ t)
  · simp only [List.length_tail, List.length_cons] at *; omega
  · simp
  · simp

def stripComments (t : Text) : Text := stripCommentsFrom none false t

end TextTransforms.Clipboard
