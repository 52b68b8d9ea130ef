import TextTransforms.Text.Basic

/-!
# Boolean words

`true` and `false`, and `True` and `False`, count where they stand as whole
words. Flipping a text replaces each by its opposite in the same case.
-/

namespace TextTransforms.Calculator

/-- The boolean words with their opposites. -/
def booleans : List (Text × Text) :=
  [("true".toList, "false".toList), ("false".toList, "true".toList),
   ("True".toList, "False".toList), ("False".toList, "True".toList)]

structure BooleanWord where
  word : Text
  opposite : Text
  /-- The text behind the word. -/
  rest : Text
  deriving DecidableEq, Repr

/-- The boolean word that a text starts with, if no word character follows it. -/
def booleanAt? (t : Text) : Option BooleanWord :=
  booleans.findSome? fun (word, opposite) =>
    match word.isPrefixOf? t with
    | some rest => if rest.head?.any Text.isWordChar then none else some ⟨word, opposite, rest⟩
    | none => none

theorem eq_of_isPrefixOf? {s t rest : Text} (h : s.isPrefixOf? t = some rest) : t = s ++ rest := by
  induction s generalizing t with
  | nil => exact Option.some.inj h
  | cons c s ih =>
    cases t with
    | nil => exact nomatch h
    | cons d t =>
      replace h : (if c == d then s.isPrefixOf? t else none) = some rest := h
      split at h
      · rename_i hc
        rw [ih h, eq_of_beq hc, List.cons_append]
      · simp at h

theorem booleanAt?_eq {t : Text} {b : BooleanWord} (h : booleanAt? t = some b) :
    t = b.word ++ b.rest ∧ (b.word, b.opposite) ∈ booleans := by
  obtain ⟨⟨word, opposite⟩, hm, he⟩ := List.exists_of_findSome?_eq_some h
  dsimp only at he
  split at he
  · rename_i rest hr
    split at he
    · simp at he
    · obtain rfl : _ = b := by simpa using he
      exact ⟨eq_of_isPrefixOf? hr, hm⟩
  · simp at he

theorem length_lt_of_booleanAt? {t : Text} {b : BooleanWord} (h : booleanAt? t = some b) :
    b.rest.length < t.length := by
  obtain ⟨ht, hm⟩ := booleanAt?_eq h
  have hw : ∀ p ∈ booleans, p.1 ≠ [] := by decide
  have : 0 < b.word.length := List.length_pos_iff.2 (hw _ hm)
  have hl := congrArg List.length ht
  rw [List.length_append] at hl
  omega

/-- Flips the boolean words of a text; `inWord` tells whether a word character
stands right before it. -/
def flipFrom (inWord : Bool) : Text → Text
  | [] => []
  | c :: t =>
    if inWord then c :: flipFrom (Text.isWordChar c) t
    else
      match h : booleanAt? (c :: t) with
      | some b =>
        have := length_lt_of_booleanAt? h
        b.opposite ++ flipFrom true b.rest
      | none => c :: flipFrom (Text.isWordChar c) t
termination_by t => t.length
decreasing_by
  · simp
  · exact this
  · simp

def flipBooleans (t : Text) : Text := flipFrom false t

/-- Whether a boolean word stands in a text. -/
def hasBooleanFrom (inWord : Bool) : Text → Bool
  | [] => false
  | c :: t => (!inWord && (booleanAt? (c :: t)).isSome) || hasBooleanFrom (Text.isWordChar c) t

def hasBoolean (t : Text) : Bool := hasBooleanFrom false t

end TextTransforms.Calculator
