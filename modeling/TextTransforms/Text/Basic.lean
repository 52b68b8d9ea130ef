/-!
# Text

Text is a list of characters. Places and lengths are counted in bytes of the
UTF-8 form (`utf8Length`), words are runs of ASCII letters, digits and `_`.

Shown here: `utf8Length_append`, and that a part at the start of a text is determined
by its bytes (`eq_of_utf8Length_eq`); a text that is cut at a character is its two
parts around that character, and the first part does not hold it
(`cut?_eq_some_iff`, `cut?_eq_none_iff`); `length_dropWhile_le`, for the
recursions that drop a run of characters.
-/

namespace TextTransforms

abbrev Text := List Char

namespace Text

/-- Length of the UTF-8 form in bytes. -/
def utf8Length : Text → Nat
  | [] => 0
  | c :: t => c.utf8Size + utf8Length t

@[simp] theorem utf8Length_nil : utf8Length [] = 0 := rfl

@[simp] theorem utf8Length_append (s t : Text) :
    utf8Length (s ++ t) = utf8Length s + utf8Length t := by
  induction s with
  | nil => simp
  | cons c s ih => simp [utf8Length, ih, Nat.add_assoc]

theorem utf8Length_eq_zero_iff {t : Text} : utf8Length t = 0 ↔ t = [] := by
  cases t with
  | nil => simp
  | cons c t => simp [utf8Length, Nat.ne_of_gt c.utf8Size_pos]

/-- Of two parts at the start of a text, the one with as many bytes is the same. -/
theorem eq_of_utf8Length_eq {s s' rest rest' : Text} (h : s ++ rest = s' ++ rest')
    (hs : utf8Length s = utf8Length s') : s = s' := by
  rcases List.append_eq_append_iff.1 h with ⟨t, rfl, -⟩ | ⟨t, rfl, -⟩
  all_goals
    rw [utf8Length_append] at hs
    have ht : utf8Length t = 0 := by omega
    rw [utf8Length_eq_zero_iff.1 ht, List.append_nil]

theorem length_dropWhile_le (p : Char → Bool) (t : Text) : (t.dropWhile p).length ≤ t.length :=
  (List.dropWhile_suffix p).length_le

/-! ## Words -/

/-- ASCII letters, ASCII digits and `_`. -/
def isWordChar (c : Char) : Bool := c.isAlphanum || c == '_'

/-- A text of word characters, at least one. -/
def isWord (t : Text) : Bool := !t.isEmpty && t.all isWordChar

/-! ## Cutting -/

/-- The text before and the text after the first `mark`. -/
def cut? (mark : Char) : Text → Option (Text × Text)
  | [] => none
  | c :: t =>
    if c = mark then some ([], t)
    else (cut? mark t).map fun (head, tail) => (c :: head, tail)

theorem cut?_eq_none_iff {mark : Char} {t : Text} : cut? mark t = none ↔ mark ∉ t := by
  induction t with
  | nil => simp [cut?]
  | cons c t ih =>
    by_cases h : c = mark
    · simp [cut?, h]
    · simp [cut?, h, ih, Ne.symm h]

theorem cut?_eq_some_iff {mark : Char} {t head tail : Text} :
    cut? mark t = some (head, tail) ↔ t = head ++ mark :: tail ∧ mark ∉ head := by
  induction t generalizing head tail with
  | nil => simp [cut?]
  | cons c t ih =>
    by_cases h : c = mark
    · subst h
      cases head with
      | nil => simp [cut?]
      | cons d head => simp only [cut?, ↓reduceIte]; simp; intro hd; simp [hd]
    · cases head with
      | nil => simp [cut?, h]
      | cons d head =>
        simp only [cut?, h, ↓reduceIte, Option.map_eq_some_iff, Prod.exists, ih]
        constructor
        · rintro ⟨a, b, ⟨ht, hm⟩, he⟩
          obtain ⟨⟨rfl, rfl⟩, rfl⟩ : (c = d ∧ a = head) ∧ b = tail := by simpa using he
          exact ⟨by simp [ht], by simp [hm, Ne.symm h]⟩
        · rintro ⟨ht, hm⟩
          obtain ⟨rfl, rfl⟩ : c = d ∧ t = head ++ mark :: tail := by simpa using ht
          exact ⟨head, tail, ⟨rfl, fun hin => hm (List.mem_cons_of_mem _ hin)⟩, rfl⟩

end Text

end TextTransforms
