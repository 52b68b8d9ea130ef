import TextTransforms.Text.Basic

/-!
# Lexemes of an argument list

Source text is read as lexemes: a closed string or character literal is one
lexeme, every other character stands alone. A backslash inside a literal takes
the next character with it. A quote that opens no literal (an unclosed `"`, or
the `'` of a lifetime) is a lexeme of its own.

Shown here: the lexemes of a text spell the text (`source_lexemes`).
-/

namespace TextTransforms

/-! ## Literals -/

/-- Reads the body of a literal, up to its closing `mark`, and what follows it. -/
def readBody (mark : Char) : Text → Option (Text × Text)
  | [] => none
  | c :: t =>
    if c = '\\' then
      match t with
      | [] => none
      | d :: t => (readBody mark t).map fun (body, rest) => (c :: d :: body, rest)
    else if c = mark then some ([], t)
    else (readBody mark t).map fun (body, rest) => (c :: body, rest)

theorem eq_of_readBody {mark : Char} {t body rest : Text}
    (h : readBody mark t = some (body, rest)) : t = body ++ mark :: rest := by
  fun_induction readBody mark t generalizing body rest with
  | case1 => simp at h
  | case2 => simp at h
  | case3 d t ih =>
    obtain ⟨⟨a, b⟩, hr, he⟩ := Option.map_eq_some_iff.1 h
    obtain ⟨rfl, rfl⟩ : _ = body ∧ _ = rest := by simpa using he
    simp [ih hr]
  | case4 t _ =>
    obtain ⟨rfl, rfl⟩ : [] = body ∧ t = rest := by simpa using h
    rfl
  | case5 c t _ _ ih =>
    obtain ⟨⟨a, b⟩, hr, he⟩ := Option.map_eq_some_iff.1 h
    obtain ⟨rfl, rfl⟩ : _ = body ∧ _ = rest := by simpa using he
    simp [ih hr]

/-- Reads the body of a character literal whose opening quote has been passed:
one character, or an escape running to the next unescaped quote. -/
def readCharacter : Text → Option (Text × Text)
  | [] => none
  | c :: t =>
    if c = '\\' then readBody '\'' (c :: t)
    else match t with
      | '\'' :: rest => some ([c], rest)
      | _ => none

theorem eq_of_readCharacter {t body rest : Text} (h : readCharacter t = some (body, rest)) :
    t = body ++ '\'' :: rest := by
  unfold readCharacter at h
  split at h
  · simp at h
  · split at h
    · exact eq_of_readBody h
    · split at h
      · obtain ⟨rfl, rfl⟩ : _ = body ∧ _ = rest := by simpa using h
        rfl
      · simp at h

/-! ## Lexemes -/

inductive Lexeme where
  | char (c : Char)
  | literal (mark : Char) (body : Text)
  deriving DecidableEq, Repr

namespace Lexeme

def source : Lexeme → Text
  | char c => [c]
  | literal mark body => mark :: body ++ [mark]

def isOpener (l : Lexeme) : Bool := l == char '(' || l == char '[' || l == char '{'

def isCloser (l : Lexeme) : Bool := l == char ')' || l == char ']' || l == char '}'

/-- Bracket depth behind `l`; any closer closes any opener, and none goes below zero. -/
def nest (depth : Nat) (l : Lexeme) : Nat :=
  if l.isOpener then depth + 1 else if l.isCloser then depth - 1 else depth

/-- The first lexeme of a text that starts with `c`, and the text behind it. -/
def read (c : Char) (t : Text) : Lexeme × Text :=
  let body? :=
    if c = '"' then readBody '"' t else if c = '\'' then readCharacter t else none
  match body? with
  | some (body, rest) => (literal c body, rest)
  | none => (char c, t)

theorem source_read (c : Char) (t : Text) : (read c t).1.source ++ (read c t).2 = c :: t := by
  unfold read
  dsimp only
  split
  · rename_i body rest h
    split at h
    · rename_i hc
      simp [source, eq_of_readBody h, hc]
    · split at h
      · rename_i hc
        simp [source, eq_of_readCharacter h, hc]
      · simp at h
  · rfl

theorem source_ne_nil (l : Lexeme) : l.source ≠ [] := by
  cases l <;> simp [source]

theorem length_read_lt (c : Char) (t : Text) : (read c t).2.length < (c :: t).length := by
  have h := congrArg List.length (source_read c t)
  have := List.length_pos_iff.2 (source_ne_nil (read c t).1)
  simp only [List.length_append] at h
  omega

end Lexeme

/-- The text that a list of lexemes spells. -/
def sourceOf (ls : List Lexeme) : Text := ls.flatMap Lexeme.source

@[simp] theorem sourceOf_nil : sourceOf [] = [] := rfl

@[simp] theorem sourceOf_cons (l : Lexeme) (ls : List Lexeme) :
    sourceOf (l :: ls) = l.source ++ sourceOf ls := rfl

def lexemes : Text → List Lexeme
  | [] => []
  | c :: t => (Lexeme.read c t).1 :: lexemes (Lexeme.read c t).2
termination_by t => t.length
decreasing_by exact Lexeme.length_read_lt c t

@[simp] theorem source_lexemes (t : Text) : sourceOf (lexemes t) = t := by
  fun_induction lexemes t with
  | case1 => rfl
  | case2 c t ih => rw [sourceOf_cons, ih, Lexeme.source_read]

end TextTransforms
