import TextTransforms.Calculator.Expression

/-!
# Reading expressions

A sum is products joined by `+` and `-`, a product is signed atoms joined by `*`,
`/` and `%`, both from the left. An atom is a number, a named constant or
function, or a sum in parentheses. Spaces, tabs and line breaks may stand around
operators, behind signs, and inside and before parentheses.

An operator without an operand and a parenthesis without proper arguments are
left unread. Every reader returns what is left of the text, with the proof that
it is shorter.
-/

namespace TextTransforms

namespace Expr

def skipSpace (t : Text) : Text := t.dropWhile Char.isWhitespace

theorem length_skipSpace_le (t : Text) : (skipSpace t).length ≤ t.length :=
  Text.length_dropWhile_le _ t

/-- What was read from the start of `t`, and the shorter rest. -/
abbrev Reading (α : Type) (t : Text) : Type := { r : α × Text // r.2.length < t.length }

/-! ## Numbers and names -/

/-- `12`, `12.5` or `.5`; a point without a digit behind it is left. -/
def readNumber (t : Text) : Option (Decimal × Text) :=
  let whole := t.takeWhile Char.isDigit
  let rest := t.dropWhile Char.isDigit
  let fraction := rest.tail.takeWhile Char.isDigit
  if rest.head? = some '.' ∧ fraction ≠ [] then
    some (.ofDigits whole fraction, rest.tail.dropWhile Char.isDigit)
  else if whole ≠ [] then some (.ofDigits whole [], rest)
  else none

theorem length_lt_of_readNumber {t rest : Text} {d : Decimal} (h : readNumber t = some (d, rest)) :
    rest.length < t.length := by
  have hs := congrArg List.length
    (List.takeWhile_append_dropWhile (p := Char.isDigit) (l := t))
  rw [List.length_append] at hs
  unfold readNumber at h
  dsimp only at h
  split at h
  · rename_i hc
    obtain ⟨-, rfl⟩ : _ = d ∧ _ = rest := by simpa using h
    have := Text.length_dropWhile_le Char.isDigit (t.dropWhile Char.isDigit).tail
    have : t.dropWhile Char.isDigit ≠ [] := by intro e; simp [e] at hc
    have := List.length_pos_iff.2 this
    simp only [List.length_tail] at *
    omega
  · split at h
    · rename_i hw
      obtain ⟨-, rfl⟩ : _ = d ∧ _ = rest := by simpa using h
      have := List.length_pos_iff.2 hw
      omega
    · simp at h

/-- The name behind `Math.`: a letter, then word characters. -/
def readName (t : Text) : Option (Text × Text) :=
  match t with
  | 'M' :: 'a' :: 't' :: 'h' :: '.' :: c :: t =>
    if c.isAlpha then some (c :: t.takeWhile Text.isWordChar, t.dropWhile Text.isWordChar) else none
  | _ => none

theorem length_lt_of_readName {t name rest : Text} (h : readName t = some (name, rest)) :
    rest.length < t.length := by
  unfold readName at h
  split at h
  · rename_i c t
    split at h
    · obtain ⟨-, rfl⟩ : _ = name ∧ _ = rest := by simpa using h
      have := Text.length_dropWhile_le Text.isWordChar t
      simp only [List.length_cons]
      omega
    · simp at h
  · simp at h

/-! ## Expressions -/

/-- How tightly operators bind. -/
inductive Level where
  | sum
  | product
  deriving DecidableEq, Repr

def Level.operator? : Level → Char → Option Operator
  | sum, '+' => some .add
  | sum, '-' => some .sub
  | product, '*' => some .mul
  | product, '/' => some .div
  | product, '%' => some .rem
  | _, _ => none

mutual

/-- Reads operands joined by the operators of a level. -/
def readLevel (level : Level) (t : Text) : Option (Reading Expr t) :=
  let first :=
    match level with
    | .sum => readLevel .product t
    | .product => readSigned t
  match first with
  | none => none
  | some ⟨(e, rest), h⟩ =>
    let ⟨r, h'⟩ := readMore level e rest
    some ⟨r, Nat.lt_of_le_of_lt h' h⟩
termination_by (t.length, match level with | .sum => 4 | .product => 3)

/-- Reads further operands behind `left`. -/
def readMore (level : Level) (left : Expr) (t : Text) : { r : Expr × Text // r.2.length ≤ t.length } :=
  match h : skipSpace t with
  | [] => ⟨(left, t), Nat.le_refl _⟩
  | c :: behind =>
    have hc : behind.length < t.length := by
      have := length_skipSpace_le t
      rw [h, List.length_cons] at this
      omega
    have hb := length_skipSpace_le behind
    match level.operator? c with
    | none => ⟨(left, t), Nat.le_refl _⟩
    | some op =>
      let operand :=
        match level with
        | .sum => readLevel .product (skipSpace behind)
        | .product => readSigned (skipSpace behind)
      match operand with
      | none => ⟨(left, t), Nat.le_refl _⟩
      | some ⟨(right, rest), hr⟩ =>
        have hr : rest.length < (skipSpace behind).length := hr
        let ⟨r, h'⟩ := readMore level (binary op left right) rest
        ⟨r, by omega⟩
termination_by (t.length, 0)

/-- Reads an atom behind any number of signs; a plus leaves no trace. -/
def readSigned (t : Text) : Option (Reading Expr t) :=
  match t with
  | [] => none
  | c :: behind =>
    have hb := length_skipSpace_le behind
    if c = '-' then
      match readSigned (skipSpace behind) with
      | none => none
      | some ⟨(e, rest), h⟩ => some ⟨(neg e, rest), by simp only [List.length_cons] at *; omega⟩
    else if c = '+' then
      match readSigned (skipSpace behind) with
      | none => none
      | some ⟨r, h⟩ => some ⟨r, by simp only [List.length_cons] at *; omega⟩
    else readAtom (c :: behind)
termination_by (t.length, 2)

/-- Reads a number, a member, or a group. -/
def readAtom (t : Text) : Option (Reading Expr t) :=
  match h : readNumber t with
  | some (d, rest) => some ⟨(number d, rest), length_lt_of_readNumber h⟩
  | none =>
    match readMember t with
    | some r => some r
    | none => readGroup t
termination_by (t.length, 1)

/-- Reads a constant, or a function with its arguments. -/
def readMember (t : Text) : Option (Reading Expr t) :=
  match hn : readName t with
  | none => none
  | some (name, rest) =>
    have hr := length_lt_of_readName hn
    match hp : skipSpace rest with
    | '(' :: behind =>
      have hb : behind.length < rest.length := by
        have := length_skipSpace_le rest
        rw [hp, List.length_cons] at this
        omega
      match readArguments behind with
      | none => some ⟨(constant name, rest), hr⟩
      | some ⟨(args, rest'), h⟩ => some ⟨(call name args, rest'), by simp only at *; omega⟩
    | _ => some ⟨(constant name, rest), hr⟩
termination_by (t.length, 0)

/-- Reads a sum in parentheses. -/
def readGroup (t : Text) : Option (Reading Expr t) :=
  match t with
  | '(' :: behind =>
    have hb := length_skipSpace_le behind
    match readLevel .sum (skipSpace behind) with
    | none => none
    | some ⟨(e, rest), h⟩ =>
      have hr := length_skipSpace_le rest
      match hc : skipSpace rest with
      | ')' :: rest' => some ⟨(e, rest'), by rw [hc] at hr; simp only [List.length_cons] at *; omega⟩
      | _ => none
  | _ => none
termination_by (t.length, 0)

/-- Reads arguments up to the parenthesis that closes them. -/
def readArguments (t : Text) : Option (Reading (List Expr) t) :=
  have hb := length_skipSpace_le t
  match readLevel .sum (skipSpace t) with
  | none => none
  | some ⟨(e, rest), h⟩ =>
    have hr := length_skipSpace_le rest
    match hc : skipSpace rest with
    | ')' :: rest' => some ⟨([e], rest'), by rw [hc] at hr; simp only [List.length_cons] at *; omega⟩
    | ',' :: behind =>
      have hd : behind.length < t.length := by
        rw [hc] at hr; simp only [List.length_cons] at *; omega
      match readArguments behind with
      | none => none
      | some ⟨(args, rest'), h'⟩ => some ⟨(e :: args, rest'), by simp only at *; omega⟩
    | _ => none
termination_by (t.length, 5)
decreasing_by
  · exact Prod.Lex.right' _ hb (by decide)
  · exact Prod.Lex.left _ _ hd

end

/-- The longest expression at the start of a text, and what follows it. -/
def parseStart? (t : Text) : Option (Expr × Text) := (readLevel .sum t).map Subtype.val

/-- Reads a text that is one expression, with space around it. -/
def parse (t : Text) : Except Error Expr :=
  match parseStart? (skipSpace t) with
  | none => .error (.invalidExpression t .notArithmetic)
  | some (e, rest) =>
    match skipSpace rest with
    | [] => .ok e
    | leftover => .error (.invalidExpression t (.leftover leftover))

end Expr

end TextTransforms
