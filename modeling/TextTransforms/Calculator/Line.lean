import TextTransforms.Calculator.Booleans
import TextTransforms.Calculator.Readers
import TextTransforms.Number.Notation
import TextTransforms.Text.Blank

/-!
# The expression on a line

A line is searched behind its blanks and comment marks, first for a quoted span,
then for the first boolean word or arithmetic expression that does not start
inside a word. The span found is computed and replaced by its value.

Shown here: what is found makes up the line (`source_of_locate`).
-/

namespace TextTransforms.Calculator

/-- The character that quotes a span. -/
def backtick : Char := '\x60'

/-- Characters passed over, with blanks, at the start of a line. -/
def commentMarks : List Char := ['*', '/', '-']

/-- A line cut around the span to be replaced. -/
structure Located where
  before : Text
  /-- The text to compute. -/
  expression : Text
  /-- The text to replace: the expression, with its quotes if it has some. -/
  span : Text
  after : Text
  deriving DecidableEq, Repr

def Located.source (l : Located) : Text := l.before ++ l.span ++ l.after

/-- Where the span stands, in bytes. -/
def Located.start (l : Located) : Nat := l.before.utf8Length

def Located.stop (l : Located) : Nat := l.start + l.span.utf8Length

def Located.behind (head : Text) (l : Located) : Located := { l with before := head ++ l.before }

/-! ## Searching -/

/-- The line behind its leading blanks and comment marks. -/
def searchRegion (line : Text) : Text :=
  Text.trimStart ((Text.trimStart line).dropWhile commentMarks.contains)

/-- The first quoted span that is not empty. Quotes pair up from the left, and the
second of an empty pair opens the next one. -/
def quotedSpan? : Text → Option Located
  | [] => none
  | c :: t =>
    if c = backtick then
      match Text.cut? backtick t with
      | none => none
      | some ([], _) => (quotedSpan? t).map (Located.behind [c])
      | some (content, after) =>
        some ⟨[], content, backtick :: content ++ [backtick], after⟩
    else (quotedSpan? t).map (Located.behind [c])

/-- The boolean word or the expression that a text starts with, cut off. -/
def spanAt? (t : Text) : Option Located :=
  match booleanAt? t with
  | some b => some ⟨[], b.word, b.word, b.rest⟩
  | none =>
    (Expr.parseStart? t).map fun (_, rest) =>
      let span := t.take (t.length - rest.length)
      ⟨[], span, span, rest⟩

/-- The first span that does not start behind a word character; `inWord` tells
whether one stands right before the text. -/
def spanFrom? (inWord : Bool) : Text → Option Located
  | [] => none
  | c :: t =>
    let here := if inWord then none else spanAt? (c :: t)
    match here with
    | some l => some l
    | none => (spanFrom? (Text.isWordChar c) t).map (Located.behind [c])

def locate (line : Text) : Except Error Located :=
  let region := searchRegion line
  let head := line.take (line.length - region.length)
  match (quotedSpan? region).or (spanFrom? false region) with
  | some l => .ok (l.behind head)
  | none => .error .noExpression

/-! ## What is found makes up the text -/

theorem Located.source_behind (head : Text) (l : Located) :
    (l.behind head).source = head ++ l.source := by
  simp [behind, source]

theorem append_take_of_suffix {t rest : Text} (h : rest <:+ t) :
    t.take (t.length - rest.length) ++ rest = t := by
  obtain ⟨s, rfl⟩ := h
  simp

theorem source_of_quotedSpan? {t : Text} {l : Located} (h : quotedSpan? t = some l) :
    l.source = t := by
  induction t generalizing l with
  | nil => simp [quotedSpan?] at h
  | cons c t ih =>
    have step : (quotedSpan? t).map (Located.behind [c]) = some l → l.source = c :: t := by
      intro h
      obtain ⟨l', hl, rfl⟩ := Option.map_eq_some_iff.1 h
      rw [Located.source_behind, ih hl, List.singleton_append]
    rw [quotedSpan?] at h
    split at h
    · rename_i hc
      split at h
      · simp at h
      · exact step h
      · rename_i content after _ hcut
        obtain rfl : _ = l := by simpa using h
        simp [Located.source, (Text.cut?_eq_some_iff.1 hcut).1, hc]
    · exact step h

theorem source_of_spanAt? {t : Text} {l : Located} (h : spanAt? t = some l) : l.source = t := by
  unfold spanAt? at h
  split at h
  · rename_i b hb
    obtain rfl : _ = l := by simpa using h
    simp [Located.source, (booleanAt?_eq hb).1]
  · obtain ⟨⟨e, rest⟩, hr, rfl⟩ := Option.map_eq_some_iff.1 h
    exact append_take_of_suffix (Expr.level?_suffix hr)

theorem source_of_spanFrom? {inWord : Bool} {t : Text} {l : Located}
    (h : spanFrom? inWord t = some l) : l.source = t := by
  induction t generalizing inWord l with
  | nil => simp [spanFrom?] at h
  | cons c t ih =>
    rw [spanFrom?] at h
    split at h
    · rename_i l' hl
      obtain rfl : l' = l := by simpa using h
      split at hl
      · simp at hl
      · exact source_of_spanAt? hl
    · obtain ⟨l', hl, rfl⟩ := Option.map_eq_some_iff.1 h
      rw [Located.source_behind, ih hl, List.singleton_append]

theorem searchRegion_suffix (line : Text) : searchRegion line <:+ line :=
  (Text.trimStart_suffix _).trans ((List.dropWhile_suffix _).trans (Text.trimStart_suffix line))

theorem source_of_locate {line : Text} {l : Located} (h : locate line = .ok l) :
    l.source = line := by
  unfold locate at h
  dsimp only at h
  split at h
  · rename_i l' hl
    obtain rfl : _ = l := by simpa using h
    have hs : l'.source = searchRegion line := by
      rcases Option.or_eq_some_iff.1 hl with hl | ⟨-, hl⟩
      · exact source_of_quotedSpan? hl
      · exact source_of_spanFrom? hl
    rw [Located.source_behind, hs, append_take_of_suffix (searchRegion_suffix line)]
  · simp at h

/-! ## Computing -/

inductive Value where
  | number (x : Float)
  /-- The expression with its boolean words flipped. -/
  | flipped (t : Text)

def Value.text : Value → Text
  | number x => numberText x
  | flipped t => t

/-- The value of an expression: its flipped text if it has a boolean word. -/
def evaluate (expression : Text) : Except Error Value :=
  if hasBoolean expression then .ok (.flipped (flipBooleans expression))
  else do
    let e ← Expr.parse expression
    let x ← e.eval
    return .number x

def evaluateLine (line : Text) : Except Error Value := do
  evaluate (← locate line).expression

/-- Replaces the expression on a line by its value, set off from a letter or digit
that follows. -/
def applyToLine (line : Text) : Except Error Text := do
  let l ← locate line
  let value ← evaluate l.expression
  let gap := if l.after.head?.any Char.isAlphanum then [' '] else []
  return l.before ++ value.text ++ gap ++ l.after

end TextTransforms.Calculator
