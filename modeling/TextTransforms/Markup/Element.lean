import TextTransforms.Text.Blank

/-!
# The element at a cursor

The cursor is a byte offset in markup text; one inside a character stands for
that character, one past the end for the last. The element is the one whose
opening tag holds the cursor: its `<` is found by walking back over closed pairs
of angle brackets, and its end by walking on to its closing tag or its `/>`,
counting the elements of the same name that open and close on the way.

Shown here: what is found makes up the text (`source_of_elementAt?`).
-/

namespace TextTransforms.Markup

/-- A text cut around one of its elements. -/
structure Found where
  before : Text
  /-- The element from its `<` on. -/
  element : Text
  after : Text
  deriving DecidableEq, Repr

namespace Found

def source (f : Found) : Text := f.before ++ f.element ++ f.after

/-- Where the element stands, in bytes. -/
def start (f : Found) : Nat := f.before.utf8Length

def stop (f : Found) : Nat := f.start + f.element.utf8Length

end Found

/-! ## The opening bracket -/

/-- Cuts a text behind the character that byte `n` belongs to. -/
def cutBehind : Nat → Text → Text × Text
  | _, [] => ([], [])
  | n, c :: t =>
    if n < c.utf8Size then ([c], t)
    else
      let (head, tail) := cutBehind (n - c.utf8Size) t
      (c :: head, tail)

theorem cutBehind_append (n : Nat) (t : Text) : (cutBehind n t).1 ++ (cutBehind n t).2 = t := by
  induction t generalizing n with
  | nil => rfl
  | cons c t ih =>
    rw [cutBehind]
    split
    · rfl
    · simp [ih]

/-- Walks back from the end of a text, given in reverse, to the `<` that opens the
bracket it stands in. Returns the text before it, in reverse, and the text
between it and `passed`. -/
def openingBracket? (depth : Nat) (passed : Text) : Text → Option (Text × Text)
  | [] => none
  | c :: t =>
    if c = '>' then openingBracket? (depth + 1) (c :: passed) t
    else if c = '<' then
      if depth = 0 then some (t, passed) else openingBracket? (depth - 1) (c :: passed) t
    else openingBracket? depth (c :: passed) t

theorem openingBracket?_eq {depth : Nat} {passed t before between : Text}
    (h : openingBracket? depth passed t = some (before, between)) :
    t.reverse ++ passed = before.reverse ++ '<' :: between := by
  induction t generalizing depth passed with
  | nil => simp [openingBracket?] at h
  | cons c t ih =>
    rw [openingBracket?] at h
    rw [List.reverse_cons, List.append_assoc]
    split at h
    · exact ih h
    · split at h
      · split at h
        · rename_i hc _
          obtain ⟨rfl, rfl⟩ : t = before ∧ passed = between := by simpa using h
          simp [hc]
        · exact ih h
      · exact ih h

/-! ## The end of the element -/

/-- A closing tag for `name` at the start of a text that follows `<`, cut off. -/
def closingTag? (name : Text) : Text → Option (Text × Text)
  | '/' :: t =>
    match Text.cut? '>' t with
    | some (inside, rest) =>
      if Text.trim inside = name then some ('/' :: inside ++ ['>'], rest) else none
    | none => none
  | _ => none

/-- Whether a text that follows `<` opens another element called `name`, which is
not closed by its own tag. -/
def opensNested (name : Text) (t : Text) : Bool :=
  match name.isPrefixOf? t with
  | none => false
  | some rest =>
    !rest.head?.any Char.isAlphanum &&
      match Text.cut? '>' t with
      | some (inside, _) => inside.getLast? != some '/'
      | none => true

/-- Cuts a text behind the end of the element called `name` that it lies in;
`inTag` while the opening tag has not ended, `nested` for the elements of the
same name that are open inside. -/
def elementEnd? (name : Text) (inTag : Bool) (nested : Nat) : Text → Option (Text × Text)
  | [] => none
  | c :: t =>
    let keep := fun (r : Option (Text × Text)) => r.map fun (inside, rest) => (c :: inside, rest)
    if c = '/' ∧ t.head? = some '>' ∧ inTag ∧ nested = 0 then some ([c, '>'], t.tail)
    else if c = '>' then keep (elementEnd? name false nested t)
    else if c = '<' then
      match closingTag? name t with
      | some (tag, rest) =>
        if nested = 0 then some (c :: tag, rest) else keep (elementEnd? name inTag (nested - 1) t)
      | none =>
        keep (elementEnd? name inTag (if opensNested name t then nested + 1 else nested) t)
    else keep (elementEnd? name inTag nested t)

/-- The element whose opening tag holds the cursor. -/
def elementAt? (t : Text) (cursor : Nat) : Option Found := do
  let (upTo, behind) := cutBehind cursor t
  let (before, between) ← openingBracket? 0 [] upTo.reverse
  let inside := between ++ behind
  let name := inside.takeWhile Char.isAlphanum
  if name.isEmpty then none
  else
    let (element, after) ← elementEnd? name true 0 inside
    some ⟨before.reverse, '<' :: element, after⟩

theorem closingTag?_eq {name t tag rest : Text} (h : closingTag? name t = some (tag, rest)) :
    t = tag ++ rest := by
  unfold closingTag? at h
  split at h
  · split at h
    · rename_i hc
      split at h
      · obtain ⟨rfl, rfl⟩ : _ = tag ∧ _ = rest := by simpa using h
        simp [(Text.cut?_eq_some_iff.1 hc).1]
      · simp at h
    · simp at h
  · simp at h

theorem elementEnd?_eq {name t element after : Text} {inTag : Bool} {nested : Nat}
    (h : elementEnd? name inTag nested t = some (element, after)) : t = element ++ after := by
  induction t generalizing inTag nested element with
  | nil => simp [elementEnd?] at h
  | cons c t ih =>
    have step : ∀ {inTag nested}, (elementEnd? name inTag nested t).map
        (fun (inside, rest) => (c :: inside, rest)) = some (element, after) →
        c :: t = element ++ after := by
      intro inTag nested h
      obtain ⟨⟨a, b⟩, hr, he⟩ := Option.map_eq_some_iff.1 h
      obtain ⟨rfl, rfl⟩ : c :: a = element ∧ b = after := by simpa using he
      rw [ih hr, List.cons_append]
    rw [elementEnd?] at h
    dsimp only at h
    split at h
    · rename_i hc
      obtain ⟨rfl, rfl⟩ : [c, '>'] = element ∧ t.tail = after := by simpa using h
      cases t with
      | nil => simp at hc
      | cons d t => simp_all
    · split at h
      · exact step h
      · split at h
        · split at h
          · rename_i hc
            split at h
            · obtain ⟨rfl, rfl⟩ : _ = element ∧ _ = after := by simpa using h
              rw [closingTag?_eq hc, List.cons_append]
            · exact step h
          · exact step h
        · exact step h

theorem source_of_elementAt? {t : Text} {cursor : Nat} {f : Found}
    (h : elementAt? t cursor = some f) : f.source = t := by
  unfold elementAt? at h
  dsimp only at h
  obtain ⟨⟨before, between⟩, hb, h⟩ := Option.bind_eq_some_iff.1 h
  dsimp only at h
  split at h
  · simp at h
  · obtain ⟨⟨element, after⟩, he, h⟩ := Option.bind_eq_some_iff.1 h
    obtain rfl : _ = f := by simpa using h
    have hb := openingBracket?_eq hb
    rw [List.reverse_reverse, List.append_nil] at hb
    have ht := cutBehind_append cursor t
    rw [hb] at ht
    have := elementEnd?_eq he
    simp only [Found.source]
    rw [← ht, List.append_assoc, List.cons_append, ← this]
    simp

end TextTransforms.Markup
