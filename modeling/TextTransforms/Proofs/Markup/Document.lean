import TextTransforms.Markup.Element
import TextTransforms.Proofs.Text.Trim

/-!
# The grammar of markup

A document is text without angle brackets and elements, in any order; an element ends its own
tag with `/>`, or holds a document between its opening and its closing tag. Each spells a text
(`Document.source`), and every element stands somewhere in the document that holds it
(`Document.Holds`).

Walking back over a whole document, or over a whole bracket, changes nothing
(`Document.isClosed`), as every `<` in it is passed together with its `>`.
-/

namespace TextTransforms.Markup

/-! ## Leaves -/

/-- A text without angle brackets. -/
def IsPlain (t : Text) : Prop := ∀ c ∈ t, c ≠ '<' ∧ c ≠ '>'

abbrev Run := { t : Text // IsPlain t }

abbrev Blanks := { t : Text // Text.IsBlanks t }

/-- The name of an element: ASCII letters and digits. -/
abbrev TagName := { t : Text // t ≠ [] ∧ ∀ c ∈ t, c.isAlphanum = true }

/-- What stands behind the name in a tag, apart from it. -/
structure Attributes where
  text : Text
  isPlain : IsPlain text
  apart : ∀ c, text.head? = some c → c.isAlphanum = false

/-! ## Trees -/

mutual

inductive Element : Type
  | selfClosing (name : TagName) (attributes : Attributes) : Element
  | enclosing (name : TagName) (attributes : Attributes)
      (opens : attributes.text.getLast? ≠ some '/') (children : Document)
      (before behind : Blanks) : Element

inductive Document : Type
  | nil : Document
  | text (run : Run) (d : Document) : Document
  | element (e : Element) (d : Document) : Document

end

/-- What stands between the brackets of a closing tag. -/
def closingInside (name : TagName) (before behind : Blanks) : Text :=
  '/' :: (before.1 ++ name.1 ++ behind.1)

/-- Something between angle brackets. -/
def bracket (inside : Text) : Text := '<' :: (inside ++ ['>'])

def Element.name : Element → TagName
  | .selfClosing name _ => name
  | .enclosing name .. => name

/-- What stands behind the name in the tag that an element starts with. -/
def Element.behindName : Element → Text
  | .selfClosing _ attributes => attributes.text ++ ['/']
  | .enclosing _ attributes .. => attributes.text

/-- What stands between the brackets of the tag that an element starts with. -/
def Element.inside (e : Element) : Text := e.name.1 ++ e.behindName

/-- The tag that an element starts with, up to its `>`. -/
def Element.tag (e : Element) : Text := '<' :: e.inside

mutual

/-- What stands behind the tag that an element starts with. -/
def Element.body : Element → Text
  | .selfClosing .. => []
  | .enclosing name _ _ children before behind =>
    children.source ++ bracket (closingInside name before behind)

def Document.source : Document → Text
  | .nil => []
  | .text run d => run.1 ++ d.source
  | .element e d => bracket e.inside ++ e.body ++ d.source

end

def Element.source (e : Element) : Text := bracket e.inside ++ e.body

/-- The element stands in the document, with what stands before and after it. -/
inductive Document.Holds : Document → Text → Element → Text → Prop
  | here (e : Element) (d : Document) : Holds (.element e d) [] e d.source
  | inside {name attributes opens children before behind} {s t : Text} {e : Element}
      (h : Holds children s e t) (d : Document) :
      Holds (.element (.enclosing name attributes opens children before behind) d)
        (bracket (name.1 ++ attributes.text) ++ s) e
        (t ++ bracket (closingInside name before behind) ++ d.source)
  | behindText (run : Run) {d : Document} {s t : Text} {e : Element} (h : Holds d s e t) :
      Holds (.text run d) (run.1 ++ s) e t
  | behindElement (e' : Element) {d : Document} {s t : Text} {e : Element} (h : Holds d s e t) :
      Holds (.element e' d) (e'.source ++ s) e t

theorem Document.source_element (e : Element) (d : Document) :
    (Document.element e d).source = e.source ++ d.source := rfl

theorem Element.source_eq (e : Element) : e.source = e.tag ++ '>' :: e.body := by
  simp [source, tag, bracket]

theorem Element.apart (e : Element) : ∀ c, e.behindName.head? = some c → c.isAlphanum = false := by
  cases e with
  | enclosing name attributes => exact attributes.apart
  | selfClosing name attributes =>
    intro c hc
    rw [behindName] at hc
    cases h : attributes.text with
    | nil =>
      obtain rfl : '/' = c := by simpa [h] using hc
      decide
    | cons d s =>
      obtain rfl : d = c := by simpa [h] using hc
      exact attributes.apart d (by rw [h]; rfl)

theorem Document.Holds.source_eq {d : Document} {s t : Text} {e : Element} (h : d.Holds s e t) :
    d.source = s ++ (e.source ++ t) := by
  induction h with
  | here e d => rfl
  | inside h d ih =>
    simp [Document.source, Element.inside, Element.name, Element.behindName, Element.body, ih]
  | behindText run h ih => rw [Document.source, ih, List.append_assoc]
  | behindElement e' h ih => rw [Document.source_element, ih, List.append_assoc]

/-! ## Plain texts -/

section Plain

variable {s t : Text}

theorem IsPlain.append (hs : IsPlain s) (ht : IsPlain t) : IsPlain (s ++ t) := by
  intro c hc
  rcases List.mem_append.1 hc with hc | hc
  · exact hs c hc
  · exact ht c hc

theorem IsPlain.cons {c : Char} (hc : c ≠ '<' ∧ c ≠ '>') (ht : IsPlain t) : IsPlain (c :: t) := by
  intro d hd
  rcases List.mem_cons.1 hd with rfl | hd
  · exact hc
  · exact ht d hd

theorem TagName.isPlain (name : TagName) : IsPlain name.1 := by
  intro c hc
  have h := name.2.2 c hc
  constructor <;> rintro rfl <;> exact absurd h (by decide)

theorem Blanks.isPlain (b : Blanks) : IsPlain b.1 := by
  intro c hc
  have h := b.2 c hc
  constructor <;> rintro rfl <;> exact absurd h (by decide)

theorem Element.isPlain_inside (e : Element) : IsPlain e.inside := by
  cases e with
  | selfClosing name attributes =>
    exact name.isPlain.append (attributes.isPlain.append (by simp [IsPlain]))
  | enclosing name attributes => exact name.isPlain.append attributes.isPlain

theorem isPlain_closingInside (name : TagName) (before behind : Blanks) :
    IsPlain (closingInside name before behind) :=
  ((before.isPlain.append name.isPlain).append behind.isPlain).cons (by decide)

end Plain

/-! ## Walking back -/

/-- Walking back over the text changes nothing but what was passed. -/
def IsClosed (p : Text) : Prop :=
  ∀ depth passed t,
    openingBracket? depth passed (p.reverse ++ t) = openingBracket? depth (p ++ passed) t

theorem isClosed_nil : IsClosed [] := fun _ _ _ => rfl

theorem IsClosed.append {p q : Text} (hp : IsClosed p) (hq : IsClosed q) : IsClosed (p ++ q) := by
  intro depth passed t
  rw [List.reverse_append, List.append_assoc, hq, hp, List.append_assoc]

theorem IsPlain.isClosed {s : Text} (h : IsPlain s) : IsClosed s := by
  induction s with
  | nil => exact isClosed_nil
  | cons c s ih =>
    have hs : IsClosed s := ih fun d hd => h d (List.mem_cons_of_mem c hd)
    obtain ⟨hopen, hclose⟩ := h c List.mem_cons_self
    intro depth passed t
    rw [List.reverse_cons, List.append_assoc, hs, List.singleton_append, openingBracket?,
      if_neg hclose, if_neg hopen, List.cons_append]

theorem isClosed_bracket {s : Text} (h : IsPlain s) : IsClosed (bracket s) := by
  intro depth passed t
  rw [bracket, List.reverse_cons, List.reverse_append, List.append_assoc, List.append_assoc]
  change openingBracket? depth passed ('>' :: (s.reverse ++ '<' :: t)) = _
  rw [openingBracket?, if_pos rfl, h.isClosed, openingBracket?, if_neg (by decide), if_pos rfl,
    if_neg (by omega)]
  simp

mutual

theorem Element.isClosed_body : (e : Element) → IsClosed e.body
  | .selfClosing .. => isClosed_nil
  | .enclosing name _ _ children before behind =>
    children.isClosed.append (isClosed_bracket (isPlain_closingInside name before behind))

theorem Document.isClosed : (d : Document) → IsClosed d.source
  | .nil => isClosed_nil
  | .text run d => run.2.isClosed.append d.isClosed
  | .element e d =>
    ((isClosed_bracket e.isPlain_inside).append e.isClosed_body).append d.isClosed

end

theorem Element.isClosed (e : Element) : IsClosed e.source :=
  (isClosed_bracket e.isPlain_inside).append e.isClosed_body

end TextTransforms.Markup
