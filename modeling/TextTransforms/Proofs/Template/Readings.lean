import TextTransforms.Proofs.Template.Pieces
import TextTransforms.Template.Token

/-!
# What a template refers to

A template is read against an argument list: an index and a count denote the
argument they number, a word denotes itself, and the placeholders without argument
denote the arguments in their order (`readings`). A reference beyond the list
denotes `none`.

The counts of a spec are read piece by piece (`countsOf_count`, `countsOf_literal`); a
`$` in front of a spec changes nothing (`countsOf_dollar`).
-/

namespace TextTransforms

namespace SpecPiece

open Text (isWordChar)

def startsWithDollar : List SpecPiece → Bool
  | literal ('$' :: _) :: _ => true
  | _ => false

/-- What the counts `K$` and `name$` among the pieces of a spec denote. -/
def counts (args : List Text) : List SpecPiece → List (Option Text)
  | [] => []
  | count index :: rest => args[index]? :: counts args rest
  | literal source :: rest =>
    if Text.isWord source ∧ startsWithDollar rest then some source :: counts args rest
    else counts args rest

def countsOf (args : List Text) (spec : Text) : List (Option Text) := counts args (specPieces spec)

@[simp] theorem countsOf_nil (args : List Text) : countsOf args [] = [] := by
  simp [countsOf, counts]

private theorem ne_dollar_of_isWordChar {c : Char} (h : isWordChar c = true) : c ≠ '$' :=
  Text.ne_of_isWordChar h (by decide)

theorem startsWithDollar_specPieces (t : Text) :
    startsWithDollar (specPieces t) = true ↔ t.head? = some '$' := by
  by_cases ht : t = []
  · simp [ht, startsWithDollar]
  · obtain ⟨s, rest, piece, rfl, h⟩ := exists_leads ht
    rw [h.specPieces_eq]
    have digits {c : Char} {ds : Text} (hd : IsDigits (c :: ds)) : c ≠ '$' :=
      ne_dollar_of_isWordChar (Text.isWordChar_of_isDigit (hd.2 c List.mem_cons_self))
    cases h with
    | count hd =>
      obtain ⟨c, ds, rfl⟩ := List.exists_cons_of_ne_nil hd.1
      simp [startsWithDollar, digits hd]
    | digits hd =>
      obtain ⟨c, ds, rfl⟩ := List.exists_cons_of_ne_nil hd.1
      simp [startsWithDollar, digits hd]
    | name hc => simp [startsWithDollar, ne_dollar_of_isWordChar hc]
    | @other c => by_cases hc : c = '$' <;> simp [startsWithDollar, hc]

theorem countsOf_count (args : List Text) {s rest : Text} {index : Nat}
    (h : Leads s rest (.count index)) :
    countsOf args (s ++ rest) = args[index]? :: countsOf args rest := by
  rw [countsOf, h.specPieces_eq, counts, countsOf]

theorem countsOf_literal {args : List Text} {s rest source : Text}
    (h : Leads s rest (.literal source)) :
    countsOf args (s ++ rest) =
      if Text.isWord source ∧ rest.head? = some '$' then some source :: countsOf args rest
      else countsOf args rest := by
  rw [countsOf, h.specPieces_eq, counts]
  simp only [startsWithDollar_specPieces]
  rfl

private theorem not_isWord_cons {c : Char} (t : Text) (hc : isWordChar c = false) :
    ¬ Text.isWord (c :: t) = true := by
  simp [Text.isWord, hc]

/-- A `$` in front of a spec is no count, and ends none that was there. -/
theorem countsOf_dollar (args : List Text) (t : Text) :
    countsOf args ('$' :: t) = countsOf args t := by
  have skip {s rest : Text} (h : Leads ('$' :: s) rest (.literal ('$' :: s))) :
      countsOf args ('$' :: s ++ rest) = countsOf args rest := by
    rw [countsOf_literal h, if_neg (fun hw => not_isWord_cons s (by decide) hw.1)]
  rcases leads_cons_other (c := '$') t (by decide) with h | ⟨d, s, rest, hd, rfl, h, h'⟩
  · exact skip h
  · rw [countsOf_literal h, if_neg (fun hw => not_isWord_cons s hd hw.1)]
    exact skip h'

end SpecPiece

/-! ## Placeholders -/

namespace Placeholder

/-- What the counts of a placeholder denote. -/
def counts (args : List Text) (p : Placeholder) : List (Option Text) :=
  match p.spec with
  | some spec => SpecPiece.countsOf args spec
  | none => []

/-- What the argument of a placeholder denotes; `next` is the argument whose turn it is. -/
def value (args : List Text) (next : Nat) (p : Placeholder) : Option Text :=
  if p.isImplicit then args[next]?
  else match p.index? with
    | some index => args[index]?
    | none => some p.argument

end Placeholder

/-- What a placeholder refers to. -/
structure Reading where
  isImplicit : Bool
  value : Option Text
  counts : List (Option Text)
  deriving DecidableEq, Repr

/-- The placeholders among the tokens read against an argument list, if `next` of them
without argument stand before. -/
def readings (args : List Text) (next : Nat) : List Token → List Reading
  | [] => []
  | .text _ :: tokens => readings args next tokens
  | .placeholder p :: tokens =>
    ⟨p.isImplicit, p.value args next, p.counts args⟩ ::
      readings args (if p.isImplicit then next + 1 else next) tokens

end TextTransforms
