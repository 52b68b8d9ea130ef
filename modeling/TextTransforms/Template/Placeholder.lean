import TextTransforms.Number.Numeral

/-!
# Placeholders

A placeholder stands in braces and is split at its first colon into an argument
and a spec. Shown here: a placeholder spells what it was read from
(`content_ofContent`).
-/

namespace TextTransforms

structure Placeholder where
  argument : Text
  spec : Option Text
  deriving DecidableEq, Repr

namespace Placeholder

/-- Reads what stands between the braces. -/
def ofContent (t : Text) : Placeholder :=
  match Text.cut? ':' t with
  | some (argument, spec) => ⟨argument, some spec⟩
  | none => ⟨t, none⟩

/-- What stands between the braces. -/
def content (p : Placeholder) : Text :=
  match p.spec with
  | some spec => p.argument ++ ':' :: spec
  | none => p.argument

@[simp] theorem content_ofContent (t : Text) : (ofContent t).content = t := by
  rw [ofContent]
  split
  · rename_i h
    exact (Text.cut?_eq_some_iff.1 h).1.symm
  · rfl

/-- The placeholder as it stands in a template. -/
def source (p : Placeholder) : Text := '{' :: p.content ++ ['}']

/-- The index written as argument. -/
def index? (p : Placeholder) : Option Nat := Numeral.index? p.argument

/-- Without argument a placeholder takes the next argument of the list. -/
def isImplicit (p : Placeholder) : Bool := p.argument.isEmpty

end Placeholder

end TextTransforms
