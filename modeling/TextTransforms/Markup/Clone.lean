import TextTransforms.Error
import TextTransforms.Markup.Element
import TextTransforms.Number.Increment

/-!
# Cloning an element

The element at the cursor is copied onto a new line right behind it, with every
number of the copy counted up if asked.
-/

namespace TextTransforms.Markup

def clone (t : Text) (cursor : Nat) (increment : Bool) : Except Error Text :=
  match elementAt? t cursor with
  | none => .error .noElement
  | some f =>
    let copy := if increment then incrementNumbers f.element else f.element
    .ok (f.before ++ f.element ++ '\n' :: copy ++ f.after)

end TextTransforms.Markup
