import TextTransforms.Text.Blank
import TextTransforms.Number.Numeral

/-!
# Trailing arguments

The arguments of a call while they are moved into its template. An argument is
used once it stands in the template; a reference to a used argument is its text,
a reference to another is its position among those that stay behind.
-/

namespace TextTransforms

structure Argument where
  source : Text
  used : Bool
  deriving DecidableEq, Repr

/-- Characters that no argument inside a placeholder may have. -/
def uninlinableChars : List Char := ['(', ')', '[', ']', '{', '}', '"', '\'', ':']

/-- An argument may stand in a placeholder if it would not read as an index and
has no bracket, quote or colon. -/
def isInlinable : Text → Bool
  | [] => false
  | c :: t => !c.isDigit && (c :: t).all fun d => !uninlinableChars.contains d

abbrev Arguments := List Argument

namespace Arguments

def ofTexts (ts : List Text) : Arguments := ts.map fun t => ⟨t, false⟩

/-- The text of argument `i`, used or not, if it may stand in a placeholder. -/
def inlinable? (as : Arguments) (i : Nat) : Option Text :=
  (as[i]?.map Argument.source).filter isInlinable

def use (as : Arguments) (i : Nat) : Arguments := as.modify i fun a => { a with used := true }

/-- The first unused position at or behind `start`. -/
def nextUnused? (as : Arguments) (start : Nat) : Option Nat :=
  ((as.drop start).findIdx? (!·.used)).map (start + ·)

/-- The first unused position whose text is not `t`. -/
def unusedOtherThan? (as : Arguments) (t : Text) : Option Nat :=
  as.findIdx? fun a => !a.used && a.source != t

def anyUsed (as : Arguments) : Bool := as.any Argument.used

/-- The texts of the unused arguments, in order. -/
def remaining (as : Arguments) : List Text := (as.filter (!·.used)).map Argument.source

/-- What a reference to argument `i` is written as; nothing if there is no such argument. -/
def reference? (as : Arguments) (i : Nat) : Option Text :=
  as[i]?.map fun a => if a.used then a.source else Numeral.ofNat ((as.take i).countP (!·.used))

end Arguments

end TextTransforms
