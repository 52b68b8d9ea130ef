import TextTransforms.Number.Numeral

/-!
# Pieces of a spec

A spec is read as opaque literal text and positional counts, `K$`. Only a run of
digits that no word character precedes and a `$` follows is a count; the counts
`name$` and plain numbers stay literal.
-/

namespace TextTransforms

inductive SpecPiece where
  | literal (source : Text)
  | count (index : Nat)
  deriving DecidableEq, Repr

namespace SpecPiece

/-- A piece as written: a count in its shortest numeral. -/
def source : SpecPiece → Text
  | literal source => source
  | count index => Numeral.ofNat index ++ ['$']

def isCount : SpecPiece → Bool
  | literal _ => false
  | count _ => true

/-- The first piece of a spec that starts with `c`, and the text behind it. -/
def read (c : Char) (t : Text) : SpecPiece × Text :=
  if c.isDigit then
    let digits := c :: t.takeWhile Char.isDigit
    match t.dropWhile Char.isDigit with
    | '$' :: rest =>
      if Numeral.value digits < Numeral.indexLimit then (count (Numeral.value digits), rest)
      else (literal digits, '$' :: rest)
    | rest => (literal digits, rest)
  else if Text.isWordChar c then
    (literal (c :: t.takeWhile Text.isWordChar), t.dropWhile Text.isWordChar)
  else
    (literal (c :: t.takeWhile (!Text.isWordChar ·)), t.dropWhile (!Text.isWordChar ·))

theorem length_read_lt (c : Char) (t : Text) : (read c t).2.length < (c :: t).length := by
  have h1 := Text.length_dropWhile_le Char.isDigit t
  have h2 := Text.length_dropWhile_le Text.isWordChar t
  have h3 := Text.length_dropWhile_le (!Text.isWordChar ·) t
  rw [read, List.length_cons]
  split
  · split
    · rename_i hd
      rw [hd, List.length_cons] at h1
      dsimp only
      split <;> simp only [List.length_cons] <;> omega
    · dsimp only; omega
  · split <;> dsimp only <;> omega

end SpecPiece

/-- The pieces of a spec. -/
def specPieces : Text → List SpecPiece
  | [] => []
  | c :: t => (SpecPiece.read c t).1 :: specPieces (SpecPiece.read c t).2
termination_by t => t.length
decreasing_by exact SpecPiece.length_read_lt c t

end TextTransforms
