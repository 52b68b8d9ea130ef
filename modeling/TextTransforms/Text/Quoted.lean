import TextTransforms.Number.Numeral
import TextTransforms.Text.Hidden

/-!
# Quoted text

A text is quoted so that all of it shows: quotes, backslashes and the common
controls are written with a backslash, every other hidden character by its code
point, and the rest as it is.
-/

namespace TextTransforms.Text

/-- How a character is written between quotes. -/
def quotedChar (c : Char) : Text :=
  if c = '"' then ['\\', '"']
  else if c = '\\' then ['\\', '\\']
  else if c = '\n' then ['\\', 'n']
  else if c = '\r' then ['\\', 'r']
  else if c = '\t' then ['\\', 't']
  else if c = '\x00' then ['\\', '0']
  else if isHidden c then ['\\', 'u', '{'] ++ Nat.toDigits 16 c.toNat ++ ['}']
  else [c]

def quoted (t : Text) : Text := '"' :: t.flatMap quotedChar ++ ['"']

end TextTransforms.Text
