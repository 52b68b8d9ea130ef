import TextTransforms.Text.Blank
import TextTransforms.Text.Lines

/-!
# Markdown links

Each line of a text that is not blank becomes a list item with a link.
-/

namespace TextTransforms

/-- The target of a link is the address, the name and the query. -/
structure LinkTemplate where
  address : Text
  query : Text
  deriving DecidableEq, Repr

namespace LinkTemplate

def defaultQuery : Text := "?download=true".toList

def item (l : LinkTemplate) (name : Text) : Text :=
  ['-', ' ', '['] ++ name ++ [']', '('] ++ l.address ++ name ++ l.query ++ [')']

/-- The names in a text: its lines, trimmed, less the empty ones. -/
def names (t : Text) : List Text := ((Text.lines t).map Text.trim).filter (!·.isEmpty)

/-- A text of link items, one on each line. -/
def list (l : LinkTemplate) (t : Text) : Text :=
  List.intercalate ['\n'] ((names t).map l.item)

end LinkTemplate

end TextTransforms
