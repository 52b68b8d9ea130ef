import TextTransforms.Clipboard.Comments
import TextTransforms.Text.Blank
import TextTransforms.Text.Lines

/-!
# Stripping

Comments and blank lines are removed from code on its way to the clipboard; from
markdown only as far as the settings ask for it.
-/

namespace TextTransforms.Clipboard

/-! ## Blank lines -/

/-- A line of blanks that a line feed ends. -/
def isBlankLine (line : Text) : Bool := line.getLast? == some '\n' && line.all Text.isBlank

/-- Removes the blank lines of a text; a last line without line feed stays. -/
def stripBlankLines (t : Text) : Text := ((Text.lines t).filter (!isBlankLine ·)).flatten

/-! ## Settings and options -/

structure Settings where
  removeCommentsInMarkdown : Bool := false
  removeWhitespaceInMarkdown : Bool := false
  showNotifications : Bool := true
  deriving DecidableEq, Repr

/-- What to remove. -/
structure Options where
  comments : Bool := false
  blankLines : Bool := false
  deriving DecidableEq, Repr

/-- What to remove from a document: all of it from code, from markdown what the settings say. -/
def Settings.options (s : Settings) (isMarkdown : Bool) : Options where
  comments := !isMarkdown || s.removeCommentsInMarkdown
  blankLines := !isMarkdown || s.removeWhitespaceInMarkdown

/-- A message about what was removed, if anything was asked for. -/
def Options.notification? (o : Options) : Option Text :=
  match o.comments, o.blankLines with
  | true, true => some "Comments and empty lines removed from clipboard.".toList
  | true, false => some "Comments removed from clipboard.".toList
  | false, true => some "Whitespace removed from clipboard".toList
  | false, false => none

/-- Removes comments first, then blank lines, as asked. -/
def strip (o : Options) (t : Text) : Text :=
  let t := if o.comments then stripComments t else t
  if o.blankLines then stripBlankLines t else t

end TextTransforms.Clipboard
