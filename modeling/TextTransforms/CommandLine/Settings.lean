import TextTransforms.Clipboard.Strip
import TextTransforms.CommandLine.Options

/-!
# Settings from the command line and the environment

A setting may be given before the command, behind it, and by a variable. An
option wins over a variable, a variable over the default, and of two options the
one behind the command. A variable is read on every level that lacks the option,
so a variable with no boolean value is an error unless both levels have it.
-/

namespace TextTransforms.CommandLine

/-- The variables that stand for settings, as far as they are set. -/
structure Environment where
  removeComments : Option Text := none
  removeWhitespace : Option Text := none
  showNotifications : Option Text := none
  deriving DecidableEq, Repr

def removeCommentsOption : Text := "--remove-comments-in-markdown".toList

def removeWhitespaceOption : Text := "--remove-whitespace-in-markdown".toList

def showNotificationsOption : Text := "--show-notifications".toList

def settingOptions : List Text :=
  [removeCommentsOption, removeWhitespaceOption, showNotificationsOption]

def truthy : List Text :=
  ["y".toList, "yes".toList, "t".toList, "true".toList, "on".toList, "1".toList]

def falsy : List Text :=
  ["n".toList, "no".toList, "f".toList, "false".toList, "off".toList, "0".toList]

/-- Reads a boolean, in any case of its letters. -/
def boolean? (t : Text) : Option Bool :=
  let t := t.map Char.toLower
  if truthy.contains t then some true else if falsy.contains t then some false else none

/-- What one level says about a setting. -/
inductive Choice where
  | unset
  | ofVariable (value : Bool)
  | ofOption (value : Bool)
  deriving DecidableEq, Repr

namespace Choice

def read (fromOption fromVariable : Option Text) : Option Choice :=
  match fromOption, fromVariable with
  | some t, _ => (boolean? t).map ofOption
  | none, some t => (boolean? t).map ofVariable
  | none, none => some unset

/-- The value of a setting from what the outer and the inner level say. -/
def decide (fallback : Bool) : (outer inner : Choice) → Bool
  | _, ofOption value => value
  | ofOption value, _ => value
  | _, ofVariable value => value
  | ofVariable value, _ => value
  | unset, unset => fallback

end Choice

/-- The value of the setting with this option, from both levels and its variable. -/
def setting? (name : Text) (fromVariable : Option Text) (fallback : Bool) (outer inner : Given) :
    Option Bool := do
  let outer ← Choice.read (outer.value? name) fromVariable
  let inner ← Choice.read (inner.value? name) fromVariable
  return Choice.decide fallback outer inner

def settings? (environment : Environment) (outer inner : Given) : Option Clipboard.Settings := do
  let fallback : Clipboard.Settings := {}
  return {
    removeCommentsInMarkdown :=
      ← setting? removeCommentsOption environment.removeComments
        fallback.removeCommentsInMarkdown outer inner
    removeWhitespaceInMarkdown :=
      ← setting? removeWhitespaceOption environment.removeWhitespace
        fallback.removeWhitespaceInMarkdown outer inner
    showNotifications :=
      ← setting? showNotificationsOption environment.showNotifications
        fallback.showNotifications outer inner }

end TextTransforms.CommandLine
