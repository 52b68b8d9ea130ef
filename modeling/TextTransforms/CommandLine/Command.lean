import TextTransforms.Calculator.Line
import TextTransforms.CommandLine.Settings
import TextTransforms.Inlining.Basic
import TextTransforms.Links
import TextTransforms.Markup.Clone

/-!
# Commands

A command line names one command; the command transforms the text that is read
from the standard input. A command line that cannot be read is refused before
any input is read.
-/

namespace TextTransforms.CommandLine

inductive Command where
  | inline (perLine : Bool)
  | links (template : LinkTemplate)
  | strip (isMarkdown : Bool)
  | compute
  | cloneElement (cursor : Nat) (isCounting : Bool)
  | increment
  deriving DecidableEq, Repr

namespace Command

/-- The options of the command called `name`, and how the command is made from those given. -/
def known? (name : Text) : Option (Known × (Given → Option Command)) :=
  match String.ofList name with
  | "inline" => some (⟨[], ["--per-line".toList]⟩, fun g => inline (g.isSet "--per-line".toList))
  | "links" =>
    some (⟨["--base-url".toList, "--query".toList], []⟩, fun g => do
      let address ← g.value? "--base-url".toList
      let query := (g.value? "--query".toList).getD LinkTemplate.defaultQuery
      return links ⟨address, query⟩)
  | "strip" => some (⟨[], ["--markdown".toList]⟩, fun g => strip (g.isSet "--markdown".toList))
  | "calc" => some (⟨[], []⟩, fun _ => compute)
  | "clone-element" =>
    some (⟨["--cursor".toList], ["--no-increment".toList]⟩, fun g => do
      let digits ← g.value? "--cursor".toList
      let cursor ← Numeral.index? (if digits.head? = some '+' then digits.tail else digits)
      return cloneElement cursor !(g.isSet "--no-increment".toList))
  | "increment" => some (⟨[], []⟩, fun _ => increment)
  | _ => none

/-! ## Running -/

/-- A line and the line breaks that end it. -/
def cutLineEnd (t : Text) : Text × Text :=
  let isBreak := fun c => c == '\n' || c == '\r'
  ((t.reverse.dropWhile isBreak).reverse, (t.reverse.takeWhile isBreak).reverse)

/-- The output of a command and a notice beside it, or a message why there is none. -/
def run (settings : Clipboard.Settings) (input : Text) : Command → Except Text (Text × Option Text)
  | inline false => .ok (inlineArguments input, none)
  | inline true => .ok ((Text.lines input).flatMap inlineArguments, none)
  | links template =>
    let list := template.list input
    .ok (if list.isEmpty then list else list ++ ['\n'], none)
  | strip isMarkdown =>
    let options := settings.options isMarkdown
    .ok (Clipboard.strip options input,
      if settings.showNotifications then options.notification? else none)
  | compute =>
    let (line, lineEnd) := cutLineEnd input
    match Calculator.applyToLine line with
    | .ok line => .ok (line ++ lineEnd, none)
    | .error .noExpression => .error "No valid expression found.".toList
    | .error e => .error ("Invalid expression: ".toList ++ e.message)
  | cloneElement cursor isCounting =>
    match Markup.clone input cursor isCounting with
    | .ok t => .ok (t, none)
    | .error .noElement => .error "No HTML element found at cursor position.".toList
    | .error e => .error e.message
  | increment => .ok (incrementNumbers input, none)

end Command

/-! ## Reading the command line -/

structure Invocation where
  command : Command
  settings : Clipboard.Settings
  deriving DecidableEq, Repr

/-- Reads a command line; nothing if it cannot be read. -/
def parse? (environment : Environment) (words : List Text) : Option Invocation := do
  let (outer, words) ← readOptions ⟨settingOptions, []⟩ [] words
  let name :: words := words | none
  let (known, make) ← Command.known? name
  let (inner, words) ← readOptions ⟨settingOptions ++ known.valued, known.flags⟩ [] words
  if words = [] ∨ words = [endOfOptions] then
    let settings ← settings? environment outer inner
    let command ← make inner
    return ⟨command, settings⟩
  else none

/-! ## Outcomes -/

inductive Outcome where
  /-- The command line cannot be read. -/
  | usage
  | failure (message : Text)
  | success (output : Text) (notice : Option Text)
  deriving DecidableEq, Repr

namespace Outcome

def exitCode : Outcome → Nat
  | usage => 2
  | failure _ => 1
  | success .. => 0

def output : Outcome → Text
  | success output _ => output
  | _ => []

/-- What goes to the standard error. -/
def report : Outcome → Text
  | usage =>
    "usage: inline | links | strip | calc | clone-element | increment, with options\n".toList
  | failure message => "Error: ".toList ++ message ++ ['\n']
  | success _ (some notice) => notice ++ ['\n']
  | success _ none => []

end Outcome

/-- Runs a command line on the standard input, which is nothing if it is no valid UTF-8. -/
def run (environment : Environment) (words : List Text) (input? : Option Text) : Outcome :=
  match parse? environment words, input? with
  | none, _ => .usage
  | some _, none =>
    .failure
      "failed to read stdin\n\nCaused by:\n    stream did not contain valid UTF-8".toList
  | some invocation, some input =>
    match invocation.command.run invocation.settings input with
    | .ok (output, notice) => .success output notice
    | .error message => .failure message

end TextTransforms.CommandLine
