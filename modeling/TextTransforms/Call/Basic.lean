import TextTransforms.Call.Arguments

/-!
# Formatting calls

A formatting call is a recognised name, `!`, and in parentheses a quoted
template literal with an optional argument tail. `Call.find?` returns the first
one of a text, split so that it can be put together again around another
literal. A name counts only as a whole word, and a name that no call follows is
passed over.
-/

namespace TextTransforms

structure Call where
  /-- Text before the name. -/
  before : Text
  name : Text
  /-- The delimiter of the literal. -/
  quote : Char
  /-- The body of the literal, escapes as written. -/
  literal : Text
  /-- Text between the comma behind the literal and the closing parenthesis. -/
  rawArguments : Option Text
  /-- Text behind the closing parenthesis. -/
  after : Text
  /-- Whether the call spans more than one line. -/
  isMultiline : Bool
  deriving DecidableEq, Repr

namespace Call

/-- The names that take a template literal first. -/
def names : List Text :=
  ["format".toList, "print".toList, "println".toList, "eprint".toList, "eprintln".toList,
   "write".toList, "writeln".toList, "format_args".toList, "panic".toList, "unreachable".toList,
   "todo".toList, "assert".toList, "assert_eq".toList, "debug_assert".toList,
   "debug_assert_eq".toList]

def isName (t : Text) : Bool := names.contains t

/-- What follows `c` in a text that starts with it. -/
def expect (c : Char) : Text → Option Text
  | [] => none
  | d :: t => if d = c then some t else none

/-- Reads the raw arguments and what follows the closing parenthesis. -/
def readTail : Text → Option (Option Text × Text)
  | ')' :: rest => some (none, rest)
  | ',' :: tail =>
    (splitAtClose 0 (lexemes tail)).map fun (inside, rest) => (some (sourceOf inside), sourceOf rest)
  | _ => none

/-- Reads what stands behind a name: the quote, the literal, the raw arguments
and the text behind the call. -/
def readBehindName (t : Text) : Option (Char × Text × Option Text × Text) := do
  let t ← expect '!' t
  let t ← expect '(' (Text.trimStart t)
  match Text.trimStart t with
  | [] => none
  | quote :: t =>
    if quote = '"' ∨ quote = '\'' then
      let (literal, t) ← readBody quote t
      let (rawArguments, after) ← readTail (Text.trimStart t)
      some (quote, literal, rawArguments, after)
    else none

/-- Reads a call from a text that starts with a maximal run of word characters. -/
def readAtWord (t : Text) : Option Call :=
  let name := t.takeWhile Text.isWordChar
  let behind := t.dropWhile Text.isWordChar
  if isName name then
    (readBehindName behind).map fun (quote, literal, rawArguments, after) =>
      { before := [], name, quote, literal, rawArguments, after
        isMultiline := (behind.take (behind.length - after.length)).contains '\n' }
  else none

/-- Searches a text for its first call; `inWord` tells whether a word character
stands right before the text. -/
def findFrom (inWord : Bool) : Text → Option Call
  | [] => none
  | c :: t =>
    let here := if !inWord && Text.isWordChar c then readAtWord (c :: t) else none
    match here with
    | some call => some call
    | none => (findFrom (Text.isWordChar c) t).map fun call => { call with before := c :: call.before }

/-- The first call of a text. -/
def find? (t : Text) : Option Call := findFrom false t

end Call

end TextTransforms
