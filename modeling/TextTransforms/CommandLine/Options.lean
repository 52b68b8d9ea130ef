import TextTransforms.Text.Basic

/-!
# Options on a command line

The words of a command line are read level by level: options first, then a word
that is no option. An option takes a value, attached with `=` or as the next
word, or it is a flag. None may be given twice on a level. A value that is a word
of its own must not look like an option.
-/

namespace TextTransforms.CommandLine

/-- The options that a level knows. -/
structure Known where
  valued : List Text
  flags : List Text
  deriving DecidableEq, Repr

/-- The options that were given on a level, with their values; a flag has an empty one. -/
abbrev Given := List (Text × Text)

namespace Given

def value? (g : Given) (name : Text) : Option Text := g.lookup name

def isSet (g : Given) (name : Text) : Bool := (g.value? name).isSome

end Given

/-- A dash alone is an ordinary word. -/
def isOption (word : Text) : Bool := word.head? == some '-' && word != ['-']

/-- The word behind which nothing is an option any more. -/
def endOfOptions : Text := ['-', '-']

/-- An option word cut at its first `=`. -/
def nameAndValue (word : Text) : Text × Option Text :=
  match Text.cut? '=' word with
  | some (name, value) => (name, some value)
  | none => (word, none)

/-- Reads the options of a level. Returns those given and the words from the first
that is no option on; nothing if an option is unknown, repeated or ill-formed. -/
def readOptions (known : Known) (given : Given) : List Text → Option (Given × List Text)
  | [] => some (given, [])
  | word :: words =>
    if !isOption word || word == endOfOptions then some (given, word :: words)
    else
      let (name, attached?) := nameAndValue word
      if given.isSet name then none
      else if known.flags.contains name then
        match attached? with
        | none => readOptions known ((name, []) :: given) words
        | some _ => none
      else if known.valued.contains name then
        match attached?, words with
        | some value, words => readOptions known ((name, value) :: given) words
        | none, value :: words =>
          if isOption value then none else readOptions known ((name, value) :: given) words
        | none, [] => none
      else none

end TextTransforms.CommandLine
