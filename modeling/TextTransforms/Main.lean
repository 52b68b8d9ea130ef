import TextTransforms.CommandLine.Command

/-!
# The program

Reads the standard input, runs the command line and writes what comes out.
-/

namespace TextTransforms

/-- A variable of the environment. -/
def readVariable (name : String) : IO (Option Text) :=
  return (← IO.getEnv name).map String.toList

def readEnvironment : IO CommandLine.Environment := do
  return {
    removeComments := ← readVariable "KMACROS_REMOVE_COMMENTS_IN_MARKDOWN"
    removeWhitespace := ← readVariable "KMACROS_REMOVE_WHITESPACE_IN_MARKDOWN"
    showNotifications := ← readVariable "KMACROS_SHOW_NOTIFICATIONS" }

end TextTransforms

open TextTransforms in
def main (args : List String) : IO UInt32 := do
  let words := args.map String.toList
  let environment ← readEnvironment
  let input? ←
    if (CommandLine.parse? environment words).isSome then
      let bytes ← (← IO.getStdin).readBinToEnd
      pure ((String.fromUTF8? bytes).map String.toList)
    else pure none
  let outcome := CommandLine.run environment words input?
  IO.print (String.ofList outcome.output)
  IO.eprint (String.ofList outcome.report)
  return outcome.exitCode.toUInt32
