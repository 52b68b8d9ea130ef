import TextTransforms.Call.Basic
import TextTransforms.Inlining.Passes

/-!
# Inlining

The first formatting call of a text gets its arguments moved into the template
as far as they may stand there; what cannot move stays behind the template. The
text stays as it is if it has no such call, no argument can move, or the template
is malformed or beyond its limits.
-/

namespace TextTransforms

/-- Calls with more arguments are left alone. -/
def argumentLimit : Nat := 256

/-- The template of a call with its arguments before anything has moved. -/
def Call.draft? (call : Call) : Option Draft := do
  let arguments := splitArguments (← call.rawArguments)
  if arguments.isEmpty || argumentLimit < arguments.length then none
  else
    let tokens ← (templateTokens call.literal).toOption
    some ⟨tokens.map .ofToken, .ofTexts arguments⟩

/-- The text of a call with a new template and the arguments that stay behind it. -/
def Call.assemble (call : Call) (d : Draft) : Text :=
  call.before ++ call.name ++ ['!', '(']
    ++ (if call.isMultiline then "\n    ".toList else [])
    ++ call.quote :: d.segments.flatMap Segment.source ++ [call.quote]
    ++ d.arguments.remaining.flatMap (", ".toList ++ ·)
    ++ (if call.isMultiline then ['\n'] else [])
    ++ ')' :: call.after

/-- The text with its first call put together anew, if an argument can move. -/
def inlined? (t : Text) : Option Text := do
  let call ← Call.find? t
  let d := (← call.draft?).moveArguments
  if d.arguments.anyUsed then some (call.assemble d.resolve) else none

/-- The text with the arguments of its first call moved into the template. -/
def inlineArguments (t : Text) : Text := (inlined? t).getD t

end TextTransforms
