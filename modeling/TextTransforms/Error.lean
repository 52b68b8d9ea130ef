import TextTransforms.Text.Quoted
import TextTransforms.Number.Numeral

/-!
# Errors

The causes for which a transform gives no result, and their wording.
-/

namespace TextTransforms

/-- Why a text is no computable expression. -/
inductive Fault where
  /-- An expression was read and `rest` stands behind it. -/
  | leftover (rest : Text)
  | notArithmetic
  | arity (expected found : Nat)
  deriving DecidableEq, Repr

def Fault.message : Fault → Text
  | leftover rest => "unexpected input ".toList ++ Text.quoted rest
  | notArithmetic => "not an arithmetic expression".toList
  | arity expected found =>
    "expected ".toList ++ Numeral.ofNat expected ++ " argument(s), found ".toList ++
      Numeral.ofNat found

inductive Error where
  | templateTooLong (bytes : Nat)
  | tooManyTokens
  | unescapedBrace (offset : Nat)
  | noExpression
  | invalidExpression (expression : Text) (fault : Fault)
  | unknownName (name : Text)
  | divisionByZero
  | noElement
  deriving DecidableEq, Repr

namespace Error

/-- Templates are at most this many bytes long. -/
def templateLimit : Nat := 10000

/-- Templates have at most this many tokens. -/
def tokenLimit : Nat := 1024

def message : Error → Text
  | templateTooLong bytes =>
    "format string too long (".toList ++ Numeral.ofNat bytes ++
      " bytes), maximum allowed is ".toList ++ Numeral.ofNat templateLimit ++ " bytes".toList
  | tooManyTokens =>
    "too many tokens in format string, maximum allowed is ".toList ++ Numeral.ofNat tokenLimit
  | unescapedBrace offset =>
    "unescaped brace at byte ".toList ++ Numeral.ofNat offset ++
      " of format string, use '\x7b\x7b' or '\x7d\x7d'".toList
  | noExpression => "no valid expression found".toList
  | invalidExpression expression fault =>
    "invalid expression `".toList ++ expression ++ "`: ".toList ++ fault.message
  | unknownName name => "unknown function or constant `Math.".toList ++ name ++ "`".toList
  | divisionByZero => "division by zero".toList
  | noElement => "no HTML element found at cursor position".toList

end Error

end TextTransforms
