import TextTransforms.Error
import TextTransforms.Number.Arithmetic

/-!
# Named constants and functions

What `Math.name` and `Math.name(...)` stand for. A name is looked up among the
constants when it stands alone and among the functions when arguments follow it.
-/

namespace TextTransforms.Calculator

def constant? (name : Text) : Option Float :=
  match String.ofList name with
  | "PI" => some 3.141592653589793
  | "E" => some 2.718281828459045
  | "LN2" => some 0.6931471805599453
  | "LN10" => some 2.302585092994046
  | "LOG2E" => some 1.4426950408889634
  | "LOG10E" => some 0.4342944819032518
  | "SQRT2" => some 1.4142135623730951
  | "SQRT1_2" => some 0.7071067811865476
  | _ => none

/-- A function by the number of arguments it takes. -/
inductive Function where
  | unary (f : Float → Float)
  | binary (f : Float → Float → Float)
  /-- Any number of arguments but none, combined from the left. -/
  | fold (f : Float → Float → Float) (start : Float)

def function? (name : Text) : Option Function :=
  match String.ofList name with
  | "abs" => some (.unary Float.abs)
  | "acos" => some (.unary Float.acos)
  | "asin" => some (.unary Float.asin)
  | "atan" => some (.unary Float.atan)
  | "cbrt" => some (.unary Float.cbrt)
  | "ceil" => some (.unary Float.ceil)
  | "cos" => some (.unary Float.cos)
  | "cosh" => some (.unary Float.cosh)
  | "exp" => some (.unary Float.exp)
  | "floor" => some (.unary Float.floor)
  | "log" => some (.unary Float.log)
  | "log10" => some (.unary Float.log10)
  | "log2" => some (.unary Float.log2)
  | "round" => some (.unary Number.round)
  | "sign" => some (.unary Number.sign)
  | "sin" => some (.unary Float.sin)
  | "sinh" => some (.unary Float.sinh)
  | "sqrt" => some (.unary Float.sqrt)
  | "tan" => some (.unary Float.tan)
  | "tanh" => some (.unary Float.tanh)
  | "trunc" => some (.unary Number.trunc)
  | "atan2" => some (.binary Float.atan2)
  | "hypot" => some (.binary Number.hypot)
  | "pow" => some (.binary Float.pow)
  | "max" => some (.fold Number.max (-1 / 0))
  | "min" => some (.fold Number.min (1 / 0))
  | _ => none

def Function.arityError (name : Text) (expected found : Nat) : Error :=
  .invalidExpression ("Math.".toList ++ name ++ "(...)".toList) (.arity expected found)

/-- Applies the function called `name`. -/
def Function.apply (name : Text) : Function → List Float → Except Error Float
  | unary f, [x] => .ok (f x)
  | unary _, args => .error (arityError name 1 args.length)
  | binary f, [x, y] => .ok (f x y)
  | binary _, args => .error (arityError name 2 args.length)
  | fold _ _, [] => .error (arityError name 1 0)
  | fold f start, args => .ok (args.foldl f start)

end TextTransforms.Calculator
