import TextTransforms.Calculator.Functions
import TextTransforms.Number.Decimal

/-!
# Arithmetic expressions

Expressions over decimals and named constants and functions. A value exists
unless a name is unknown, a function has the wrong number of arguments, or a
divisor is zero; of two such faults the one further left is reported.
-/

namespace TextTransforms

inductive Operator where
  | add
  | sub
  | mul
  | div
  | rem
  deriving DecidableEq, Repr

def Operator.apply : Operator → Float → Float → Except Error Float
  | add, x, y => .ok (x + y)
  | sub, x, y => .ok (x - y)
  | mul, x, y => .ok (x * y)
  | div, x, y => if y == 0 then .error .divisionByZero else .ok (x / y)
  | rem, x, y => if y == 0 then .error .divisionByZero else .ok (Number.rem x y)

inductive Expr where
  | number (value : Decimal)
  | constant (name : Text)
  | call (name : Text) (args : List Expr)
  | neg (operand : Expr)
  | binary (op : Operator) (left right : Expr)
  deriving Repr

namespace Expr

mutual

def eval : Expr → Except Error Float
  | number value => .ok value.toFloat
  | constant name =>
    match Calculator.constant? name with
    | some x => .ok x
    | none => .error (.unknownName name)
  | call name args => do
    let xs ← evalAll args
    match Calculator.function? name with
    | some f => f.apply name xs
    | none => .error (.unknownName name)
  | neg operand => do
    let x ← eval operand
    return -x
  | binary op left right => do
    let x ← eval left
    let y ← eval right
    op.apply x y

def evalAll : List Expr → Except Error (List Float)
  | [] => .ok []
  | e :: es => do
    let x ← eval e
    let xs ← evalAll es
    return x :: xs

end

end Expr

end TextTransforms
