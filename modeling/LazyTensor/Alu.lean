import LazyTensor.Op
import LazyTensor.Element
import LazyTensor.Checked

/-!
The scalar operations. They compute with doubles and round the result to the element type.
-/
namespace LazyTensor

def UnaryOp.eval : UnaryOp → Double → Double
  | noop, x | cast, x => x
  | exp2, x => x.exp2
  | log2, x => x.log2
  | sin, x => x.sin
  | sqrt, x => x.sqrt
  | recip, x => 1.0 / x
  | neg, x => -x

/-- Integer quotients are cut off toward zero, and one by zero is zero. A remainder has the sign
of the divisor. -/
def BinaryOp.eval (int : Bool) : BinaryOp → Double → Double → Checked Double
  | add, x, y => .ok (x + y)
  | sub, x, y => .ok (x - y)
  | mul, x, y => .ok (x * y)
  | div, x, y =>
    if int then .ok (if y == 0.0 then 0.0 else (x / y).truncate) else .ok (x / y)
  | max, x, y => .ok (x.maximum y)
  | mod, x, y =>
    if int && !(y == 0.0) then
      return Double.ofInt (← Checked.floorMod x.toWord y.toWord)
    else .ok (x - y * (x / y).floor)
  | cmpLt, x, y => .ok (if x < y then 1.0 else 0.0)

/-- One scalar operation, rounded to the element type. -/
def Op.exec (op : Op) (element : Element) (args : List Double) : Checked Double := do
  let x ← match op, args with
    | .unary o, [x] => pure (o.eval x)
    | .binary o, [x, y] => o.eval element.isInt x y
    | .ternary .select, [c, x, y] => pure (if c == 0.0 then y else x)
    | .ternary .mulAcc, [a, b, c] => pure (a * b + c)
    | op, args => .error (.operandCount op.text args.length)
  pure (element.cast x)

end LazyTensor
