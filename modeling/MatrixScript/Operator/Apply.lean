import MatrixScript.Operator.Elementwise
import MatrixScript.Operator.Product
import MatrixScript.Operator.Transpose

/-!
# Operators on any values

Which operation an operator is, for scalars and arrays alike.
-/

namespace MatrixScript

/-- The value of a binary operation. The product of two arrays is a matrix
product; all other arithmetic and all comparisons go element by element. -/
def BinaryOp.apply (op : BinaryOp) (left right : Value) : Except Cause Value :=
  match op with
  | mul =>
    if left.isArray && right.isArray then left.product right
    else Value.zipLeaves (Value.arithmetic op) left right
  | add | sub | dotAdd | dotSub | dotMul | div | dotDiv =>
    Value.zipLeaves (Value.arithmetic op) left right
  | equal | notEqual | greater | greaterEqual | less | lessEqual =>
    Value.zipLeaves (Value.comparison op) left right
  | and | or | xor => Value.logic op left right
  | range => do
    let start ← left.toInteger
    let stop ← right.toInteger
    return .range start stop
  | subscript => .error .subscriptAsOperator

def UnaryOp.apply (op : UnaryOp) (operand : Value) : Except Cause Value :=
  match op with
  | negate => operand.negate
  | transpose => operand.transpose

end MatrixScript
