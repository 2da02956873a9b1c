import MatrixScript.Program.Operator
import MatrixScript.Value.Basic

/-!
# Faults

What can go wrong while a program runs. Operations on values report a `Cause`;
the statement or expression that asked for them adds the line.
-/

namespace MatrixScript

inductive Cause where
  | unknownVariable (name : String)
  | indexOutOfBounds (axis : Nat) (index : Int64) (size : Nat)
  | tooManyIndices (found rank : Nat)
  | raggedArray
  | invalidTarget
  | indexListExpected
  | rangeExpected (found : ValueKind)
  | cannotApply (op : BinaryOp) (left right : ValueKind)
  | subscriptAsOperator
  | booleanExpected
  | numberExpected
  | integerExpected
  | arrayExpected
  /-- A row of a product has no such column. -/
  | noColumn (column : Nat)
  | missingValue
  | shapeMismatch (left right : List Nat)
  | negativeSize (function : Sized) (size : Int64)
  | sizeTooLarge (function : Sized) (size : Int64)
  | argumentCount (function : Sized) (expected found : Nat)
  | divisionByZero
  | overflow
  /-- An integer that no real stands for exactly. -/
  | inexactInteger
  | jumpOutsideLoop (jump : Jump)
deriving DecidableEq, Repr

/-- A shape in brackets, sizes separated by commas. -/
def shapeText (shape : List Nat) : String :=
  "[" ++ ", ".intercalate (shape.map Nat.repr) ++ "]"

def Cause.message : Cause → String
  | unknownVariable name => s!"variable '{name}' is not defined"
  | indexOutOfBounds axis index size =>
    let index := Integer.text index
    s!"index {index} is out of bounds for axis {axis} with size {size}"
  | tooManyIndices found rank => s!"too many indices: got {found}, value has {rank} dimensions"
  | raggedArray => "ragged arrays are not supported"
  | invalidTarget => "invalid assignment target"
  | indexListExpected => "subscript expects an index list"
  | rangeExpected found => "for loop expects a range, got " ++ found.text
  | cannotApply op left right =>
    "cannot apply " ++ op.text ++ " to " ++ left.text ++ " and " ++ right.text
  | subscriptAsOperator => "subscript is not an arithmetic operator"
  | booleanExpected => "expected a boolean"
  | numberExpected => "expected a number"
  | integerExpected => "expected an integer"
  | arrayExpected => "expected an array"
  | noColumn column => s!"a row has no column {column}"
  | missingValue => "expression does not produce a value"
  | shapeMismatch left right =>
    "shapes " ++ shapeText left ++ " and " ++ shapeText right ++ " are not aligned"
  | negativeSize function size =>
    function.text ++ " expects a non-negative size, got " ++ Integer.text size
  | sizeTooLarge function size =>
    function.text ++ "(" ++ Integer.text size ++ ") is too large to allocate"
  | argumentCount function expected found =>
    function.text ++ s!" expects {expected} argument(s), got {found}"
  | divisionByZero => "division by zero"
  | overflow => "integer overflow"
  | inexactInteger => "integer is too large"
  | jumpOutsideLoop jump => jump.text ++ " outside of a loop"

inductive SinkFailure where
  | full
  | flushFailed
deriving DecidableEq, Repr

def SinkFailure.message : SinkFailure → String
  | full => "sink is full"
  | flushFailed => "flush failed"

inductive Fault where
  | atLine (line : Nat) (cause : Cause)
  | output (failure : SinkFailure)
deriving DecidableEq, Repr

def Fault.message : Fault → String
  | atLine line cause => s!"Error on line {line}: " ++ cause.message
  | output failure => "Failed to write output: " ++ failure.message

end MatrixScript
