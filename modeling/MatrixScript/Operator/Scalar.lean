import MatrixScript.Value.Access

/-!
# Operators on scalars

Arithmetic, comparison and logic of two single values.
-/

namespace MatrixScript

/-! ## Arithmetic -/

inductive Arithmetic where
  | add | sub | mul | div
deriving DecidableEq, Repr

/-- What an operator computes for two numbers. -/
def BinaryOp.arithmetic? : BinaryOp → Option Arithmetic
  | add => some .add
  | dotAdd => some .add
  | sub => some .sub
  | dotSub => some .sub
  | mul => some .mul
  | dotMul => some .mul
  | div => some .div
  | dotDiv => some .div
  | _ => none

namespace Value

def isNumber : Value → Bool
  | int _ => true
  | real _ => true
  | _ => false

/-- The operator has no meaning for these operands. -/
def refuse {α : Type} (op : BinaryOp) (left right : Value) : Except Cause α :=
  .error (.cannotApply op left.kind right.kind)

def ofInteger? : Option Int64 → Except Cause Value
  | some value => .ok (int value)
  | none => .error .overflow

def realArithmetic (op : BinaryOp) (left right : Value) : Except Cause Value := do
  let a ← left.toReal
  let b ← right.toReal
  match op.arithmetic? with
  | some .add => return real (a + b)
  | some .sub => return real (a - b)
  | some .mul => return real (a * b)
  | some .div => if b == 0.0 then throw .divisionByZero else return real (a / b)
  | none => refuse op left right

/-- Arithmetic of two single values. Integers stay integers, except that a
quotient is always real. -/
def arithmetic (op : BinaryOp) (left right : Value) : Except Cause Value :=
  match left, right with
  | int a, int b =>
    match op.arithmetic? with
    | some .add => ofInteger? (Integer.add? a b)
    | some .sub => ofInteger? (Integer.sub? a b)
    | some .mul => ofInteger? (Integer.mul? a b)
    | some .div => realArithmetic op left right
    | none => refuse op left right
  | _, _ =>
    if left.isNumber && right.isNumber then realArithmetic op left right
    else refuse op left right

/-! ## Comparison -/

/-- The order of two reals, none if one of them is not a number. -/
def compareReals? (a b : Float) : Option Ordering :=
  if a < b then some .lt else if a == b then some .eq else if b < a then some .gt else none

end Value

/-- Whether a comparison holds of two values in this order; values without an
order are different and nothing else. -/
def BinaryOp.comparison? (op : BinaryOp) (order : Option Ordering) : Option Bool :=
  match op with
  | equal => some (order == some .eq)
  | notEqual => some (order != some .eq)
  | less => some (order == some .lt)
  | lessEqual => some (order == some .lt || order == some .eq)
  | greater => some (order == some .gt)
  | greaterEqual => some (order == some .gt || order == some .eq)
  | _ => none

namespace Value

/-- Compares two numbers, two truth values or two strings. Strings are ordered
character by character. -/
def comparison (op : BinaryOp) (left right : Value) : Except Cause Value := do
  let order ← match left, right with
    | int a, int b => pure (some (compare a.toInt b.toInt))
    | bool a, bool b => pure (some (compare a b))
    | str a, str b => pure (some (compare a b))
    | _, _ =>
      if left.isNumber && right.isNumber then do
        let a ← left.toReal
        let b ← right.toReal
        pure (compareReals? a b)
      else refuse op left right
  match op.comparison? order with
  | some result => return bool result
  | none => refuse op left right

/-! ## Logic -/

def logic (op : BinaryOp) (left right : Value) : Except Cause Value := do
  let a ← left.toBool
  let b ← right.toBool
  match op with
  | .and => return bool (a && b)
  | .or => return bool (a || b)
  | .xor => return bool (a ^^ b)
  | _ => refuse op left right

end Value

end MatrixScript
