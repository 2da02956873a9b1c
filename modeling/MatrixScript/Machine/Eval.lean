import MatrixScript.Machine.Basic
import MatrixScript.Operator.Apply
import MatrixScript.Program.Expr

/-!
# Evaluating expressions

Operands and elements are evaluated from left to right. An assignment evaluates its right
side first; an element is replaced in the array that holds it.
-/

namespace MatrixScript

/-- The text between the quotes of a string literal. -/
def unquote (literal : String) : String :=
  match literal.toList with
  | '"' :: rest =>
    match rest.getLast? with
    | some '"' => String.ofList rest.dropLast
    | _ => literal
  | _ => literal

/-- The value of a call. Printing puts blanks between the arguments and a newline after
them, and yields no value. -/
def Builtin.call (function : Builtin) (arguments : List Value) (line : Nat) :
    Eval (Option Value) := do
  match function with
  | print =>
    Eval.writeAll ([" "].intercalate (arguments.map Value.pieces) ++ ["\n"])
    return none
  | sized function =>
    if arguments.length = 1 then return some (← Eval.build function arguments line)
    else throw (.atLine line (.argumentCount function 1 arguments.length))

mutual

/-- The value of an expression, if it has one. -/
def Expr.eval : Expr → Eval (Option Value)
  | .int value _ => return some (.int value)
  | .real value _ => return some (.real value)
  | .str literal _ => return some (.str (unquote literal))
  | .name spelling line => return some (← Eval.lookup spelling line)
  | .vector ⟨elements, _⟩ => return some (.array (← evalAll elements))
  | .matrix rows _ => return some (.array (← evalRows rows))
  | .call function arguments line => do
    let values ← evalAll arguments
    function.call values line
  | .binary op left right line => do
    let leftValue ← Eval.need left.line left.eval
    if op = .subscript then
      match right with
      | .vector ⟨indices, _⟩ =>
        let indices ← evalIndices line indices
        return some (← Eval.atLine line (leftValue.element indices))
      | _ => throw (.atLine line .indexListExpected)
    else
      let rightValue ← Eval.need right.line right.eval
      return some (← Eval.atLine line (op.apply leftValue rightValue))
  | .unary op operand line => do
    let value ← Eval.need operand.line operand.eval
    return some (← Eval.atLine line (op.apply value))

/-- The values of expressions, each of which has to have one. -/
def evalAll : List Expr → Eval (List Value)
  | [] => return []
  | e :: es => do
    let value ← Eval.need e.line e.eval
    let values ← evalAll es
    return value :: values

def evalRows : List Row → Eval (List Value)
  | [] => return []
  | ⟨elements, _⟩ :: rows => do
    let values ← evalAll elements
    let arrays ← evalRows rows
    return .array values :: arrays

/-- The values of indices asked for on a line. -/
def evalIndices (line : Nat) : List Expr → Eval (List Int64)
  | [] => return []
  | e :: es => do
    let value ← Eval.need e.line e.eval
    let index ← Eval.atLine line value.toInteger
    let indices ← evalIndices line es
    return index :: indices

end

def Expr.value (e : Expr) : Eval Value := Eval.need e.line e.eval

/-! ## Assignment -/

/-- What an assignment stores in place of a current value. -/
def AssignOp.combine (op : AssignOp) (current new : Value) : Except Cause Value :=
  match op.binary? with
  | none => .ok new
  | some binary => binary.apply current new

/-- Stores a value in a target. A name without a binding can only be assigned plainly. -/
def Target.store (op : AssignOp) (new : Value) (line : Nat) : Target → Eval Unit
  | .name spelling _ =>
    match op with
    | .set => Eval.assign spelling new
    | _ => do
      let current ← Eval.lookup spelling line
      let stored ← Eval.atLine line (op.combine current new)
      Eval.assign spelling stored
  | .element array indices _ => do
    let positions ← evalIndices line indices.elements
    let change := Value.InPlace.store (op.combine · new)
    Eval.onBinding array line (change.onElement 0 positions)
  | .invalid e => throw (.atLine e.line .invalidTarget)

def Target.assign (target : Target) (op : AssignOp) (value : Expr) (line : Nat) : Eval Unit := do
  let new ← value.value
  target.store op new line

end MatrixScript
