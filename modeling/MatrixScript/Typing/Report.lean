import MatrixScript.Program.Operator
import MatrixScript.Typing.ArrayType

/-!
# Diagnostics

Checking never stops at a finding. A `Report` is a result with the diagnostics
found on the way to it, in source order; reports in sequence append theirs.
-/

namespace MatrixScript

/-! ## Issues -/

inductive Issue where
  | unknownIdentifier (name : String)
  | redefinition (name : String)
  | mismatchedOperands (op : BinaryOp) (left right : ArrayType)
  | mismatchedBaseTypes (op : BinaryOp) (left right : ArrayType)
  | incompatibleShapes (left right : ArrayType)
  | scalarExpected (op : BinaryOp) (found : ArrayType)
  | boolExpected (op : BinaryOp) (found : ArrayType)
  | integerBoundExpected (found : ArrayType)
  | inconsistentElements
  | nonScalarMatrixElement
  | invalidAssignmentTarget
  | assignmentMismatch (target : String) (expected found : ArrayType)
  | voidValue
  | jumpOutsideLoop (jump : Jump)
  | rangeOutsideFor
  | forExpectsRange
  | builtinArity (function : Sized) (found : Nat)
  | builtinSize (function : Sized)
  | invalidSubscriptTarget
deriving DecidableEq, Repr

def Issue.message : Issue → String
  | unknownIdentifier name => "unknown identifier " ++ name
  | redefinition name => name ++ " is already defined in this scope"
  | mismatchedOperands op left right =>
    "operands of " ++ op.text ++ " must have the same type and shape, got " ++ left.text ++ " and "
      ++ right.text
  | mismatchedBaseTypes op left right =>
    "operands of " ++ op.text ++ " must have the same base type, got " ++ left.text ++ " and "
      ++ right.text
  | incompatibleShapes left right =>
    "incompatible shapes " ++ left.text ++ " and " ++ right.text ++ " for matrix multiplication"
  | scalarExpected op found => op.text ++ " requires scalar operands, got " ++ found.text
  | boolExpected op found => op.text ++ " requires boolean operands, got " ++ found.text
  | integerBoundExpected found => "range bounds must be integers, got " ++ found.text
  | inconsistentElements => "all elements of a vector must have the same type and shape"
  | nonScalarMatrixElement => "matrix rows must contain scalars"
  | invalidAssignmentTarget => "invalid assignment target"
  | assignmentMismatch target expected found =>
    "cannot assign " ++ found.text ++ " to " ++ target ++ " of type " ++ expected.text
  | voidValue => "print does not produce a value"
  | jumpOutsideLoop _ => "control statement outside of a loop"
  | rangeOutsideFor => "a range is only allowed in a for loop header"
  | forExpectsRange => "for loop expects a range"
  | builtinArity function found =>
    function.text ++ s!" expects exactly one argument, got {found}"
  | builtinSize function => function.text ++ " expects a non-negative integer literal size"
  | invalidSubscriptTarget => "only variables can be subscripted"

structure Diagnostic where
  issue : Issue
  line : Nat
deriving DecidableEq, Repr

def Diagnostic.message (d : Diagnostic) : String :=
  s!"Error on line {d.line}: " ++ d.issue.message

/-! ## Reports -/

structure Report (α : Type) where
  result : α
  diagnostics : List Diagnostic

instance : Monad Report where
  pure a := ⟨a, []⟩
  bind r next :=
    let after := next r.result
    ⟨after.result, r.diagnostics ++ after.diagnostics⟩

namespace Report

variable {α β : Type}

@[simp] theorem result_pure (a : α) : (pure a : Report α).result = a := rfl

@[simp] theorem diagnostics_pure (a : α) : (pure a : Report α).diagnostics = [] := rfl

@[simp] theorem result_bind (r : Report α) (next : α → Report β) :
    (r >>= next).result = (next r.result).result := rfl

@[simp] theorem diagnostics_bind (r : Report α) (next : α → Report β) :
    (r >>= next).diagnostics = r.diagnostics ++ (next r.result).diagnostics := rfl

end Report

def report (issue : Issue) (line : Nat) : Report Unit := ⟨(), [⟨issue, line⟩]⟩

end MatrixScript
