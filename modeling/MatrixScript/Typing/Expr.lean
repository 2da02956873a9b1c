import MatrixScript.Number.Integer
import MatrixScript.Program.Expr
import MatrixScript.Typing.Report

/-!
# Checking expressions

`Expr.check` finds the type of an expression in a table of names. An operator
is only judged when both its operands have a type, so one finding does not lead
to others further out.
-/

namespace MatrixScript

inductive Typing where
  | known (type : ArrayType)
  /-- Something inside was reported. -/
  | unknown
  /-- A call that yields no value. -/
  | void
deriving DecidableEq, Repr

namespace Typing

def ofType? : Option ArrayType → Typing
  | some type => known type
  | none => unknown

def type? : Typing → Option ArrayType
  | known type => some type
  | _ => none

/-- The type of an expression on a line that has to have a value. -/
def need (line : Nat) (r : Report Typing) : Report (Option ArrayType) := do
  match ← r with
  | known type => return some type
  | unknown => return none
  | void =>
    report .voidValue line
    return none

end Typing

/-! ## Literals -/

/-- The type of a vector of elements. Without elements it counts as real. -/
def vectorType (elements : List ArrayType) (line : Nat) : Report Typing :=
  match elements with
  | [] => return .known ⟨.real, [0]⟩
  | first :: others =>
    if others.all (· = first) then
      return .known ⟨first.base, (others.length + 1) :: first.shape⟩
    else do
      report .inconsistentElements line
      return .unknown

/-- What the rows of a matrix read so far have in common. -/
structure RowsSummary where
  base : Option BaseType
  width : Option Nat
  valid : Bool
deriving DecidableEq, Repr

namespace RowsSummary

def start : RowsSummary := ⟨none, none, true⟩

/-- Takes in a row of elements, unless one of them has no type. The first
scalar sets the base for all, the first row of scalars the width. -/
def add (s : RowsSummary) (elements : Option (List ArrayType)) (line : Nat) :
    Report RowsSummary :=
  match elements with
  | none => return { s with valid := false }
  | some types =>
    if types.all ArrayType.isScalar then
      let base := s.base <|> types.head?.map ArrayType.base
      let width := s.width.getD types.length
      if types.all (fun t => base == some t.base) && width == types.length then
        return ⟨base, some width, s.valid⟩
      else do
        report .inconsistentElements line
        return ⟨base, some width, false⟩
    else do
      report .nonScalarMatrixElement line
      return { s with valid := false }

def typing (s : RowsSummary) (rows : Nat) : Typing :=
  if s.valid then .known ⟨s.base.getD .real, [rows, s.width.getD 0]⟩ else .unknown

end RowsSummary

/-! ## Operators -/

/-- The type of a product: the first size of the left and the last of the right. -/
def productType (left right : ArrayType) (line : Nat) : Report (Option ArrayType) :=
  if left.base = right.base then
    match left.shape.head?, left.shape.getLast?, right.shape.head?, right.shape.getLast? with
    | some rows, some inner, some inner', some columns =>
      if inner = inner' then return some ⟨left.base, [rows, columns]⟩
      else do
        report (.incompatibleShapes left right) line
        return none
    | _, _, _, _ => return none
  else do
    report (.mismatchedBaseTypes .mul left right) line
    return none

/-- The type of an operation, except for subscripts and ranges. -/
def BinaryOp.type (op : BinaryOp) (left right : ArrayType) (line : Nat) :
    Report (Option ArrayType) :=
  match op with
  | add | sub | dotAdd | dotSub | dotMul | dotDiv | equal | notEqual =>
    if left = right then return some left
    else do
      report (.mismatchedOperands op left right) line
      return none
  | mul => productType left right line
  | div | greater | greaterEqual | less | lessEqual =>
    match [left, right].find? (!·.isScalar) with
    | some found => do
      report (.scalarExpected op found) line
      return none
    | none => return some (.scalar .bool)
  | and | or | xor =>
    match [left, right].find? (!·.isScalarOf .bool) with
    | some found => do
      report (.boolExpected op found) line
      return none
    | none => return some (.scalar .bool)
  | range | subscript => return none

/-- The type of an element of a named array. The number of indices does not
matter; `indexed` says whether all of them have a type. -/
def elementType (table : Table) (array : String) (indexed : Bool) (line : Nat) :
    Report (Option ArrayType) :=
  match table.lookup? array with
  | some type => return if indexed then some (.scalar type.base) else none
  | none => do
    report (.unknownIdentifier array) line
    return none

/-! ## Calls -/

/-- The size that the arguments of a sized function give: one integer literal
that is not negative. -/
def sizeArgument? : List Expr → Option Nat
  | [.int size _] => Integer.toSize? size
  | _ => none

/-- What is wrong with the arguments of a sized function that give no size. -/
def sizeIssue (function : Sized) (arguments : List Expr) : Issue :=
  if arguments.length = 1 then .builtinSize function else .builtinArity function arguments.length

/-! ## Expressions -/

mutual

/-- What is known of an expression in a table. -/
def Expr.check (table : Table) : Expr → Report Typing
  | .int _ _ => return .known (.scalar .int)
  | .real _ _ => return .known (.scalar .real)
  | .str _ _ => return .known (.scalar .str)
  | .name spelling line =>
    match table.lookup? spelling with
    | some type => return .known type
    | none => do
      report (.unknownIdentifier spelling) line
      return .unknown
  | .vector ⟨elements, line⟩ => do
    match ← checkAll table elements with
    | some types => vectorType types line
    | none => return .unknown
  | .matrix rows _ => do
    let summary ← checkRows table rows .start
    return summary.typing rows.length
  | .call function arguments line => do
    match function with
    | .print =>
      let _ ← checkAll table arguments
      return .void
    | .sized function =>
      match sizeArgument? arguments with
      | some size => return .known ⟨.real, [size, size]⟩
      | none =>
        let _ ← checkAll table arguments
        report (sizeIssue function arguments) line
        return .unknown
  | .binary op left right line =>
    match op with
    | .subscript =>
      match left.name?, right with
      | some array, .vector ⟨indices, _⟩ => do
        let types ← checkAll table indices
        return .ofType? (← elementType table array types.isSome line)
      | _, _ => do
        let _ ← Typing.need left.line (left.check table)
        report .invalidSubscriptTarget line
        return .unknown
    | .range => do
      let _ ← Typing.need left.line (left.check table)
      let _ ← Typing.need right.line (right.check table)
      report .rangeOutsideFor line
      return .unknown
    | op => do
      let leftType ← Typing.need left.line (left.check table)
      let rightType ← Typing.need right.line (right.check table)
      match leftType, rightType with
      | some leftType, some rightType =>
        return .ofType? (← op.type leftType rightType line)
      | _, _ => return .unknown
  | .unary op operand _ => do
    match ← Typing.need operand.line (operand.check table) with
    | some type =>
      match op with
      | .negate => return .known type
      | .transpose => return .known type.transpose
    | none => return .unknown

/-- The types of expressions that have to have a value, if all have one. -/
def checkAll (table : Table) : List Expr → Report (Option (List ArrayType))
  | [] => return some []
  | e :: es => do
    let type ← Typing.need e.line (e.check table)
    let types ← checkAll table es
    return type.bind fun type => types.map (type :: ·)

def checkRows (table : Table) : List Row → RowsSummary → Report RowsSummary
  | [], summary => return summary
  | ⟨elements, line⟩ :: rows, summary => do
    let types ← checkAll table elements
    checkRows table rows (← summary.add types line)

end

/-- The type of an expression that has to have a value. -/
def Expr.checkValue (table : Table) (e : Expr) : Report (Option ArrayType) :=
  Typing.need e.line (e.check table)

end MatrixScript
