import MatrixScript.Program.Stmt
import MatrixScript.Typing.Expr

/-!
# Checking statements

Statements bring new names into the table; a body does so in a frame of its
own. A `Checker` gathers the table and the diagnostics of all programs it has
been given.
-/

namespace MatrixScript

/-- A value has to have the type of the place it is stored in. -/
def checkStore (place : String) (expected found : ArrayType) (line : Nat) : Report Unit :=
  if found = expected then return else report (.assignmentMismatch place expected found) line

def defineName (table : Table) (name : String) (type : ArrayType) (line : Nat) : Report Table :=
  match table.define? name type with
  | some table => return table
  | none => do
    report (.redefinition name) line
    return table

/-- The table after an assignment. The first assignment to a name defines it;
later ones have to keep its type. -/
def checkAssignment (table : Table) (target : Target) (op : AssignOp) (value : Expr)
    (line : Nat) : Report Table := do
  let new ← value.checkValue table
  match target with
  | .invalid e =>
    report .invalidAssignmentTarget e.line
    return table
  | .name spelling _ =>
    match table.lookup? spelling, new with
    | some current, some new =>
      checkStore spelling current new line
      return table
    | some _, none => return table
    | none, new =>
      if op = .set then
        match new with
        | some new => defineName table spelling new line
        | none => return table
      else
        report (.unknownIdentifier spelling) line
        return table
  | .element array indices line =>
    let types ← checkAll table indices.elements
    match ← elementType table array types.isSome line, new with
    | some element, some new =>
      checkStore (array ++ "[...]") element new line
      return table
    | _, _ => return table

def checkBound (table : Table) (bound : Expr) (line : Nat) : Report Unit := do
  match ← bound.checkValue table with
  | some type =>
    if type.isScalarOf .int then return else report (.integerBoundExpected type) line
  | none => return

/-- The header of a loop on a line, which has to be a range. -/
def checkHeader (table : Table) (header : Expr) (line : Nat) : Report Unit :=
  match header with
  | .binary .range start stop line => do
    checkBound table start line
    checkBound table stop line
  | _ => do
    let _ ← header.check table
    report .forExpectsRange line

def inCheckedFrame (table : Table) (kind : FrameKind) (body : Table → Report Table) :
    Report Table :=
  return (← body (table.push kind)).pop

mutual

def Stmt.check : Stmt → Table → Report Table
  | .block body, table => checkStmts body table
  | .expr e _, table => do
    let _ ← e.check table
    return table
  | .assign target op value line, table => checkAssignment table target op value line
  | .ifElse condition body otherwise _, table => do
    let _ ← condition.checkValue table
    let table ← inCheckedFrame table .branch (checkStmts body)
    match otherwise with
    | some body => inCheckedFrame table .branch (checkStmts body)
    | none => return table
  | .whileLoop condition body _, table => do
    let _ ← condition.checkValue table
    inCheckedFrame table .whileLoop (checkStmts body)
  | .forLoop iterator range body line, table => do
    checkHeader table range line
    inCheckedFrame table .forLoop fun table => do
      let table ← defineName table iterator (.scalar .int) line
      checkStmts body table
  | .ret value _, table => do
    let _ ← value.checkValue table
    return table
  | .jump jump line, table => do
    if table.inLoop then return table
    else
      report (.jumpOutsideLoop jump) line
      return table

def checkStmts : List Stmt → Table → Report Table
  | [], table => return table
  | s :: rest, table => do
    let table ← s.check table
    checkStmts rest table

end

/-! ## Checkers -/

structure Checker where
  table : Table
  diagnostics : List Diagnostic

namespace Checker

def fresh : Checker := ⟨.fresh, []⟩

/-- Checks a program after all those before it. -/
def check (c : Checker) (program : Program) : Checker :=
  let r := checkStmts program c.table
  ⟨r.result, c.diagnostics ++ r.diagnostics⟩

end Checker

def checkProgram (program : Program) : List Diagnostic := (Checker.fresh.check program).diagnostics

end MatrixScript
