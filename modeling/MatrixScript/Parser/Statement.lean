import MatrixScript.Parser.Expression
import MatrixScript.Program.Stmt

/-!
# Reading statements

`parseProgram` reads statements until no token is left. The parts of a
statement are given the parser for a nested statement; `statement` ties the
knot.
-/

namespace MatrixScript

namespace Token

def assignOp? : Token → Option AssignOp
  | symbol .assign => some .set
  | symbol .addAssign => some .add
  | symbol .subAssign => some .sub
  | symbol .mulAssign => some .mul
  | symbol .divAssign => some .div
  | _ => none

end Token

/-- The statements of a body: those in the braces, or the one statement. -/
def Stmt.body : Stmt → List Stmt
  | block body => body
  | statement => [statement]

namespace Parser

/-! ## Bodies -/

def untilBrace (statement : Parser Stmt) : (budget : Nat) → Parser (List Stmt)
  | 0 => throw .endOfInput
  | budget + 1 => do
    match ← peek? with
    | none => throw .endOfInput
    | some ⟨.symbol .rightBrace, _⟩ =>
      skip
      return []
    | some _ =>
      let first ← statement
      return first :: (← untilBrace statement budget)

def braced (statement : Parser Stmt) (budget : Nat) : Parser (List Stmt) := do
  expect .leftBrace
  untilBrace statement budget

/-- The body of a branch or a loop. -/
def body (statement : Parser Stmt) : Parser (List Stmt) :=
  return (← statement).body

/-! ## Kinds of statements -/

def condition (expression : Parser Expr) : Parser Expr := do
  expect .leftParen
  let condition ← expression
  expect .rightParen
  return condition

/-- A branch after its keyword. An `else` belongs to the nearest branch. -/
def branch (expression : Parser Expr) (statement : Parser Stmt) (line : Nat) : Parser Stmt := do
  let condition ← condition expression
  let first ← body statement
  match ← peek? with
  | some ⟨.keyword .elseKw, _⟩ =>
    skip
    let second ← body statement
    return .ifElse condition first (some second) line
  | _ => return .ifElse condition first none line

def conditionLoop (expression : Parser Expr) (statement : Parser Stmt) (line : Nat) :
    Parser Stmt := do
  let condition ← condition expression
  let body ← body statement
  return .whileLoop condition body line

def rangeLoop (expression : Parser Expr) (statement : Parser Stmt) (line : Nat) :
    Parser Stmt := do
  expect .leftParen
  let iterator ← identifier
  expect .assign
  let range ← expression
  expect .rightParen
  let body ← body statement
  return .forLoop iterator range body line

def jumpEnd (jump : Jump) (line : Nat) : Parser Stmt := do
  expect .semicolon
  return .jump jump line

def returnEnd (expression : Parser Expr) (line : Nat) : Parser Stmt := do
  let value ← expression
  expect .semicolon
  return .ret value line

def simple (expression : Parser Expr) : Parser Stmt := do
  let left ← expression
  match ← peek? with
  | some found =>
    match found.token.assignOp? with
    | some op =>
      skip
      let value ← expression
      expect .semicolon
      return .assign (.ofExpr left) op value found.line
    | none =>
      expect .semicolon
      return .expr left left.line
  | none => throw .endOfInput

/-- Any statement; the first token tells which. -/
def statement : (budget : Nat) → Parser Stmt
  | 0 => throw .endOfInput
  | budget + 1 => do
    let expression := expression (budget + 1)
    match ← peek? with
    | none => throw .endOfInput
    | some ⟨.symbol .leftBrace, _⟩ => return .block (← braced (statement budget) budget)
    | some ⟨.keyword .ifKw, line⟩ =>
      skip
      branch expression (statement budget) line
    | some ⟨.keyword .whileKw, line⟩ =>
      skip
      conditionLoop expression (statement budget) line
    | some ⟨.keyword .forKw, line⟩ =>
      skip
      rangeLoop expression (statement budget) line
    | some ⟨.keyword .breakKw, line⟩ =>
      skip
      jumpEnd .exit line
    | some ⟨.keyword .continueKw, line⟩ =>
      skip
      jumpEnd .next line
    | some ⟨.keyword .returnKw, line⟩ =>
      skip
      returnEnd expression line
    | some _ => simple expression

/-! ## Programs -/

def statements : (budget : Nat) → Parser Program
  | 0 => return []
  | budget + 1 => do
    match ← peek? with
    | none => return []
    | some _ =>
      let first ← statement (budget + 1)
      return first :: (← statements budget)

end Parser

def parseProgram (tokens : List Located) : Except SyntaxError Program :=
  match Parser.runOn Parser.statements tokens with
  | .ok program _ => .ok program
  | .error e _ => .error e

end MatrixScript
