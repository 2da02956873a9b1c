import MatrixScript.Parser.Basic
import MatrixScript.Program.Expr

/-!
# Reading expressions

One parser per level of precedence, the tightest first. Each is given the
parser for a nested expression, which reads what stands between brackets, and a
budget for its own loop; `expression` ties the knot.
-/

namespace MatrixScript

/-! ## Operators of a level -/

namespace Token

def logicalOp? : Token → Option BinaryOp
  | keyword .and => some .and
  | keyword .or => some .or
  | keyword .xor => some .xor
  | _ => none

def relationalOp? : Token → Option BinaryOp
  | symbol .equal => some .equal
  | symbol .notEqual => some .notEqual
  | symbol .greater => some .greater
  | symbol .greaterEqual => some .greaterEqual
  | symbol .less => some .less
  | symbol .lessEqual => some .lessEqual
  | _ => none

def additiveOp? : Token → Option BinaryOp
  | symbol .plus => some .add
  | symbol .minus => some .sub
  | symbol .dotPlus => some .dotAdd
  | symbol .dotMinus => some .dotSub
  | _ => none

def multiplicativeOp? : Token → Option BinaryOp
  | symbol .times => some .mul
  | symbol .divide => some .div
  | symbol .dotTimes => some .dotMul
  | symbol .dotDivide => some .dotDiv
  | _ => none

end Token

/-! ## Bracket literals -/

/-- The literal of the rows between two brackets, of which there is at least
one. Several rows are a matrix; so is a single row of vectors; any other row is
a vector. -/
def Expr.ofBracket (row : List Expr) (rows : List (List Expr)) (line : Nat) : Expr :=
  if rows.isEmpty then
    match row.mapM Expr.row? with
    | some vectors => .matrix vectors line
    | none => .vector ⟨row, line⟩
  else .matrix ((row :: rows).map fun elements => ⟨elements, line⟩) line

namespace Parser

/-- Expressions with commas and semicolons between them, up to and including
the closing bracket: the first row and the rows after it. -/
def rows (expression : Parser Expr) : (budget : Nat) → Parser (List Expr × List (List Expr))
  | 0 => throw .endOfInput
  | budget + 1 => do
    let first ← expression
    let separator ← next
    match separator.token with
    | .symbol .comma =>
      let (row, later) ← rows expression budget
      return (first :: row, later)
    | .symbol .semicolon =>
      let (row, later) ← rows expression budget
      return ([first], row :: later)
    | .symbol .rightBracket => return ([first], [])
    | _ => throw (.unexpectedToken separator)

def bracket (expression : Parser Expr) (budget line : Nat) : Parser Expr := do
  if (← peek?).any (·.token = .symbol .rightBracket) then
    skip
    return .vector ⟨[], line⟩
  else
    let (row, later) ← rows expression budget
    return .ofBracket row later line

/-! ## Levels of precedence -/

/-- The call of a sized function, after its name: exactly one argument. -/
def sizedCall (expression : Parser Expr) (function : Sized) (line : Nat) : Parser Expr := do
  expect .leftParen
  let size ← expression
  expect .rightParen
  return .call (.sized function) [size] line

/-- Literals, names, parentheses, bracket literals and calls. -/
def primary (expression : Parser Expr) (budget : Nat) : Parser Expr := do
  let found ← next
  match found.token with
  | .int value => return .int value found.line
  | .real value => return .real value found.line
  | .str literal => return .str literal found.line
  | .name spelling => return .name spelling found.line
  | .symbol .leftParen =>
    let inner ← expression
    expect .rightParen
    return inner
  | .symbol .leftBracket => bracket expression budget found.line
  | .keyword .print =>
    expect .leftParen
    let arguments ← listUntil .rightParen expression budget
    return .call .print arguments found.line
  | .keyword .eye => sizedCall expression .eye found.line
  | .keyword .zeros => sizedCall expression .zeros found.line
  | .keyword .ones => sizedCall expression .ones found.line
  | _ => throw (.unexpectedToken found)

/-- Transposes and subscripts after an operand. A subscript needs an index; one
without is reported as a misplaced closing bracket on the line of the opening
one. -/
def suffixes (expression : Parser Expr) : (budget : Nat) → Expr → Parser Expr
  | 0, operand => return operand
  | budget + 1, operand => do
    match ← peek? with
    | some ⟨.symbol .transpose, line⟩ =>
      skip
      suffixes expression budget (.unary .transpose operand line)
    | some ⟨.symbol .leftBracket, line⟩ =>
      skip
      let indices ← listUntil .rightBracket expression budget
      if indices.isEmpty then
        throw (.unexpectedToken ⟨.symbol .rightBracket, line⟩)
      else
        suffixes expression budget (.binary .subscript operand (.vector ⟨indices, line⟩) line)
    | _ => return operand

def suffixed (expression : Parser Expr) (budget : Nat) : Parser Expr := do
  let operand ← primary expression budget
  suffixes expression budget operand

/-- Negation binds looser than the suffixes and tighter than binary operators. -/
def unary (expression : Parser Expr) : (budget : Nat) → Parser Expr
  | 0 => throw .endOfInput
  | budget + 1 => do
    match ← peek? with
    | some ⟨.symbol .minus, line⟩ =>
      skip
      return .unary .negate (← unary expression budget) line
    | _ => suffixed expression budget

/-- Operators of one level and their right operands, folded to the left. -/
def chainFrom (operator? : Token → Option BinaryOp) (operand : Parser Expr) :
    (budget : Nat) → Expr → Parser Expr
  | 0, left => return left
  | budget + 1, left => do
    match ← peek? with
    | some found =>
      match operator? found.token with
      | some op =>
        skip
        let right ← operand
        chainFrom operator? operand budget (.binary op left right found.line)
      | none => return left
    | none => return left

def chain (operator? : Token → Option BinaryOp) (operand : Parser Expr) (budget : Nat) :
    Parser Expr := do
  let left ← operand
  chainFrom operator? operand budget left

def multiplicative (expression : Parser Expr) (budget : Nat) : Parser Expr :=
  chain Token.multiplicativeOp? (unary expression budget) budget

def additive (expression : Parser Expr) (budget : Nat) : Parser Expr :=
  chain Token.additiveOp? (multiplicative expression budget) budget

def relational (expression : Parser Expr) (budget : Nat) : Parser Expr :=
  chain Token.relationalOp? (additive expression budget) budget

def logical (expression : Parser Expr) (budget : Nat) : Parser Expr :=
  chain Token.logicalOp? (relational expression budget) budget

/-- A range has two bounds at most: a second colon is misplaced. -/
def range (expression : Parser Expr) (budget : Nat) : Parser Expr := do
  let start ← logical expression budget
  match ← peek? with
  | some ⟨.symbol .colon, line⟩ =>
    skip
    let stop ← logical expression budget
    match ← peek? with
    | some ⟨.symbol .colon, again⟩ =>
      skip
      throw (.unexpectedToken ⟨.symbol .colon, again⟩)
    | _ => return .binary .range start stop line
  | _ => return start

def expression : (budget : Nat) → Parser Expr
  | 0 => throw .endOfInput
  | budget + 1 => range (expression budget) (budget + 1)

end Parser

end MatrixScript
