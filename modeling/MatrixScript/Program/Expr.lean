import MatrixScript.Program.Operator

/-!
# Expressions

Every node carries the line of its operator, keyword or opening token.
-/

namespace MatrixScript

mutual

/-- Expressions. A string literal is kept with its quotes; in a subscript that
was read from a source, the right operand is a vector of indices. -/
inductive Expr where
  | int (value : Int64) (line : Nat)
  | real (value : Float) (line : Nat)
  | str (literal : String) (line : Nat)
  | name (spelling : String) (line : Nat)
  | vector (row : Row)
  | matrix (rows : List Row) (line : Nat)
  | call (function : Builtin) (arguments : List Expr) (line : Nat)
  | binary (op : BinaryOp) (left right : Expr) (line : Nat)
  | unary (op : UnaryOp) (operand : Expr) (line : Nat)

/-- A bracketed list of expressions: a vector, a matrix row or a list of indices. -/
inductive Row where
  | mk (elements : List Expr) (line : Nat)

end

namespace Row

def elements : Row → List Expr
  | mk elements _ => elements

def line : Row → Nat
  | mk _ line => line

end Row

namespace Expr

def line : Expr → Nat
  | int _ line => line
  | real _ line => line
  | str _ line => line
  | name _ line => line
  | vector row => row.line
  | matrix _ line => line
  | call _ _ line => line
  | binary _ _ _ line => line
  | unary _ _ line => line

def name? : Expr → Option String
  | name spelling _ => some spelling
  | _ => none

def row? : Expr → Option Row
  | vector row => some row
  | _ => none

end Expr

/-! ## Assignment targets -/

/-- The left side of an assignment. Anything else than a name or an element of
a named array is kept as an invalid target, to be reported later. -/
inductive Target where
  | name (spelling : String) (line : Nat)
  | element (array : String) (indices : Row) (line : Nat)
  | invalid (expr : Expr)

namespace Target

def ofExpr : Expr → Target
  | .name spelling line => name spelling line
  | .binary .subscript (.name array _) (.vector indices) line => element array indices line
  | expr => invalid expr

def line : Target → Nat
  | name _ line => line
  | element _ _ line => line
  | invalid expr => expr.line

end Target

end MatrixScript
