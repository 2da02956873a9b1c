import MatrixScript.Program.Stmt

/-!
# Lines of trees

All lines that stand in a tree, those of its inner nodes included.
-/

namespace MatrixScript

mutual

def Expr.lines : Expr → List Nat
  | .int _ line => [line]
  | .real _ line => [line]
  | .str _ line => [line]
  | .name _ line => [line]
  | .vector ⟨elements, line⟩ => line :: allLines elements
  | .matrix rows line => line :: rowsLines rows
  | .call _ arguments line => line :: allLines arguments
  | .binary _ left right line => line :: (left.lines ++ right.lines)
  | .unary _ operand line => line :: operand.lines

def allLines : List Expr → List Nat
  | [] => []
  | e :: es => e.lines ++ allLines es

def rowsLines : List Row → List Nat
  | [] => []
  | ⟨elements, line⟩ :: rows => line :: (allLines elements ++ rowsLines rows)

end

def Target.lines : Target → List Nat
  | .name _ line => [line]
  | .element _ indices line => line :: indices.line :: allLines indices.elements
  | .invalid e => e.lines

mutual

def Stmt.lines : Stmt → List Nat
  | .block body => stmtsLines body
  | .expr e line => line :: e.lines
  | .assign target _ value line => line :: (target.lines ++ value.lines)
  | .ifElse condition body none line => line :: (condition.lines ++ stmtsLines body)
  | .ifElse condition body (some other) line =>
    line :: (condition.lines ++ (stmtsLines body ++ stmtsLines other))
  | .whileLoop condition body line => line :: (condition.lines ++ stmtsLines body)
  | .forLoop _ range body line => line :: (range.lines ++ stmtsLines body)
  | .ret value line => line :: value.lines
  | .jump _ line => [line]

def stmtsLines : List Stmt → List Nat
  | [] => []
  | s :: rest => s.lines ++ stmtsLines rest

end

theorem Expr.line_mem_lines (e : Expr) : e.line ∈ e.lines := by
  cases e with
  | vector row =>
    cases row
    rw [Expr.lines]
    exact List.mem_cons_self
  | _ => rw [Expr.lines]; exact List.mem_cons_self

end MatrixScript
