import MatrixScript.Program.Expr

/-!
# Statements

A program is a list of statements, and so is the body of a branch or a loop.
-/

namespace MatrixScript

inductive Stmt where
  /-- Statements in braces. They open no frame. -/
  | block (body : List Stmt)
  | expr (expr : Expr) (line : Nat)
  | assign (target : Target) (op : AssignOp) (value : Expr) (line : Nat)
  | ifElse (condition : Expr) (body : List Stmt) (otherwise : Option (List Stmt)) (line : Nat)
  | whileLoop (condition : Expr) (body : List Stmt) (line : Nat)
  | forLoop (iterator : String) (range : Expr) (body : List Stmt) (line : Nat)
  | ret (value : Expr) (line : Nat)
  | jump (jump : Jump) (line : Nat)

abbrev Program := List Stmt

end MatrixScript
