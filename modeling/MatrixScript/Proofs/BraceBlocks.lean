import MatrixScript.Proofs.Pieces
import MatrixScript.Proofs.Termination

/-!
# Braces

Braces around statements only gather them to one: they open no frame. A program whose
blocks are replaced by their own statements, wherever they stand, is checked and run
like the program itself (`flatten_transparent`).
-/

namespace MatrixScript

/-! ## Programs without blocks -/

mutual

/-- The statements to put in the place of a statement, so that no block is left. -/
def Stmt.flatten : Stmt → List Stmt
  | .block body => flattenAll body
  | .ifElse condition body none line => [.ifElse condition (flattenAll body) none line]
  | .ifElse condition body (some other) line =>
    [.ifElse condition (flattenAll body) (some (flattenAll other)) line]
  | .whileLoop condition body line => [.whileLoop condition (flattenAll body) line]
  | .forLoop iterator range body line => [.forLoop iterator range (flattenAll body) line]
  | s => [s]

def flattenAll : List Stmt → List Stmt
  | [] => []
  | s :: rest => s.flatten ++ flattenAll rest

end

mutual

def Stmt.isFlat : Stmt → Bool
  | .block _ => false
  | .ifElse _ body none _ => allFlat body
  | .ifElse _ body (some other) _ => allFlat body && allFlat other
  | .whileLoop _ body _ => allFlat body
  | .forLoop _ _ body _ => allFlat body
  | _ => true

def allFlat : List Stmt → Bool
  | [] => true
  | s :: rest => s.isFlat && allFlat rest

end

theorem allFlat_append (first second : List Stmt) :
    allFlat (first ++ second) = (allFlat first && allFlat second) := by
  induction first with
  | nil => rfl
  | cons s first ih => rw [List.cons_append, allFlat, allFlat, ih, Bool.and_assoc]

@[simp] theorem allFlat_single (s : Stmt) : allFlat [s] = s.isFlat := by
  rw [allFlat, allFlat, Bool.and_true]

mutual

theorem flatten_flat : ∀ s : Stmt, allFlat s.flatten = true
  | .block body => flattenAll_flat body
  | .ifElse condition body none line => by
    rw [Stmt.flatten, allFlat_single, Stmt.isFlat, flattenAll_flat body]
  | .ifElse condition body (some other) line => by
    rw [Stmt.flatten, allFlat_single, Stmt.isFlat, flattenAll_flat body, flattenAll_flat other]
    rfl
  | .whileLoop condition body line => by
    rw [Stmt.flatten, allFlat_single, Stmt.isFlat, flattenAll_flat body]
  | .forLoop iterator range body line => by
    rw [Stmt.flatten, allFlat_single, Stmt.isFlat, flattenAll_flat body]
  | .expr _ _ => rfl
  | .assign _ _ _ _ => rfl
  | .ret _ _ => rfl
  | .jump _ _ => rfl

theorem flattenAll_flat : ∀ body : List Stmt, allFlat (flattenAll body) = true
  | [] => rfl
  | s :: rest => by
    rw [flattenAll, allFlat_append, flatten_flat s, flattenAll_flat rest]
    rfl

end

/-! ## Checking -/

theorem Report.bind_pure {α : Type} (r : Report α) : r >>= pure = r := by
  show Report.mk _ _ = r
  rw [diagnostics_pure, List.append_nil]
  rfl

@[simp] theorem checkStmts_single (s : Stmt) : checkStmts [s] = s.check := by
  funext table
  rw [checkStmts]
  exact Report.bind_pure _

mutual

theorem check_flatten : ∀ s : Stmt, checkStmts s.flatten = s.check
  | .block body => checkStmts_flatten body
  | .ifElse condition body none line => by
    funext table
    rw [Stmt.flatten, checkStmts_single, Stmt.check, Stmt.check, checkStmts_flatten body]
  | .ifElse condition body (some other) line => by
    funext table
    rw [Stmt.flatten, checkStmts_single, Stmt.check, Stmt.check, checkStmts_flatten body]
    simp only [checkStmts_flatten other]
  | .whileLoop condition body line => by
    funext table
    rw [Stmt.flatten, checkStmts_single, Stmt.check, Stmt.check, checkStmts_flatten body]
  | .forLoop iterator range body line => by
    funext table
    rw [Stmt.flatten, checkStmts_single, Stmt.check, Stmt.check, checkStmts_flatten body]
  | .expr _ _ => checkStmts_single _
  | .assign _ _ _ _ => checkStmts_single _
  | .ret _ _ => checkStmts_single _
  | .jump _ _ => checkStmts_single _

theorem checkStmts_flatten : ∀ body : List Stmt, checkStmts (flattenAll body) = checkStmts body
  | [] => rfl
  | s :: rest => by
    funext table
    rw [flattenAll, checkStmts_append, check_flatten s, checkStmts_flatten rest, checkStmts]

end

/-! ## Running -/

@[simp] theorem execAll_single (fuel : Nat) (s : Stmt) : execAll fuel [s] = s.exec fuel := by
  rw [execAll]
  -- Whatever the statement hands on is what comes of the list.
  refine Eq.trans ?_ (bind_pure (s.exec fuel))
  congr 1
  funext flow
  cases flow <;> rfl

section
variable (fuel : Nat)

mutual

theorem exec_flatten : ∀ s : Stmt, execAll fuel s.flatten = s.exec fuel
  | .block body => execAll_flatten body
  | .ifElse condition body none line => by
    rw [Stmt.flatten, execAll_single, exec_ifElse, exec_ifElse, execAll_flatten body]
  | .ifElse condition body (some other) line => by
    rw [Stmt.flatten, execAll_single, exec_ifElse, exec_ifElse, execAll_flatten body]
    simp only [execAll_flatten other]
  | .whileLoop condition body line => by
    rw [Stmt.flatten, execAll_single, Stmt.exec, Stmt.exec, execAll_flatten body]
  | .forLoop iterator range body line => by
    rw [Stmt.flatten, execAll_single, Stmt.exec, Stmt.exec, execAll_flatten body]
  | .expr _ _ => execAll_single _ _
  | .assign _ _ _ _ => execAll_single _ _
  | .ret _ _ => execAll_single _ _
  | .jump _ _ => execAll_single _ _

theorem execAll_flatten : ∀ body : List Stmt, execAll fuel (flattenAll body) = execAll fuel body
  | [] => rfl
  | s :: rest => by
    have happend := execAll_append fuel s.flatten (flattenAll rest)
    rw [exec_flatten s, execAll_flatten rest] at happend
    exact happend

end

theorem program_flatten (p : Program) :
    Exec.program fuel (flattenAll p) = Exec.program fuel p := by
  rw [Exec.program, Exec.program, execAll_flatten]

end

theorem reaches_flatten (p : Program) (m : Machine) (r : EStateM.Result Stop Machine Outcome) :
    Exec.Reaches (flattenAll p) m r ↔ Exec.Reaches p m r := by
  unfold Exec.Reaches
  simp only [program_flatten]

/-- **Braces.** A program is left without blocks when each is replaced by its own
statements. From every checker it gets the same diagnostics and the same table then, and
from every machine it comes to the same result, with any fuel as well as step by step;
its steps come to an end exactly if those of the program do. -/
theorem flatten_transparent (p : Program) :
    allFlat (flattenAll p) = true ∧
    (∀ c : Checker, c.check (flattenAll p) = c.check p) ∧
    ∀ m : Machine,
      (∀ fuel, Exec.program fuel (flattenAll p) m = Exec.program fuel p m) ∧
      ∀ r, (∃ last ∈ StateTransition.eval Config.step (Config.start (flattenAll p) m),
          last.outcome = r) ↔
        ∃ last ∈ StateTransition.eval Config.step (Config.start p m), last.outcome = r := by
  refine ⟨flattenAll_flat p, fun c => ?_, fun m => ⟨fun fuel => ?_, fun r => ?_⟩⟩
  · rw [Checker.check, Checker.check, checkStmts_flatten]
  · rw [program_flatten]
  · rw [← Config.reaches_iff, ← Config.reaches_iff, reaches_flatten]

/-- Jumps in a block of a block, and a block without statements. -/
example : flattenAll [.whileLoop (.name "a" 1)
      [.block [.expr (.int 1 2) 2, .block [.jump .exit 3]], .jump .next 4] 1, .block []] =
    [.whileLoop (.name "a" 1) [.expr (.int 1 2) 2, .jump .exit 3, .jump .next 4] 1] := rfl

end MatrixScript
