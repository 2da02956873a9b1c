import MatrixScript.Proofs.ScopeLemmas
import MatrixScript.Typing.Stmt

/-!
# Growth of tables

Checking a statement only ever adds names to the innermost frame of the table,
and only names that no frame around it has (`check_extends`). What a body adds is
gone with its frame, so a branch or a loop leaves the table as it was.
-/

namespace MatrixScript

/-- The innermost frame has kept its bindings; its new names are new to the
frames around it too. -/
structure Scope.Extends {α : Type} (before after : Scope α) : Prop where
  outer : after.outer = before.outer
  kind : after.inner.kind = before.inner.kind
  keeps : ∀ name value, before.inner.find? name = some value → after.inner.find? name = some value
  fresh : ∀ name, after.inner.binds name = true →
    before.inner.binds name = true ∨ seenIn before.outer name = none

namespace Scope.Extends

variable {α : Type} {s t u : Scope α}

theorem refl (s : Scope α) : s.Extends s := ⟨rfl, rfl, fun _ _ h => h, fun _ h => .inl h⟩

theorem trans (h₁ : s.Extends t) (h₂ : t.Extends u) : s.Extends u where
  outer := h₂.outer.trans h₁.outer
  kind := h₂.kind.trans h₁.kind
  keeps := fun name value h => h₂.keeps name value (h₁.keeps name value h)
  fresh := fun name h => by
    rcases h₂.fresh name h with h | h
    · exact h₁.fresh name h
    · rw [h₁.outer] at h; exact .inr h

theorem bind {name : String} (h : s.lookup? name = none) (value : α) :
    s.Extends (s.bind name value) := by
  rw [lookup?_eq] at h
  obtain ⟨hi, ho⟩ := not_binds_of_seenIn_eq_none h
  refine ⟨rfl, rfl, fun key old hk => ?_, fun key hk => ?_⟩
  · have hne : name ≠ key := by
      rintro rfl
      rw [Frame.binds_of_find? hk] at hi; cases hi
    show (s.inner.insert name value).find? key = _
    rw [Frame.find?_insert, if_neg hne, hk]
  · by_cases hn : name = key
    · subst hn; exact .inr ho
    · left
      have : (s.inner.insert name value).binds key = true := hk
      rw [Frame.binds_insert] at this
      simpa [hn] using this

end Scope.Extends

theorem Scope.pop_of_outer {α : Type} {s t : Scope α} (h : t.outer = s.chain) : t.pop = s := by
  obtain ⟨inner, outer⟩ := t
  have ho : outer = s.inner :: s.outer := h
  subst ho
  rfl

/-! ## Assignments -/

theorem defineName_extends {table : Table} {name : String} (h : table.lookup? name = none)
    (type : ArrayType) (line : Nat) :
    defineName table name type line = ⟨table.bind name type, []⟩ := by
  have hb : table.inner.binds name = false :=
    (not_binds_of_seenIn_eq_none (Scope.lookup?_eq table name ▸ h)).1
  simp [defineName, Scope.define?, hb]
  rfl

theorem checkAssignment_extends (table : Table) (target : Target) (op : AssignOp) (value : Expr)
    (line : Nat) : table.Extends (checkAssignment table target op value line).result := by
  unfold checkAssignment
  rw [Report.result_bind]
  cases target with
  | invalid e => exact .refl table
  | element array indices l =>
    rw [Report.result_bind, Report.result_bind]
    split <;> exact .refl table
  | name spelling l =>
    dsimp only
    split
    · exact .refl table
    · exact .refl table
    · rename_i hn
      split
      · split
        · rw [defineName_extends hn]; exact .bind hn _
        · exact .refl table
      · exact .refl table

/-! ## Statements -/

def iteratorTable (table : Table) (iterator : String) : Table :=
  (table.push .forLoop).bind iterator (.scalar .int)

theorem define_iterator (table : Table) (iterator : String) (line : Nat) :
    defineName (table.push .forLoop) iterator (.scalar .int) line =
      ⟨iteratorTable table iterator, []⟩ := rfl

theorem bind_iterator (table : Table) (iterator : String) :
    (iteratorTable table iterator).bind iterator (.scalar .int) = iteratorTable table iterator := by
  simp [iteratorTable, Scope.bind, Scope.push, Frame.insert, Bindings.insert]

section
variable {body other : List Stmt} (hb : ∀ table : Table, table.Extends (checkStmts body table).result)
include hb

theorem inCheckedFrame_result (table : Table) (kind : FrameKind) :
    (inCheckedFrame table kind (checkStmts body)).result = table :=
  Scope.pop_of_outer (hb (table.push kind)).outer

theorem check_branch (ho : ∀ table : Table, table.Extends (checkStmts other table).result)
    (condition : Expr) (line : Nat) (table : Table) :
    ((Stmt.ifElse condition body none line).check table).result = table ∧
      ((Stmt.ifElse condition body (some other) line).check table).result = table := by
  have h₁ := inCheckedFrame_result hb table .branch
  have h₂ := inCheckedFrame_result ho table .branch
  refine ⟨h₁, ?_⟩
  unfold Stmt.check
  rw [Report.result_bind, Report.result_bind, h₁]
  exact h₂

theorem check_for (iterator : String) (range : Expr) (line : Nat) (table : Table) :
    ((Stmt.forLoop iterator range body line).check table).result = table := by
  unfold Stmt.check
  rw [Report.result_bind]
  unfold inCheckedFrame
  rw [Report.result_bind, Report.result_bind, define_iterator]
  exact Scope.pop_of_outer (hb (iteratorTable table iterator)).outer

end

mutual

theorem check_extends : ∀ (s : Stmt) (table : Table), table.Extends (s.check table).result
  | .block body, table => checkStmts_extends body table
  | .expr e line, table => .refl table
  | .assign target op value line, table => checkAssignment_extends table target op value line
  | .ifElse condition body none line, table => by
    rw [(check_branch (checkStmts_extends body) (checkStmts_extends body) condition line table).1]
    exact .refl table
  | .ifElse condition body (some other) line, table => by
    rw [(check_branch (checkStmts_extends body) (checkStmts_extends other) condition line table).2]
    exact .refl table
  | .whileLoop condition body line, table => by
    have h := inCheckedFrame_result (checkStmts_extends body) table .whileLoop
    unfold Stmt.check
    rw [Report.result_bind, h]
    exact .refl table
  | .forLoop iterator range body line, table => by
    rw [check_for (checkStmts_extends body)]
    exact .refl table
  | .ret value line, table => .refl table
  | .jump jump line, table => by
    unfold Stmt.check
    split <;> exact .refl table

theorem checkStmts_extends : ∀ (body : List Stmt) (table : Table),
    table.Extends (checkStmts body table).result
  | [], table => .refl table
  | s :: rest, table =>
    (check_extends s table).trans (checkStmts_extends rest (s.check table).result)

end

end MatrixScript
