import MatrixScript.Proofs.SpelledTrees
import MatrixScript.Proofs.TypingRules
import MatrixScript.Typing.Stmt

/-!
# Checking without lines

A diagnostic carries a line, but what is reported does not depend on one. A program
without lines is reported the same issues in the same order (`checkProgram_unlined`).
-/

namespace MatrixScript

/-! ## Reports -/

structure Report.Alike {α : Type} (r r' : Report α) : Prop where
  result : r'.result = r.result
  issues : r'.diagnostics.map Diagnostic.issue = r.diagnostics.map Diagnostic.issue

namespace Report

variable {α β : Type}

theorem alike_refl (r : Report α) : r.Alike r := ⟨rfl, rfl⟩

theorem Alike.bind {r r' : Report α} {next next' : α → Report β} (hr : r.Alike r')
    (hnext : ∀ a, (next a).Alike (next' a)) : (r >>= next).Alike (r' >>= next') := by
  constructor
  · rw [result_bind, result_bind, hr.result, (hnext r.result).result]
  · rw [diagnostics_bind, diagnostics_bind, List.map_append, List.map_append, hr.issues, hr.result,
      (hnext r.result).issues]

theorem Alike.ite {c : Prop} [Decidable c] {r r' s s' : Report α} (hr : r.Alike r') (hs : s.Alike s') :
    (if c then r else s).Alike (if c then r' else s') := by
  by_cases hc : c
  · rwa [if_pos hc, if_pos hc]
  · rwa [if_neg hc, if_neg hc]

theorem report_alike (issue : Issue) (line line' : Nat) :
    (report issue line).Alike (report issue line') := ⟨rfl, rfl⟩

/-- A finding and what is made of it. -/
theorem reports_alike (issue : Issue) (line line' : Nat) (a : α) :
    (do report issue line; return a : Report α).Alike (do report issue line'; return a) :=
  (report_alike issue line line').bind fun _ => alike_refl _

end Report

open Report

/-! ## Rules -/

section
variable (line line' : Nat)

theorem need_alike {r r' : Report Typing} (h : r.Alike r') :
    (Typing.need line r).Alike (Typing.need line' r') := by
  refine h.bind fun typing => ?_
  cases typing with
  | known type => exact alike_refl _
  | unknown => exact alike_refl _
  | void => exact reports_alike _ _ _ _

theorem vectorType_alike (elements : List ArrayType) :
    (vectorType elements line).Alike (vectorType elements line') := by
  cases elements with
  | nil => exact alike_refl _
  | cons first others => exact .ite (alike_refl _) (reports_alike _ _ _ _)

theorem add_alike (s : RowsSummary) (elements : Option (List ArrayType)) :
    (s.add elements line).Alike (s.add elements line') := by
  cases elements with
  | none => exact alike_refl _
  | some types =>
    exact .ite (.ite (alike_refl _) (reports_alike _ _ _ _)) (reports_alike _ _ _ _)

theorem productType_alike (left right : ArrayType) :
    (productType left right line).Alike (productType left right line') := by
  refine .ite ?_ (reports_alike _ _ _ _)
  cases left.shape.head? with
  | none => exact alike_refl _
  | some rows =>
    cases left.shape.getLast? with
    | none => exact alike_refl _
    | some inner =>
      cases right.shape.head? with
      | none => exact alike_refl _
      | some inner' =>
        cases right.shape.getLast? with
        | none => exact alike_refl _
        | some columns => exact .ite (alike_refl _) (reports_alike _ _ _ _)

theorem type_alike (op : BinaryOp) (left right : ArrayType) :
    (op.type left right line).Alike (op.type left right line') := by
  cases op with
  | add | sub | dotAdd | dotSub | dotMul | dotDiv | equal | notEqual =>
    exact .ite (alike_refl _) (reports_alike _ _ _ _)
  | mul => exact productType_alike line line' left right
  | div | greater | greaterEqual | less | lessEqual =>
    simp only [BinaryOp.type]
    cases [left, right].find? (!·.isScalar) with
    | none => exact alike_refl _
    | some found => exact reports_alike _ _ _ _
  | and | or | xor =>
    simp only [BinaryOp.type]
    cases [left, right].find? (!·.isScalarOf .bool) with
    | none => exact alike_refl _
    | some found => exact reports_alike _ _ _ _
  | range | subscript => exact alike_refl _

theorem elementType_alike (table : Table) (array : String) (indexed : Bool) :
    (elementType table array indexed line).Alike (elementType table array indexed line') := by
  unfold elementType
  cases table.lookup? array with
  | none => exact reports_alike _ _ _ _
  | some type => exact alike_refl _

end

/-! ## Expressions -/

theorem name?_unlined (e : Expr) : e.unlined.name? = e.name? := by
  cases e with
  | vector row => cases row; rfl
  | _ => rfl

theorem sizeArgument?_unlined (arguments : List Expr) :
    sizeArgument? (allUnlined arguments) = sizeArgument? arguments := by
  match arguments with
  | [] => rfl
  | [e] =>
    cases e with
    | vector row => cases row; rfl
    | _ => rfl
  | _ :: _ :: _ => simp [sizeArgument?, allUnlined]

theorem sizeIssue_unlined (function : Sized) (arguments : List Expr) :
    sizeIssue function (allUnlined arguments) = sizeIssue function arguments := by
  simp [sizeIssue, allUnlined_eq]

section
variable (table : Table)

theorem operation_alike (op : BinaryOp) (hop : op ≠ .range ∧ op ≠ .subscript) {left right : Expr}
    (hleft : (left.checkValue table).Alike (left.unlined.checkValue table))
    (hright : (right.checkValue table).Alike (right.unlined.checkValue table)) (line : Nat) :
    ((Expr.binary op left right line).check table).Alike
      ((Expr.binary op left right line).unlined.check table) := by
  rw [Expr.unlined, check_operation hop, check_operation hop]
  refine hleft.bind fun leftType? => hright.bind fun rightType? => ?_
  cases leftType? with
  | none => exact alike_refl _
  | some leftType =>
    cases rightType? with
    | none => exact alike_refl _
    | some rightType =>
      exact (type_alike line 0 op leftType rightType).bind fun _ => alike_refl _

mutual

theorem check_alike : ∀ e : Expr, (e.check table).Alike (e.unlined.check table)
  | .int _ _ => alike_refl _
  | .real _ _ => alike_refl _
  | .str _ _ => alike_refl _
  | .name spelling line => by
    rw [Expr.unlined, Expr.check, Expr.check]
    cases table.lookup? spelling with
    | none => exact reports_alike _ _ _ _
    | some type => exact alike_refl _
  | .vector ⟨elements, line⟩ => by
    rw [Expr.unlined, Expr.check, Expr.check]
    refine (checkAll_alike elements).bind fun types? => ?_
    cases types? with
    | none => exact alike_refl _
    | some types => exact vectorType_alike line 0 types
  | .matrix rows _ => by
    rw [Expr.unlined, Expr.check, Expr.check, rowsUnlined_eq, List.length_map, List.length_map,
      ← rowsUnlined_eq]
    exact (checkRows_alike rows .start).bind fun _ => alike_refl _
  | .call .print arguments _ => by
    rw [Expr.unlined, Expr.check, Expr.check]
    exact (checkAll_alike arguments).bind fun _ => alike_refl _
  | .call (.sized function) arguments line => by
    rw [Expr.unlined, Expr.check, Expr.check, sizeArgument?_unlined, sizeIssue_unlined]
    cases sizeArgument? arguments with
    | none => exact (checkAll_alike arguments).bind fun _ => reports_alike _ _ _ _
    | some size => exact alike_refl _
  | .binary op left right line => by
    have hleft := need_alike left.line left.unlined.line (check_alike left)
    have hright := need_alike right.line right.unlined.line (check_alike right)
    have operation := fun hop : op ≠ .range ∧ op ≠ .subscript =>
      operation_alike table op hop hleft hright line
    cases op with
    | subscript =>
      rw [Expr.unlined]
      unfold Expr.check
      rw [name?_unlined]
      cases left.name? with
      | none => exact hleft.bind fun _ => reports_alike _ _ _ _
      | some array =>
        cases right with
        | vector row =>
          cases row with
          | mk indices _ =>
            exact (checkAll_alike indices).bind fun types =>
              (elementType_alike line 0 table array types.isSome).bind fun _ => alike_refl _
        | _ => exact hleft.bind fun _ => reports_alike _ _ _ _
    | range =>
      exact hleft.bind fun _ => hright.bind fun _ => reports_alike _ _ _ _
    | _ => exact operation (by simp)
  | .unary op operand _ => by
    rw [Expr.unlined, Expr.check, Expr.check]
    exact (need_alike _ _ (check_alike operand)).bind fun _ => alike_refl _

theorem checkAll_alike : ∀ es : List Expr,
    (checkAll table es).Alike (checkAll table (allUnlined es))
  | [] => alike_refl _
  | e :: es => by
    rw [allUnlined, checkAll, checkAll]
    exact (need_alike _ _ (check_alike e)).bind fun _ => (checkAll_alike es).bind fun _ => alike_refl _

theorem checkRows_alike : ∀ (rows : List Row) (summary : RowsSummary),
    (checkRows table rows summary).Alike (checkRows table (rowsUnlined rows) summary)
  | [], _ => alike_refl _
  | ⟨elements, line⟩ :: rows, summary => by
    rw [rowsUnlined, checkRows, checkRows]
    exact (checkAll_alike elements).bind fun types => (add_alike line 0 summary types).bind fun _ =>
      checkRows_alike rows _

end

end

theorem checkValue_alike (table : Table) (e : Expr) :
    (e.checkValue table).Alike (e.unlined.checkValue table) :=
  need_alike _ _ (check_alike table e)

/-! ## Statements -/

theorem checkStore_alike (place : String) (expected found : ArrayType) (line line' : Nat) :
    (checkStore place expected found line).Alike (checkStore place expected found line') :=
  .ite (alike_refl _) (report_alike _ _ _)

theorem defineName_alike (table : Table) (name : String) (type : ArrayType) (line line' : Nat) :
    (defineName table name type line).Alike (defineName table name type line') := by
  unfold defineName
  cases table.define? name type with
  | none => exact reports_alike _ _ _ _
  | some table => exact alike_refl _

theorem checkAssignment_alike (table : Table) (target : Target) (op : AssignOp) (value : Expr)
    (line : Nat) : (checkAssignment table target op value line).Alike
      (checkAssignment table target.unlined op value.unlined 0) := by
  refine (checkValue_alike table value).bind fun new => ?_
  cases target with
  | invalid e => exact reports_alike _ _ _ _
  | name spelling l =>
    simp only [Target.unlined]
    cases table.lookup? spelling with
    | some current =>
      cases new with
      | none => exact alike_refl _
      | some new => exact (checkStore_alike _ _ _ _ _).bind fun _ => alike_refl _
    | none =>
      refine .ite ?_ (reports_alike _ _ _ _)
      cases new with
      | none => exact alike_refl _
      | some new => exact defineName_alike _ _ _ _ _
  | element array indices l =>
    refine (checkAll_alike table indices.elements).bind fun types =>
      (elementType_alike l 0 table array types.isSome).bind fun element? => ?_
    cases element? with
    | none => exact alike_refl _
    | some element =>
      cases new with
      | none => exact alike_refl _
      | some new => exact (checkStore_alike _ _ _ _ _).bind fun _ => alike_refl _

theorem checkBound_alike (table : Table) (bound : Expr) (line line' : Nat) :
    (checkBound table bound line).Alike (checkBound table bound.unlined line') := by
  refine (checkValue_alike table bound).bind fun type? => ?_
  cases type? with
  | none => exact alike_refl _
  | some type => exact .ite (alike_refl _) (report_alike _ _ _)

theorem checkHeader_alike (table : Table) (header : Expr) (line : Nat) :
    (checkHeader table header line).Alike (checkHeader table header.unlined 0) := by
  have other : (do let _ ← header.check table; report .forExpectsRange line : Report Unit).Alike
      (do let _ ← header.unlined.check table; report .forExpectsRange 0) :=
    (check_alike table header).bind fun _ => report_alike _ _ _
  cases header with
  | vector row => cases row; exact other
  | binary op start stop l =>
    cases op with
    | range => exact (checkBound_alike table start l 0).bind fun _ => checkBound_alike table stop l 0
    | _ => exact other
  | _ => exact other

theorem inCheckedFrame_alike (table : Table) (kind : FrameKind) {body body' : Table → Report Table}
    (h : ∀ table, (body table).Alike (body' table)) :
    (inCheckedFrame table kind body).Alike (inCheckedFrame table kind body') :=
  (h _).bind fun _ => alike_refl _

mutual

theorem stmt_check_alike : ∀ (s : Stmt) (table : Table), (s.check table).Alike (s.unlined.check table)
  | .block body, table => checkStmts_alike body table
  | .expr e _, table => (check_alike table e).bind fun _ => alike_refl _
  | .assign target op value line, table => checkAssignment_alike table target op value line
  | .ifElse condition body none _, table =>
    (checkValue_alike table condition).bind fun _ =>
      (inCheckedFrame_alike table .branch (checkStmts_alike body)).bind fun _ => alike_refl _
  | .ifElse condition body (some other) _, table =>
    (checkValue_alike table condition).bind fun _ =>
      (inCheckedFrame_alike table .branch (checkStmts_alike body)).bind fun table =>
        inCheckedFrame_alike table .branch (checkStmts_alike other)
  | .whileLoop condition body _, table =>
    (checkValue_alike table condition).bind fun _ =>
      inCheckedFrame_alike table .whileLoop (checkStmts_alike body)
  | .forLoop iterator range body line, table =>
    (checkHeader_alike table range line).bind fun _ =>
      inCheckedFrame_alike table .forLoop fun table =>
        (defineName_alike table iterator _ line 0).bind fun table => checkStmts_alike body table
  | .ret value _, table => (checkValue_alike table value).bind fun _ => alike_refl _
  | .jump _ _, _ => .ite (alike_refl _) (reports_alike _ _ _ _)

theorem checkStmts_alike : ∀ (body : List Stmt) (table : Table),
    (checkStmts body table).Alike (checkStmts (stmtsUnlined body) table)
  | [], _ => alike_refl _
  | s :: rest, table => (stmt_check_alike s table).bind fun table => checkStmts_alike rest table

end

/-- The issues found in a program have nothing to do with its lines. -/
theorem checkProgram_unlined (p : Program) :
    (checkProgram (stmtsUnlined p)).map Diagnostic.issue = (checkProgram p).map Diagnostic.issue :=
  (checkStmts_alike p .fresh).issues

end MatrixScript
