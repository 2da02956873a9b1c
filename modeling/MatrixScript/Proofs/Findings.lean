import MatrixScript.Proofs.Growth
import MatrixScript.Proofs.TreeLines
import MatrixScript.Proofs.TypingRules

/-!
# Findings

What a check finds is on lines of what it checks, and it is never that a name is defined
twice: a name is only defined where a lookup does not find it, or in a frame that was
just opened (`checkStmts_finds`). So a checker only ever grows, by names of the innermost
frame and by diagnostics at the end (`checker_grows`).
-/

namespace MatrixScript

/-! ## Reports -/

def Report.Finds {α : Type} (K : Nat → Prop) (r : Report α) : Prop :=
  ∀ d ∈ r.diagnostics, K d.line ∧ ∀ name, d.issue ≠ .redefinition name

namespace Report

variable {α β : Type} {K : Nat → Prop}

theorem finds_pure (a : α) : (pure a : Report α).Finds K := fun _ hd => nomatch hd

theorem Finds.bind {r : Report α} {next : α → Report β} (hr : r.Finds K)
    (hnext : ∀ a, (next a).Finds K) : (r >>= next).Finds K := by
  intro d hd
  rw [diagnostics_bind, List.mem_append] at hd
  exact hd.elim (hr d) (hnext r.result d)

theorem Finds.ite {c : Prop} [Decidable c] {r s : Report α} (hr : r.Finds K) (hs : s.Finds K) :
    (if c then r else s).Finds K := by
  by_cases hc : c
  · rwa [if_pos hc]
  · rwa [if_neg hc]

theorem report_finds {issue : Issue} {line : Nat} (hline : K line)
    (hissue : ∀ name, issue ≠ .redefinition name) : (report issue line).Finds K := by
  intro d hd
  cases List.mem_singleton.mp hd
  exact ⟨hline, hissue⟩

/-- A finding and what is made of it. -/
theorem reports_find {issue : Issue} {line : Nat} (hline : K line)
    (hissue : ∀ name, issue ≠ .redefinition name) (a : α) :
    (do report issue line; return a : Report α).Finds K :=
  (report_finds hline hissue).bind fun _ => finds_pure a

end Report

open Report

/-! ## Rules -/

section
variable {K : Nat → Prop} {line : Nat} (hline : K line)
include hline

theorem need_finds {r : Report Typing} (h : r.Finds K) : (Typing.need line r).Finds K := by
  refine h.bind fun typing => ?_
  cases typing with
  | known type => exact finds_pure _
  | unknown => exact finds_pure _
  | void => exact reports_find hline (by simp) _

theorem vectorType_finds (elements : List ArrayType) : (vectorType elements line).Finds K := by
  cases elements with
  | nil => exact finds_pure _
  | cons first others => exact .ite (finds_pure _) (reports_find hline (by simp) _)

theorem add_finds (s : RowsSummary) (elements : Option (List ArrayType)) :
    (s.add elements line).Finds K := by
  cases elements with
  | none => exact finds_pure _
  | some types =>
    exact .ite (.ite (finds_pure _) (reports_find hline (by simp) _)) (reports_find hline (by simp) _)

theorem productType_finds (left right : ArrayType) : (productType left right line).Finds K := by
  refine .ite ?_ (reports_find hline (by simp) _)
  split
  · exact .ite (finds_pure _) (reports_find hline (by simp) _)
  · exact finds_pure _

theorem type_finds (op : BinaryOp) (left right : ArrayType) : (op.type left right line).Finds K := by
  cases op with
  | add | sub | dotAdd | dotSub | dotMul | dotDiv | equal | notEqual =>
    exact .ite (finds_pure _) (reports_find hline (by simp) _)
  | mul => exact productType_finds hline left right
  | div | greater | greaterEqual | less | lessEqual | and | or | xor =>
    simp only [BinaryOp.type]
    split
    · exact reports_find hline (by simp) _
    · exact finds_pure _
  | range | subscript => exact finds_pure _

theorem elementType_finds (table : Table) (array : String) (indexed : Bool) :
    (elementType table array indexed line).Finds K := by
  unfold elementType
  split
  · exact finds_pure _
  · exact reports_find hline (by simp) _

theorem checkStore_finds (place : String) (expected found : ArrayType) :
    (checkStore place expected found line).Finds K :=
  .ite (finds_pure _) (report_finds hline (by simp))

end

theorem sizeIssue_ne_redefinition (function : Sized) (arguments : List Expr) (name : String) :
    sizeIssue function arguments ≠ .redefinition name := by
  unfold sizeIssue
  split <;> simp

/-! ## Expressions -/

section
variable {K : Nat → Prop} (table : Table)

theorem operation_finds {op : BinaryOp} (hop : op ≠ .range ∧ op ≠ .subscript) {left right : Expr}
    {line : Nat} (hline : K line) (hleft : (left.checkValue table).Finds K)
    (hright : (right.checkValue table).Finds K) :
    ((Expr.binary op left right line).check table).Finds K := by
  rw [check_operation hop]
  refine hleft.bind fun leftType? => hright.bind fun rightType? => ?_
  split
  · exact (type_finds hline op _ _).bind fun _ => finds_pure _
  · exact finds_pure _

mutual

theorem check_finds : ∀ {e : Expr}, (∀ k ∈ e.lines, K k) → (e.check table).Finds K
  | .int _ _, _ => finds_pure _
  | .real _ _, _ => finds_pure _
  | .str _ _, _ => finds_pure _
  | .name spelling line, h => by
    rw [Expr.lines, List.forall_mem_singleton] at h
    rw [Expr.check]
    split
    · exact finds_pure _
    · exact reports_find h (by simp) _
  | .vector ⟨elements, line⟩, h => by
    rw [Expr.lines, List.forall_mem_cons] at h
    rw [Expr.check]
    refine (checkAll_finds h.2).bind fun types? => ?_
    split
    · exact vectorType_finds h.1 _
    · exact finds_pure _
  | .matrix rows line, h => by
    rw [Expr.lines, List.forall_mem_cons] at h
    rw [Expr.check]
    exact (checkRows_finds h.2 .start).bind fun _ => finds_pure _
  | .call .print arguments line, h => by
    rw [Expr.lines, List.forall_mem_cons] at h
    rw [Expr.check]
    exact (checkAll_finds h.2).bind fun _ => finds_pure _
  | .call (.sized function) arguments line, h => by
    rw [Expr.lines, List.forall_mem_cons] at h
    rw [Expr.check]
    split
    · exact finds_pure _
    · exact (checkAll_finds h.2).bind fun _ =>
        reports_find h.1 (sizeIssue_ne_redefinition function arguments) _
  | .binary op left right line, h => by
    rw [Expr.lines, List.forall_mem_cons, List.forall_mem_append] at h
    obtain ⟨hline, hleft, hright⟩ := h
    have left_finds := need_finds (hleft _ left.line_mem_lines) (check_finds hleft)
    have right_finds := need_finds (hright _ right.line_mem_lines) (check_finds hright)
    have operation := fun hop : op ≠ .range ∧ op ≠ .subscript =>
      operation_finds table hop hline left_finds right_finds
    cases op with
    | subscript =>
      unfold Expr.check
      dsimp only
      split
      · rw [Expr.lines, List.forall_mem_cons] at hright
        exact (checkAll_finds hright.2).bind fun _ =>
          (elementType_finds hline table _ _).bind fun _ => finds_pure _
      · exact left_finds.bind fun _ => reports_find hline (by simp) _
    | range =>
      exact left_finds.bind fun _ => right_finds.bind fun _ => reports_find hline (by simp) _
    | _ => exact operation (by simp)
  | .unary op operand line, h => by
    rw [Expr.lines, List.forall_mem_cons] at h
    rw [Expr.check]
    refine (need_finds (h.2 _ operand.line_mem_lines) (check_finds h.2)).bind fun type? => ?_
    cases type? with
    | none => exact finds_pure _
    | some type => cases op <;> exact finds_pure _

theorem checkAll_finds : ∀ {es : List Expr}, (∀ k ∈ allLines es, K k) → (checkAll table es).Finds K
  | [], _ => finds_pure _
  | e :: es, h => by
    rw [allLines, List.forall_mem_append] at h
    rw [checkAll]
    exact (need_finds (h.1 _ e.line_mem_lines) (check_finds h.1)).bind fun _ =>
      (checkAll_finds h.2).bind fun _ => finds_pure _

theorem checkRows_finds : ∀ {rows : List Row}, (∀ k ∈ rowsLines rows, K k) →
    ∀ summary : RowsSummary, (checkRows table rows summary).Finds K
  | [], _, _ => finds_pure _
  | ⟨elements, line⟩ :: rows, h, summary => by
    rw [rowsLines, List.forall_mem_cons, List.forall_mem_append] at h
    rw [checkRows]
    exact (checkAll_finds h.2.1).bind fun types =>
      (add_finds h.1 summary types).bind fun _ => checkRows_finds h.2.2 _

end

theorem checkValue_finds {e : Expr} (h : ∀ k ∈ e.lines, K k) : (e.checkValue table).Finds K :=
  need_finds (h _ e.line_mem_lines) (check_finds table h)

/-! ## Statements -/

/-- Where no frame has the name, the innermost one has not. -/
theorem defineName_finds {name : String} (h : table.lookup? name = none) (type : ArrayType)
    (line : Nat) : (defineName table name type line).Finds K := by
  rw [defineName_extends h]
  exact finds_pure _

theorem checkAssignment_finds {target : Target} {value : Expr} {line : Nat} (hline : K line)
    (htarget : ∀ k ∈ target.lines, K k) (hvalue : ∀ k ∈ value.lines, K k) (op : AssignOp) :
    (checkAssignment table target op value line).Finds K := by
  refine (checkValue_finds table hvalue).bind fun new => ?_
  cases target with
  | invalid e => exact reports_find (htarget _ e.line_mem_lines) (by simp) _
  | name spelling l =>
    dsimp only
    split
    · exact (checkStore_finds hline _ _ _).bind fun _ => finds_pure _
    · exact finds_pure _
    · rename_i hunseen
      refine .ite ?_ (reports_find hline (by simp) _)
      split
      · exact defineName_finds table hunseen _ _
      · exact finds_pure _
  | element array indices l =>
    rw [Target.lines, List.forall_mem_cons, List.forall_mem_cons] at htarget
    obtain ⟨hl, -, hindices⟩ := htarget
    refine (checkAll_finds table hindices).bind fun types =>
      (elementType_finds hl table array types.isSome).bind fun element? => ?_
    split
    · exact (checkStore_finds hl _ _ _).bind fun _ => finds_pure _
    · exact finds_pure _

theorem checkBound_finds {bound : Expr} {line : Nat} (hline : K line)
    (h : ∀ k ∈ bound.lines, K k) : (checkBound table bound line).Finds K := by
  refine (checkValue_finds table h).bind fun type? => ?_
  split
  · exact .ite (finds_pure _) (report_finds hline (by simp))
  · exact finds_pure _

theorem checkHeader_finds {header : Expr} {line : Nat} (hline : K line)
    (h : ∀ k ∈ header.lines, K k) : (checkHeader table header line).Finds K := by
  unfold checkHeader
  split
  · rw [Expr.lines, List.forall_mem_cons, List.forall_mem_append] at h
    exact (checkBound_finds table h.1 h.2.1).bind fun _ => checkBound_finds table h.1 h.2.2
  · exact (check_finds table h).bind fun _ => report_finds hline (by simp)

end

theorem inCheckedFrame_finds {K : Nat → Prop} (table : Table) (kind : FrameKind)
    {body : Table → Report Table} (h : (body (table.push kind)).Finds K) :
    (inCheckedFrame table kind body).Finds K :=
  h.bind fun _ => finds_pure _

section
variable {K : Nat → Prop}

mutual

theorem stmt_check_finds : ∀ {s : Stmt}, (∀ k ∈ s.lines, K k) → ∀ table : Table, (s.check table).Finds K
  | .block body, h, table => by
    rw [Stmt.lines] at h
    exact checkStmts_finds h table
  | .expr e line, h, table => by
    rw [Stmt.lines, List.forall_mem_cons] at h
    exact (check_finds table h.2).bind fun _ => finds_pure _
  | .assign target op value line, h, table => by
    rw [Stmt.lines, List.forall_mem_cons, List.forall_mem_append] at h
    exact checkAssignment_finds table h.1 h.2.1 h.2.2 op
  | .ifElse condition body none line, h, table => by
    rw [Stmt.lines, List.forall_mem_cons, List.forall_mem_append] at h
    exact (checkValue_finds table h.2.1).bind fun _ =>
      (inCheckedFrame_finds table .branch (checkStmts_finds h.2.2 _)).bind fun _ => finds_pure _
  | .ifElse condition body (some other) line, h, table => by
    rw [Stmt.lines, List.forall_mem_cons, List.forall_mem_append, List.forall_mem_append] at h
    obtain ⟨-, hcondition, hbody, hother⟩ := h
    exact (checkValue_finds table hcondition).bind fun _ =>
      (inCheckedFrame_finds table .branch (checkStmts_finds hbody _)).bind fun table =>
        inCheckedFrame_finds table .branch (checkStmts_finds hother _)
  | .whileLoop condition body line, h, table => by
    rw [Stmt.lines, List.forall_mem_cons, List.forall_mem_append] at h
    exact (checkValue_finds table h.2.1).bind fun _ =>
      inCheckedFrame_finds table .whileLoop (checkStmts_finds h.2.2 _)
  | .forLoop iterator range body line, h, table => by
    rw [Stmt.lines, List.forall_mem_cons, List.forall_mem_append] at h
    refine (checkHeader_finds table h.1 h.2.1).bind fun _ =>
      inCheckedFrame_finds table .forLoop ?_
    -- The frame of the loop is new, so the iterator is too, whatever it shadows.
    rw [define_iterator]
    exact (finds_pure _).bind fun table => checkStmts_finds h.2.2 table
  | .ret value line, h, table => by
    rw [Stmt.lines, List.forall_mem_cons] at h
    exact (checkValue_finds table h.2).bind fun _ => finds_pure _
  | .jump jump line, h, _ => by
    rw [Stmt.lines, List.forall_mem_singleton] at h
    exact .ite (finds_pure _) (reports_find h (by simp) _)

theorem checkStmts_finds : ∀ {body : List Stmt}, (∀ k ∈ stmtsLines body, K k) →
    ∀ table : Table, (checkStmts body table).Finds K
  | [], _, _ => finds_pure _
  | s :: rest, h, table => by
    rw [stmtsLines, List.forall_mem_append] at h
    exact (stmt_check_finds h.1 table).bind fun table => checkStmts_finds h.2 table

end

end

/-! ## Checkers -/

theorem Scope.Extends.frames_kinds {α : Type} {s t : Scope α} (h : s.Extends t) :
    t.frames.map Frame.kind = s.frames.map Frame.kind := by
  rw [frames, frames, h.outer, List.reverse_cons, List.reverse_cons, List.map_append, List.map_append,
    List.map_singleton, List.map_singleton, h.kind]

/-- **Checkers only grow.** Whatever statements a checker is given, one or more, it has the
same frames open after them. The frames around the innermost are as they were, and the
innermost keeps its bindings. The diagnostics so far stay in front, and those that are
added report no redefinition. An expression leaves the table as it is.

That diagnostics are only added, and that expressions are checked in a table which they
cannot change, the types of `Checker.check` and `Expr.check` give already. -/
theorem checker_grows (c : Checker) (p : List Stmt) :
    (c.check p).table.frames.map Frame.kind = c.table.frames.map Frame.kind ∧
    (c.check p).table.outer = c.table.outer ∧
    (∀ name type, c.table.inner.find? name = some type →
      (c.check p).table.inner.find? name = some type) ∧
    (∃ found, (c.check p).diagnostics = c.diagnostics ++ found ∧
      ∀ d ∈ found, ∀ name, d.issue ≠ .redefinition name) ∧
    ∀ e line, c.check [.expr e line] = ⟨c.table, c.diagnostics ++ (e.check c.table).diagnostics⟩ ∧
      ∀ d ∈ (e.check c.table).diagnostics, ∀ name, d.issue ≠ .redefinition name := by
  have hextends : c.table.Extends (c.check p).table := checkStmts_extends p c.table
  have hfinds : (checkStmts p c.table).Finds fun _ => True :=
    checkStmts_finds (fun _ _ => trivial) c.table
  refine ⟨hextends.frames_kinds, hextends.outer, hextends.keeps,
    ⟨_, rfl, fun d hd => (hfinds d hd).2⟩, fun e line => ⟨?_, ?_⟩⟩
  · show Checker.mk _ (c.diagnostics ++ ((_ ++ []) ++ [])) = _
    rw [List.append_nil, List.append_nil]
    rfl
  · have hfinds : (e.check c.table).Finds fun _ => True := check_finds c.table fun _ _ => trivial
    exact fun d hd => (hfinds d hd).2

end MatrixScript
