import MatrixScript.Proofs.Growth
import MatrixScript.Proofs.TypingRules

/-!
# Diagnostics

Checking never fails in silence, and an operator is not blamed for its operands:
where an expression has no type something was reported, and an operation adds at
most one diagnostic to those of its operands, none if they have any. Both rest on
the types in the table having an axis each, which checking a statement keeps
(`check_stored`).
-/

namespace MatrixScript

/-! ## Stored types -/

def Table.StoresShaped (table : Table) : Prop :=
  ∀ frame ∈ table.frames, ∀ entry ∈ frame.bindings, entry.2.shape ≠ []

theorem Bindings.mem_of_find? {α : Type} {name : String} {value : α} {b : Bindings α}
    (h : b.find? name = some value) : (name, value) ∈ b := by
  induction b with
  | nil => cases h
  | cons entry rest ih =>
    obtain ⟨key, old⟩ := entry
    rw [Bindings.find?] at h
    by_cases hk : key = name
    · rw [if_pos hk] at h
      cases h
      rw [hk]
      exact List.mem_cons_self
    · rw [if_neg hk] at h
      exact List.mem_cons_of_mem _ (ih h)

theorem Bindings.mem_insert {α : Type} {name : String} {value : α} {b : Bindings α}
    {entry : String × α} (h : entry ∈ b.insert name value) : entry = (name, value) ∨ entry ∈ b := by
  induction b with
  | nil => exact .inl (List.mem_singleton.mp h)
  | cons first rest ih =>
    obtain ⟨key, old⟩ := first
    rw [Bindings.insert] at h
    split at h
    · rcases List.mem_cons.mp h with h | h
      · exact .inl h
      · exact .inr (List.mem_cons_of_mem _ h)
    · split at h
      · exact List.mem_cons.mp h
      · rcases List.mem_cons.mp h with h | h
        · exact .inr (h ▸ List.mem_cons_self)
        · exact (ih h).imp_right (List.mem_cons_of_mem _)

namespace Table.StoresShaped

variable {table : Table}

theorem fresh : Table.StoresShaped .fresh := by
  intro frame hf entry he
  rw [List.mem_singleton.mp hf] at he
  cases he

/-- A name that is seen is stored in some frame. -/
theorem shaped (h : table.StoresShaped) : table.Shaped := by
  intro name type hn
  obtain ⟨frame, hf, hfind⟩ := List.exists_of_findSome?_eq_some hn
  exact h frame (List.mem_reverse.mpr hf) (name, type) (Bindings.mem_of_find? hfind)

theorem bind (h : table.StoresShaped) {name : String} {type : ArrayType} (ht : type.shape ≠ []) :
    Table.StoresShaped (table.bind name type) := by
  intro frame hf entry he
  rcases List.mem_cons.mp (List.mem_reverse.mp hf) with rfl | hf
  · rcases Bindings.mem_insert he with rfl | he
    · exact ht
    · exact h table.inner (by simp [Scope.frames]) entry he
  · exact h frame (by simp [Scope.frames, show frame ∈ table.outer from hf]) entry he

end Table.StoresShaped

/-! ## Expressions -/

section
variable {table : Table} {e : Expr}

theorem Checked.known_clean {r : Report Typing} (h : Checked table e r) {type : ArrayType}
    (hr : r.result = .known type) : r.diagnostics = [] ∧ type.shape ≠ [] := by
  cases h with
  | known hs _ =>
    cases hr
    exact ⟨rfl, hs⟩
  | unknown _ => cases hr
  | void _ _ => cases hr

theorem Checked.unknown_reports {r : Report Typing} (h : Checked table e r)
    (hr : r.result = .unknown) : r.diagnostics ≠ [] := by
  cases h with
  | known _ _ => cases hr
  | unknown hd => exact hd
  | void _ _ => cases hr

theorem Reports.none_iff {α : Type} {ok : α → Prop} {r : Report (Option α)} (h : Reports ok r) :
    r.result = none ↔ r.diagnostics ≠ [] := by
  cases h with
  | found _ => simp
  | failed hd => simp [hd]

theorem checkValue_reports (hs : table.Shaped) (e : Expr) :
    Reports (fun type => type.shape ≠ [] ∧ HasType table e type) (e.checkValue table) :=
  (check_rules hs e).need e.line

end

/-! ## Operators -/

theorem productType_diagnostics (left right : ArrayType) (line : Nat) :
    (productType left right line).diagnostics.length ≤ 1 := by
  unfold productType
  split
  · split
    · split <;> simp
    · simp
  · simp

/-- An operator reports one issue at most. -/
theorem type_diagnostics (op : BinaryOp) (left right : ArrayType) (line : Nat) :
    (op.type left right line).diagnostics.length ≤ 1 := by
  cases op with
  | mul => exact productType_diagnostics left right line
  | range | subscript => exact Nat.zero_le 1
  | _ =>
    rw [BinaryOp.type]
    split <;> simp

def operatorDiagnostics (table : Table) (op : BinaryOp) (left right : Expr) (line : Nat) :
    List Diagnostic :=
  match (left.checkValue table).result, (right.checkValue table).result with
  | some leftType, some rightType => (op.type leftType rightType line).diagnostics
  | _, _ => []

theorem operation_diagnostics {op : BinaryOp} (hs : op ≠ .subscript) (hr : op ≠ .range)
    (table : Table) (left right : Expr) (line : Nat) :
    ((Expr.binary op left right line).check table).diagnostics =
      (left.checkValue table).diagnostics ++ (right.checkValue table).diagnostics ++
        operatorDiagnostics table op left right line := by
  have unfolded := check_operation ⟨hr, hs⟩ table left right line
  rw [unfolded, operatorDiagnostics, Report.diagnostics_bind, Report.diagnostics_bind,
    List.append_assoc]
  congr 2
  cases (left.checkValue table).result with
  | none => rfl
  | some leftType =>
    cases (right.checkValue table).result with
    | none => rfl
    | some rightType => simp

/-! ## Statements -/

theorem checkAssignment_stored {table : Table} (h : table.StoresShaped) (target : Target)
    (op : AssignOp) (value : Expr) (line : Nat) :
    Table.StoresShaped (checkAssignment table target op value line).result := by
  have hvalue := checkValue_reports h.shaped value
  unfold checkAssignment
  rw [Report.result_bind]
  cases target with
  | invalid e => exact h
  | element array indices l =>
    rw [Report.result_bind, Report.result_bind]
    split <;> exact h
  | name spelling l =>
    dsimp only
    split
    · exact h
    · exact h
    · rename_i hn
      split
      · split
        · rename_i new hnew
          obtain ⟨_, ⟨hshape, -⟩, hr⟩ | ⟨_, -, hr⟩ := hvalue.eq
          · rw [hr] at hnew
            cases hnew
            rw [defineName_extends hn]
            exact h.bind hshape
          · rw [hr] at hnew
            cases hnew
        · exact h
      · exact h

mutual

/-- Checking a statement stores types with an axis only. -/
theorem check_stored : ∀ (s : Stmt) {table : Table}, table.StoresShaped →
    Table.StoresShaped (s.check table).result
  | .block body, _, h => checkStmts_stored body h
  | .expr _ _, _, h => h
  | .assign target op value line, _, h => checkAssignment_stored h target op value line
  | .ifElse condition body none line, table, h => by
    have hb := checkStmts_extends body
    rw [(check_branch hb hb condition line table).1]
    exact h
  | .ifElse condition body (some other) line, table, h => by
    rw [(check_branch (checkStmts_extends body) (checkStmts_extends other) condition line table).2]
    exact h
  | .whileLoop condition body line, table, h => by
    have hb := inCheckedFrame_result (checkStmts_extends body) table .whileLoop
    unfold Stmt.check
    rw [Report.result_bind, hb]
    exact h
  | .forLoop iterator range body line, _, h => by
    rw [check_for (checkStmts_extends body)]
    exact h
  | .ret _ _, _, h => h
  | .jump jump line, table, h => by
    unfold Stmt.check
    split <;> exact h

theorem checkStmts_stored : ∀ (body : List Stmt) {table : Table}, table.StoresShaped →
    Table.StoresShaped (checkStmts body table).result
  | [], _, h => h
  | s :: rest, _, h => checkStmts_stored rest (check_stored s h)

end

/-! ## No silent failure -/

/-- **No silent failure.** While all types in the table have an axis, which holds at
first and after every statement, a known type comes without diagnostics, an unknown
one with some, and a value is missing exactly if something was reported. An
operation reports what its operands report and then one issue of its own at most,
and none if they report any. -/
theorem check_never_silent :
    Checker.fresh.table.StoresShaped ∧
    (∀ (s : Stmt) (table : Table), table.StoresShaped →
      Table.StoresShaped (s.check table).result) ∧
    ∀ table : Table, table.StoresShaped →
      (∀ e : Expr,
        (∀ type, (e.check table).result = .known type →
          (e.check table).diagnostics = [] ∧ type.shape ≠ []) ∧
        ((e.check table).result = .unknown → (e.check table).diagnostics ≠ []) ∧
        ((e.checkValue table).result = none ↔ (e.checkValue table).diagnostics ≠ [])) ∧
      ∀ (op : BinaryOp) (left right : Expr) (line : Nat), op ≠ .subscript → op ≠ .range →
        ∃ own : List Diagnostic,
          ((Expr.binary op left right line).check table).diagnostics =
            (left.checkValue table).diagnostics ++ (right.checkValue table).diagnostics ++ own ∧
          own.length ≤ 1 ∧
          (own ≠ [] → (left.checkValue table).diagnostics = [] ∧
            (right.checkValue table).diagnostics = []) := by
  refine ⟨.fresh, fun s _ h => check_stored s h, fun table h => ⟨fun e => ?_, ?_⟩⟩
  · have hchecked := check_rules h.shaped e
    exact ⟨fun type hr => hchecked.known_clean hr, hchecked.unknown_reports,
      (checkValue_reports h.shaped e).none_iff⟩
  · intro op left right line hs hr
    refine ⟨_, operation_diagnostics hs hr table left right line, ?_, ?_⟩
    · unfold operatorDiagnostics
      split
      · exact type_diagnostics op _ _ line
      · exact Nat.zero_le 1
    · -- The operator is judged only if both operands have a type.
      unfold operatorDiagnostics
      split
      · rename_i leftType rightType hl hr
        intro _
        have hleft := (checkValue_reports h.shaped left).none_iff.not
        have hright := (checkValue_reports h.shaped right).none_iff.not
        rw [hl] at hleft
        rw [hr] at hright
        exact ⟨by simpa using hleft, by simpa using hright⟩
      · exact fun hne => absurd rfl hne

def vectorTable : Table := Scope.fresh.bind "x" ⟨.int, [2, 1]⟩

/-- In `(x + 1) * y` the sum is misfit and `y` unknown; the product says nothing. -/
theorem vectorTable_reports :
    vectorTable.StoresShaped ∧
    (Expr.binary .add (.name "x" 1) (.int 1 1) 1).check vectorTable =
      ⟨.unknown, [⟨.mismatchedOperands .add ⟨.int, [2, 1]⟩ (.scalar .int), 1⟩]⟩ ∧
    ∃ own : List Diagnostic,
      ((Expr.binary .mul (.binary .add (.name "x" 1) (.int 1 1) 1) (.name "y" 1) 1).check
        vectorTable).diagnostics =
          [⟨.mismatchedOperands .add ⟨.int, [2, 1]⟩ (.scalar .int), 1⟩] ++
            [⟨.unknownIdentifier "y", 1⟩] ++ own ∧
      own.length ≤ 1 ∧ own = [] := by
  have hstored : vectorTable.StoresShaped := Table.StoresShaped.fresh.bind (by simp)
  obtain ⟨own, hadded, hone, hnone⟩ := (check_never_silent.2.2 vectorTable hstored).2 .mul
    (.binary .add (.name "x" 1) (.int 1 1) 1) (.name "y" 1) 1 (by decide) (by decide)
  refine ⟨hstored, rfl, own, hadded, hone, ?_⟩
  by_contra hne
  cases (hnone hne).1

end MatrixScript
