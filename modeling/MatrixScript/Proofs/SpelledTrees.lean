import MatrixScript.Proofs.StatementReading

/-!
# Trees that tokens spell

Not every tree is read from tokens. Brackets around vectors alone become a matrix,
so a vector keeps at least one element of another kind, unless it is empty or a
list of indices; a matrix read without semicolons has only such rows. `spellable`
puts these conditions on every node of a tree. Whatever a derivation yields is
spellable (`derivesStmts_spellable`), and the lines of the nodes play no part in it
(`stmtsSpellable_unlined`).
-/

namespace MatrixScript

/-! ## Conditions on trees -/

/-- Elements that become a vector, and no matrix, in brackets. -/
def standsAlone (elements : List Expr) : Bool :=
  elements.isEmpty || elements.any (·.row?.isNone)

def bySemicolons (rows : List Row) : Bool :=
  decide (2 ≤ rows.length) && rows.all (!·.elements.isEmpty)

def Expr.isPlace : Expr → Bool
  | .name _ _ => true
  | .binary .subscript (.name _ _) (.vector _) _ => true
  | _ => false

mutual

def Expr.spellable : Expr → Bool
  | .int _ _ => true
  | .real _ _ => true
  | .str _ _ => true
  | .name _ _ => true
  | .vector ⟨elements, _⟩ => standsAlone elements && allSpellable elements
  | .matrix rows _ =>
    !rows.isEmpty && (bySemicolons rows || rows.all (standsAlone ·.elements)) && rowsSpellable rows
  | .call .print arguments _ => allSpellable arguments
  | .call (.sized _) arguments _ => arguments.length == 1 && allSpellable arguments
  | .binary op left right _ =>
    left.spellable &&
      match op, right with
      | .subscript, .vector ⟨indices, _⟩ => !indices.isEmpty && allSpellable indices
      | .subscript, _ => false
      | _, right => right.spellable
  | .unary _ operand _ => operand.spellable

def allSpellable : List Expr → Bool
  | [] => true
  | e :: es => e.spellable && allSpellable es

def rowsSpellable : List Row → Bool
  | [] => true
  | ⟨elements, _⟩ :: rows => allSpellable elements && rowsSpellable rows

end

def Target.spellable : Target → Bool
  | .name _ _ => true
  | .element _ indices _ => !indices.elements.isEmpty && allSpellable indices.elements
  | .invalid e => !e.isPlace && e.spellable

mutual

def Stmt.spellable : Stmt → Bool
  | .block body => stmtsSpellable body
  | .expr e _ => e.spellable
  | .assign target _ value _ => target.spellable && value.spellable
  | .ifElse condition body none _ => condition.spellable && stmtsSpellable body
  | .ifElse condition body (some other) _ =>
    condition.spellable && stmtsSpellable body && stmtsSpellable other
  | .whileLoop condition body _ => condition.spellable && stmtsSpellable body
  | .forLoop _ range body _ => range.spellable && stmtsSpellable body
  | .ret value _ => value.spellable
  | .jump _ _ => true

def stmtsSpellable : List Stmt → Bool
  | [] => true
  | s :: rest => s.spellable && stmtsSpellable rest

end

theorem spellable_binary {op : BinaryOp} (h : op ≠ .subscript) (left right : Expr) (line : Nat) :
    (Expr.binary op left right line).spellable = (left.spellable && right.spellable) := by
  rw [Expr.spellable]
  · exact h
  · exact fun _ _ hop => absurd hop h

theorem allSpellable_iff : ∀ {es : List Expr}, allSpellable es = true ↔ ∀ e ∈ es, e.spellable = true
  | [] => by simp [allSpellable]
  | e :: es => by rw [allSpellable, Bool.and_eq_true, allSpellable_iff, List.forall_mem_cons]

theorem rowsSpellable_iff :
    ∀ {rows : List Row}, rowsSpellable rows = true ↔ ∀ row ∈ rows, allSpellable row.elements = true
  | [] => by simp [rowsSpellable]
  | ⟨elements, _⟩ :: rows => by
    rw [rowsSpellable, Bool.and_eq_true, rowsSpellable_iff, List.forall_mem_cons]
    rfl

theorem spellable_vector (row : Row) : (Expr.vector row).spellable =
    (standsAlone row.elements && allSpellable row.elements) := by
  cases row
  rfl

theorem spellable_matrix {rows : List Row} {line : Nat} :
    (Expr.matrix rows line).spellable = true ↔ rows ≠ [] ∧
      (bySemicolons rows = true ∨ ∀ row ∈ rows, standsAlone row.elements = true) ∧
      ∀ row ∈ rows, allSpellable row.elements = true := by
  simp only [Expr.spellable, Bool.and_eq_true, Bool.or_eq_true, Bool.not_eq_true',
    List.isEmpty_eq_false_iff, List.all_eq_true, rowsSpellable_iff, and_assoc, ne_eq]

/-! ## Derived trees -/

theorem spellable_of_vectors {rows : List Row} (hne : rows.map Expr.vector ≠ [])
    (h : allSpellable (rows.map .vector) = true) (line : Nat) :
    (Expr.matrix rows line).spellable = true := by
  have hrows : ∀ row ∈ rows,
      standsAlone row.elements = true ∧ allSpellable row.elements = true := by
    intro row hrow
    have hvector := allSpellable_iff.mp h _ (List.mem_map_of_mem hrow)
    rwa [spellable_vector, Bool.and_eq_true] at hvector
  refine spellable_matrix.mpr ⟨by simpa using hne, .inr fun row hrow => (hrows row hrow).1, ?_⟩
  exact fun row hrow => (hrows row hrow).2

theorem spellable_of_rows {rows : List (List Expr)} (hlen : 2 ≤ rows.length)
    (h : ∀ row ∈ rows, row ≠ [] ∧ allSpellable row = true) (line : Nat) :
    (Expr.matrix (rows.map (Row.mk · line)) line).spellable = true := by
  have hne : rows ≠ [] := List.ne_nil_of_length_pos (by omega)
  have hsemicolons : bySemicolons (rows.map (Row.mk · line)) = true := by
    simp only [bySemicolons, List.length_map, hlen, decide_true, Bool.true_and, List.all_map,
      List.all_eq_true]
    intro row hrow
    simpa [Row.elements] using (h row hrow).1
  refine spellable_matrix.mpr ⟨by simpa using hne, .inl hsemicolons, ?_⟩
  intro row hrow
  obtain ⟨elements, hm, rfl⟩ := List.mem_map.mp hrow
  exact (h elements hm).2

theorem Level.ne_subscript {level : Level} {token : Token} {op : BinaryOp}
    (h : (token, op) ∈ level.operators) : op ≠ .subscript := by
  rintro rfl
  cases level <;> simp [operators] at h

mutual

theorem derives_spellable {level : Level} {ts : List Located} {e : Expr} (h : Derives level ts e) :
    e.spellable = true := by
  match h with
  | .tighten _ hd => exact derives_spellable hd
  | .bounds hl hr =>
    rw [spellable_binary (by simp), derives_spellable hl, derives_spellable hr]
    rfl
  | .operation hm _ hl hr =>
    rw [spellable_binary (Level.ne_subscript hm), derives_spellable hl, derives_spellable hr]
    rfl
  | .negate hd => exact (derives_spellable hd :)
  | .transpose hd => exact (derives_spellable hd :)
  | .subscript hd hi =>
    have hitems := derivesItems_spellable hi
    simp [Expr.spellable, derives_spellable hd, hitems.1, hitems.2]
  | .int => rfl
  | .real => rfl
  | .str => rfl
  | .name => rfl
  | .paren hd => exact derives_spellable hd
  | .emptyVector => rfl
  | .vector hi hne =>
    have hitems := derivesItems_spellable hi
    simp [Expr.spellable, standsAlone, hitems.2, hne]
  | .vectors hi =>
    have hitems := derivesItems_spellable hi
    exact spellable_of_vectors hitems.1 hitems.2 _
  | .matrix hrows hlen => exact spellable_of_rows hlen (derivesRows_spellable hrows) _
  | .printNothing => rfl
  | .print hi => exact (derivesItems_spellable hi).2
  | .sized _ hd => simp [Expr.spellable, allSpellable, derives_spellable hd]

theorem derivesItems_spellable {ts : List Located} {es : List Expr} (h : DerivesItems ts es) :
    es ≠ [] ∧ allSpellable es = true := by
  match h with
  | .last hd => simp [allSpellable, derives_spellable hd]
  | .comma hd hi => simp [allSpellable, derives_spellable hd, (derivesItems_spellable hi).2]

theorem derivesRows_spellable {ts : List Located} {rows : List (List Expr)}
    (h : DerivesRows ts rows) : ∀ row ∈ rows, row ≠ [] ∧ allSpellable row = true := by
  match h with
  | .last hi => exact List.forall_mem_singleton.mpr (derivesItems_spellable hi)
  | .semicolon hi hr =>
    exact List.forall_mem_cons.mpr ⟨derivesItems_spellable hi, derivesRows_spellable hr⟩

end

theorem targetOf_spellable {left : Expr} {target : Target} (h : Target.Of left target)
    (hs : left.spellable = true) : target.spellable = true := by
  cases h with
  | name => rfl
  | element =>
    rename_i indices _
    cases indices
    simpa [Expr.spellable, Target.spellable, Row.elements] using hs
  | invalid hname helement =>
    have hplace : left.isPlace = false := by
      unfold Expr.isPlace
      split
      · exact absurd rfl (hname _ _)
      · exact absurd rfl (helement _ _ _ _)
      · rfl
    simp [Target.spellable, hplace, hs]

mutual

theorem derivesStmt_spellable {ts rest : List Located} {s : Stmt} (h : DerivesStmt ts s rest) :
    s.spellable = true := by
  match h with
  | .block hs => exact derivesStmts_spellable hs
  | .ifThen hc hb _ => simp [Stmt.spellable, derives_spellable hc, derivesBody_spellable hb]
  | .ifElse hc hb ho =>
    simp [Stmt.spellable, derives_spellable hc, derivesBody_spellable hb, derivesBody_spellable ho]
  | .whileLoop hc hb => simp [Stmt.spellable, derives_spellable hc, derivesBody_spellable hb]
  | .forLoop hr hb => simp [Stmt.spellable, derives_spellable hr, derivesBody_spellable hb]
  | .exit => rfl
  | .next => rfl
  | .ret hd => exact derives_spellable hd
  | .assign hl ht _ hv =>
    simp [Stmt.spellable, targetOf_spellable ht (derives_spellable hl), derives_spellable hv]
  | .expr hd => exact derives_spellable hd

theorem derivesBody_spellable {ts rest : List Located} {body : List Stmt}
    (h : DerivesBody ts body rest) : stmtsSpellable body = true := by
  match h with
  | .braces hs => exact derivesStmt_spellable hs
  | .single hs _ => simp [stmtsSpellable, derivesStmt_spellable hs]

theorem derivesStmts_spellable {ts rest : List Located} {body : List Stmt}
    (h : DerivesStmts ts body rest) : stmtsSpellable body = true := by
  match h with
  | .nil => rfl
  | .cons hs hb => simp [stmtsSpellable, derivesStmt_spellable hs, derivesStmts_spellable hb]

end

/-! ## Lines -/

mutual

def Expr.unlined : Expr → Expr
  | .int value _ => .int value 0
  | .real value _ => .real value 0
  | .str literal _ => .str literal 0
  | .name spelling _ => .name spelling 0
  | .vector ⟨elements, _⟩ => .vector ⟨allUnlined elements, 0⟩
  | .matrix rows _ => .matrix (rowsUnlined rows) 0
  | .call function arguments _ => .call function (allUnlined arguments) 0
  | .binary op left right _ => .binary op left.unlined right.unlined 0
  | .unary op operand _ => .unary op operand.unlined 0

def allUnlined : List Expr → List Expr
  | [] => []
  | e :: es => e.unlined :: allUnlined es

def rowsUnlined : List Row → List Row
  | [] => []
  | ⟨elements, _⟩ :: rows => ⟨allUnlined elements, 0⟩ :: rowsUnlined rows

end

def Target.unlined : Target → Target
  | .name spelling _ => .name spelling 0
  | .element array indices _ => .element array ⟨allUnlined indices.elements, 0⟩ 0
  | .invalid e => .invalid e.unlined

mutual

def Stmt.unlined : Stmt → Stmt
  | .block body => .block (stmtsUnlined body)
  | .expr e _ => .expr e.unlined 0
  | .assign target op value _ => .assign target.unlined op value.unlined 0
  | .ifElse condition body none _ => .ifElse condition.unlined (stmtsUnlined body) none 0
  | .ifElse condition body (some other) _ =>
    .ifElse condition.unlined (stmtsUnlined body) (some (stmtsUnlined other)) 0
  | .whileLoop condition body _ => .whileLoop condition.unlined (stmtsUnlined body) 0
  | .forLoop iterator range body _ => .forLoop iterator range.unlined (stmtsUnlined body) 0
  | .ret value _ => .ret value.unlined 0
  | .jump jump _ => .jump jump 0

def stmtsUnlined : List Stmt → List Stmt
  | [] => []
  | s :: rest => s.unlined :: stmtsUnlined rest

end

theorem allUnlined_eq : ∀ es : List Expr, allUnlined es = es.map Expr.unlined
  | [] => rfl
  | e :: es => by rw [allUnlined, allUnlined_eq es, List.map_cons]

theorem rowsUnlined_eq : ∀ rows : List Row,
    rowsUnlined rows = (rows.map fun row => allUnlined row.elements).map (Row.mk · 0)
  | [] => rfl
  | ⟨elements, _⟩ :: rows => by
    rw [rowsUnlined, rowsUnlined_eq rows, List.map_cons, List.map_cons]
    rfl

mutual

theorem unlined_unlined : ∀ e : Expr, e.unlined.unlined = e.unlined
  | .int _ _ => rfl
  | .real _ _ => rfl
  | .str _ _ => rfl
  | .name _ _ => rfl
  | .vector ⟨elements, _⟩ => by simp only [Expr.unlined, allUnlined_unlined elements]
  | .matrix rows _ => by simp only [Expr.unlined, rowsUnlined_unlined rows]
  | .call _ arguments _ => by simp only [Expr.unlined, allUnlined_unlined arguments]
  | .binary _ left right _ => by
    simp only [Expr.unlined, unlined_unlined left, unlined_unlined right]
  | .unary _ operand _ => by simp only [Expr.unlined, unlined_unlined operand]

theorem allUnlined_unlined : ∀ es : List Expr, allUnlined (allUnlined es) = allUnlined es
  | [] => rfl
  | e :: es => by simp only [allUnlined, unlined_unlined e, allUnlined_unlined es]

theorem rowsUnlined_unlined : ∀ rows : List Row, rowsUnlined (rowsUnlined rows) = rowsUnlined rows
  | [] => rfl
  | ⟨elements, _⟩ :: rows => by
    simp only [rowsUnlined, allUnlined_unlined elements, rowsUnlined_unlined rows]

end

theorem target_unlined_unlined (target : Target) : target.unlined.unlined = target.unlined := by
  cases target with
  | name _ _ => rfl
  | element _ _ _ => simp only [Target.unlined, Row.elements, allUnlined_unlined]
  | invalid _ => simp only [Target.unlined, unlined_unlined]

mutual

theorem stmt_unlined_unlined : ∀ s : Stmt, s.unlined.unlined = s.unlined
  | .block body => by simp only [Stmt.unlined, stmtsUnlined_unlined body]
  | .expr _ _ => by simp only [Stmt.unlined, unlined_unlined]
  | .assign _ _ _ _ => by simp only [Stmt.unlined, target_unlined_unlined, unlined_unlined]
  | .ifElse _ body none _ => by
    simp only [Stmt.unlined, unlined_unlined, stmtsUnlined_unlined body]
  | .ifElse _ body (some other) _ => by
    simp only [Stmt.unlined, unlined_unlined, stmtsUnlined_unlined body, stmtsUnlined_unlined other]
  | .whileLoop _ body _ => by simp only [Stmt.unlined, unlined_unlined, stmtsUnlined_unlined body]
  | .forLoop _ _ body _ => by simp only [Stmt.unlined, unlined_unlined, stmtsUnlined_unlined body]
  | .ret _ _ => by simp only [Stmt.unlined, unlined_unlined]
  | .jump _ _ => rfl

theorem stmtsUnlined_unlined :
    ∀ body : List Stmt, stmtsUnlined (stmtsUnlined body) = stmtsUnlined body
  | [] => rfl
  | s :: rest => by simp only [stmtsUnlined, stmt_unlined_unlined s, stmtsUnlined_unlined rest]

end

theorem unlined_vector (row : Row) :
    (Expr.vector row).unlined = .vector ⟨allUnlined row.elements, 0⟩ := by
  cases row
  rfl

theorem line_unlined (e : Expr) : e.unlined.line = 0 := by
  cases e with
  | vector row => cases row; rfl
  | _ => rfl

@[simp] theorem row?_unlined_isNone (e : Expr) : e.unlined.row?.isNone = e.row?.isNone := by
  cases e with
  | vector row => rw [unlined_vector]; rfl
  | _ => rfl

@[simp] theorem standsAlone_unlined (es : List Expr) :
    standsAlone (allUnlined es) = standsAlone es := by
  simp [standsAlone, allUnlined_eq, Function.comp_def]

@[simp] theorem isEmpty_allUnlined (es : List Expr) : (allUnlined es).isEmpty = es.isEmpty := by
  simp [allUnlined_eq]

theorem isEmpty_rowsUnlined (rows : List Row) : (rowsUnlined rows).isEmpty = rows.isEmpty := by
  simp [rowsUnlined_eq]

theorem bySemicolons_unlined (rows : List Row) :
    bySemicolons (rowsUnlined rows) = bySemicolons rows := by
  simp [bySemicolons, rowsUnlined_eq, Function.comp_def, Row.elements]

@[simp] theorem isPlace_unlined (e : Expr) : e.unlined.isPlace = e.isPlace := by
  cases e with
  | binary op left right line =>
    cases op with
    | subscript =>
      cases left with
      | vector row => cases row; rfl
      | name _ _ =>
        cases right with
        | vector row => rw [Expr.unlined, unlined_vector]; rfl
        | _ => rfl
      | _ => rfl
    | _ => rfl
  | vector row => cases row; rfl
  | _ => rfl

mutual

theorem spellable_unlined : ∀ e : Expr, e.unlined.spellable = e.spellable
  | .int _ _ => rfl
  | .real _ _ => rfl
  | .str _ _ => rfl
  | .name _ _ => rfl
  | .vector ⟨elements, _⟩ => by
    simp [Expr.unlined, Expr.spellable, allSpellable_unlined elements]
  | .matrix rows _ => by
    have halone : (rowsUnlined rows).all (standsAlone ·.elements) =
        rows.all (standsAlone ·.elements) := by
      simp [rowsUnlined_eq, Function.comp_def, Row.elements]
    rw [Expr.unlined, Expr.spellable, Expr.spellable, rowsSpellable_unlined rows, halone,
      bySemicolons_unlined, isEmpty_rowsUnlined]
  | .call .print arguments _ => allSpellable_unlined arguments
  | .call (.sized _) arguments _ => by
    simp [Expr.unlined, Expr.spellable, allUnlined_eq, ← allSpellable_unlined arguments]
  | .binary op left right line => by
    by_cases hop : op = .subscript
    · subst hop
      cases right with
      | vector row =>
        obtain ⟨indices, _⟩ := row
        simp [Expr.unlined, Expr.spellable, spellable_unlined left, allSpellable_unlined indices]
      | _ => simp [Expr.unlined, Expr.spellable]
    · rw [Expr.unlined, spellable_binary hop, spellable_binary hop, spellable_unlined left,
        spellable_unlined right]
  | .unary _ operand _ => spellable_unlined operand

theorem allSpellable_unlined : ∀ es : List Expr, allSpellable (allUnlined es) = allSpellable es
  | [] => rfl
  | e :: es => by
    rw [allUnlined, allSpellable, allSpellable, spellable_unlined e, allSpellable_unlined es]

theorem rowsSpellable_unlined :
    ∀ rows : List Row, rowsSpellable (rowsUnlined rows) = rowsSpellable rows
  | [] => rfl
  | ⟨elements, _⟩ :: rows => by
    rw [rowsUnlined, rowsSpellable, rowsSpellable, allSpellable_unlined elements,
      rowsSpellable_unlined rows]

end

theorem target_spellable_unlined (target : Target) :
    target.unlined.spellable = target.spellable := by
  cases target with
  | name _ _ => rfl
  | element _ indices _ =>
    simp [Target.unlined, Target.spellable, Row.elements, allSpellable_unlined]
  | invalid e => simp [Target.unlined, Target.spellable, spellable_unlined]

mutual

theorem stmt_spellable_unlined : ∀ s : Stmt, s.unlined.spellable = s.spellable
  | .block body => stmtsSpellable_unlined body
  | .expr e _ => spellable_unlined e
  | .assign target _ value _ => by
    simp [Stmt.unlined, Stmt.spellable, target_spellable_unlined, spellable_unlined]
  | .ifElse condition body none _ => by
    simp [Stmt.unlined, Stmt.spellable, spellable_unlined, stmtsSpellable_unlined body]
  | .ifElse condition body (some other) _ => by
    simp [Stmt.unlined, Stmt.spellable, spellable_unlined, stmtsSpellable_unlined body,
      stmtsSpellable_unlined other]
  | .whileLoop condition body _ => by
    simp [Stmt.unlined, Stmt.spellable, spellable_unlined, stmtsSpellable_unlined body]
  | .forLoop _ range body _ => by
    simp [Stmt.unlined, Stmt.spellable, spellable_unlined, stmtsSpellable_unlined body]
  | .ret value _ => spellable_unlined value
  | .jump _ _ => rfl

theorem stmtsSpellable_unlined :
    ∀ body : List Stmt, stmtsSpellable (stmtsUnlined body) = stmtsSpellable body
  | [] => rfl
  | s :: rest => by
    rw [stmtsUnlined, stmtsSpellable, stmtsSpellable, stmt_spellable_unlined s,
      stmtsSpellable_unlined rest]

end

end MatrixScript
