import MatrixScript.Proofs.SpelledTrees
import Mathlib.Data.List.Forall2

/-!
# Rendering trees

`tokens` writes a tree down with parentheses around every operand and braces
around every body. A spellable tree derives from its tokens, all of them on line
zero (`stmtsTokens_derive`), so the programs that are read from tokens are just the
spellable ones (`parseProgram_image`).
-/

namespace MatrixScript

/-! ## Tokens of trees -/

def mark (symbol : Symbol) : Located := ⟨.symbol symbol, 0⟩

def reserved (keyword : Keyword) : Located := ⟨.keyword keyword, 0⟩

def enclosed (opening closing : Symbol) (ts : List Located) : List Located :=
  mark opening :: (ts ++ [mark closing])

def inParens : List Located → List Located := enclosed .leftParen .rightParen

def inBrackets : List Located → List Located := enclosed .leftBracket .rightBracket

def inBraces : List Located → List Located := enclosed .leftBrace .rightBrace

def separated (separator : Symbol) : List (List Located) → List Located
  | [] => []
  | [ts] => ts
  | ts :: tss => ts ++ mark separator :: separated separator tss

def BinaryOp.token : BinaryOp → Token
  | range => .symbol .colon
  | and => .keyword .and
  | or => .keyword .or
  | xor => .keyword .xor
  | equal => .symbol .equal
  | notEqual => .symbol .notEqual
  | greater => .symbol .greater
  | greaterEqual => .symbol .greaterEqual
  | less => .symbol .less
  | lessEqual => .symbol .lessEqual
  | add => .symbol .plus
  | sub => .symbol .minus
  | dotAdd => .symbol .dotPlus
  | dotSub => .symbol .dotMinus
  | mul => .symbol .times
  | div => .symbol .divide
  | dotMul => .symbol .dotTimes
  | dotDiv => .symbol .dotDivide
  | subscript => .symbol .leftBracket

def AssignOp.symbol : AssignOp → Symbol
  | set => .assign
  | add => .addAssign
  | sub => .subAssign
  | mul => .mulAssign
  | div => .divAssign

def Sized.keyword : Sized → Keyword
  | eye => .eye
  | zeros => .zeros
  | ones => .ones

def Builtin.keyword : Builtin → Keyword
  | print => .print
  | sized function => function.keyword

mutual

/-- Tokens for an expression. The list of indices of a subscript is written like a
vector; rows are written between semicolons if they can be, else each in brackets. -/
def Expr.tokens : Expr → List Located
  | .int value _ => [⟨.int value, 0⟩]
  | .real value _ => [⟨.real value, 0⟩]
  | .str literal _ => [⟨.str literal, 0⟩]
  | .name spelling _ => [⟨.name spelling, 0⟩]
  | .vector ⟨elements, _⟩ => inBrackets (separated .comma (allTokens elements))
  | .matrix rows _ =>
    let written := (rowsTokens rows).map (separated .comma)
    inBrackets (if bySemicolons rows then separated .semicolon written
      else separated .comma (written.map inBrackets))
  | .call function arguments _ =>
    reserved function.keyword :: inParens (separated .comma (allTokens arguments))
  | .binary op left right _ =>
    inParens left.tokens ++
      if op = .subscript then right.tokens else ⟨op.token, 0⟩ :: inParens right.tokens
  | .unary .negate operand _ => mark .minus :: inParens operand.tokens
  | .unary .transpose operand _ => inParens operand.tokens ++ [mark .transpose]

def allTokens : List Expr → List (List Located)
  | [] => []
  | e :: es => e.tokens :: allTokens es

def rowsTokens : List Row → List (List (List Located))
  | [] => []
  | ⟨elements, _⟩ :: rows => allTokens elements :: rowsTokens rows

end

def Target.expr : Target → Expr
  | .name spelling line => .name spelling line
  | .element array indices line => .binary .subscript (.name array line) (.vector indices) line
  | .invalid e => e

mutual

def Stmt.tokens : Stmt → List Located
  | .block body => inBraces (stmtsTokens body)
  | .expr e _ => e.tokens ++ [mark .semicolon]
  | .assign target op value _ =>
    target.expr.tokens ++ mark op.symbol :: (value.tokens ++ [mark .semicolon])
  | .ifElse condition body none _ =>
    reserved .ifKw :: mark .leftParen ::
      (condition.tokens ++ mark .rightParen :: inBraces (stmtsTokens body))
  | .ifElse condition body (some other) _ =>
    reserved .ifKw :: mark .leftParen :: (condition.tokens ++ mark .rightParen ::
      (inBraces (stmtsTokens body) ++ reserved .elseKw :: inBraces (stmtsTokens other)))
  | .whileLoop condition body _ =>
    reserved .whileKw :: mark .leftParen ::
      (condition.tokens ++ mark .rightParen :: inBraces (stmtsTokens body))
  | .forLoop iterator range body _ =>
    reserved .forKw :: mark .leftParen :: ⟨.name iterator, 0⟩ :: mark .assign ::
      (range.tokens ++ mark .rightParen :: inBraces (stmtsTokens body))
  | .ret value _ => reserved .returnKw :: (value.tokens ++ [mark .semicolon])
  | .jump .exit _ => [reserved .breakKw, mark .semicolon]
  | .jump .next _ => [reserved .continueKw, mark .semicolon]

def stmtsTokens : List Stmt → List Located
  | [] => []
  | s :: rest => s.tokens ++ stmtsTokens rest

end

/-! ## Expressions -/

theorem operand_derives {ts : List Located} {e : Expr} (h : Derives .range ts e) (level : Level) :
    Derives level (inParens ts) e := (Derives.paren h).loosen (by cases level <;> decide)

theorem derivesItems_separated : ∀ {tss : List (List Located)} {es : List Expr},
    List.Forall₂ (Derives .range) tss es → es ≠ [] → DerivesItems (separated .comma tss) es
  | _, _, .nil, hne => absurd rfl hne
  | _, _, .cons h .nil, _ => .last h
  | _, _, .cons h (.cons h' hs), _ => .comma h (derivesItems_separated (.cons h' hs) (by simp))

theorem derivesRows_separated : ∀ {tss : List (List Located)} {rows : List (List Expr)},
    List.Forall₂ DerivesItems tss rows → rows ≠ [] → DerivesRows (separated .semicolon tss) rows
  | _, _, .nil, hne => absurd rfl hne
  | _, _, .cons h .nil, _ => .last h
  | _, _, .cons h (.cons h' hs), _ => .semicolon h (derivesRows_separated (.cons h' hs) (by simp))

theorem vector_derives {tss : List (List Located)} {es : List Expr}
    (h : List.Forall₂ (Derives .range) tss es) (ha : standsAlone es = true) :
    Derives .primary (inBrackets (separated .comma tss)) (.vector ⟨es, 0⟩) := by
  by_cases hne : es = []
  · subst hne
    cases h
    exact .emptyVector
  · refine .vector (derivesItems_separated h hne) ?_
    simpa [standsAlone, hne] using ha

theorem semicolons_derive {tsss : List (List (List Located))} {rows : List (List Expr)}
    (h : List.Forall₂ (List.Forall₂ (Derives .range)) tsss rows) (hlen : 2 ≤ rows.length)
    (hne : ∀ row ∈ rows, row ≠ []) :
    Derives .primary (inBrackets (separated .semicolon (tsss.map (separated .comma))))
      (.matrix (rows.map (Row.mk · 0)) 0) := by
  have items : List.Forall₂ DerivesItems (tsss.map (separated .comma)) rows := by
    clear hlen
    induction h with
    | nil => exact .nil
    | cons hrow _ ih =>
      rw [List.forall_mem_cons] at hne
      exact .cons (derivesItems_separated hrow hne.1) (ih hne.2)
  exact .matrix (derivesRows_separated items (List.ne_nil_of_length_pos (by omega))) hlen

theorem rows_derive {tsss : List (List (List Located))} {rows : List (List Expr)}
    (h : List.Forall₂ (List.Forall₂ (Derives .range)) tsss rows) (hne : rows ≠ [])
    (ha : ∀ row ∈ rows, standsAlone row = true) :
    Derives .primary (inBrackets (separated .comma ((tsss.map (separated .comma)).map inBrackets)))
      (.matrix (rows.map (Row.mk · 0)) 0) := by
  have vectors : List.Forall₂ (Derives .range) ((tsss.map (separated .comma)).map inBrackets)
      ((rows.map (Row.mk · 0)).map .vector) := by
    clear hne
    induction h with
    | nil => exact .nil
    | cons hrow _ ih =>
      rw [List.forall_mem_cons] at ha
      exact .cons (derives_range (vector_derives hrow ha.1)) (ih ha.2)
  exact .vectors (derivesItems_separated vectors (by simpa using hne))

theorem matrix_derives {rows : List Row} (hne : rows ≠ [])
    (hread : bySemicolons rows = true ∨ ∀ row ∈ rows, standsAlone row.elements = true)
    (h : List.Forall₂ (List.Forall₂ (Derives .range)) (rowsTokens rows)
      (rows.map fun row => allUnlined row.elements)) (line : Nat) :
    Derives .primary (Expr.matrix rows line).tokens (Expr.matrix rows line).unlined := by
  rw [Expr.tokens, Expr.unlined, rowsUnlined_eq]
  by_cases hs : bySemicolons rows = true
  · rw [if_pos hs]
    simp only [bySemicolons, Bool.and_eq_true, decide_eq_true_eq, List.all_eq_true,
      Bool.not_eq_true', List.isEmpty_eq_false_iff] at hs
    refine semicolons_derive h (by rw [List.length_map]; exact hs.1) ?_
    intro row hrow
    obtain ⟨found, hm, rfl⟩ := List.mem_map.mp hrow
    simpa [allUnlined_eq] using hs.2 found hm
  · rw [if_neg hs]
    refine rows_derive h (by simpa using hne) ?_
    intro row hrow
    obtain ⟨found, hm, rfl⟩ := List.mem_map.mp hrow
    rw [standsAlone_unlined]
    exact hread.resolve_left hs found hm

theorem operator_derives {op : BinaryOp} (hop : op ≠ .subscript) {left right : List Located}
    {a b : Expr} (hl : Derives .range left a) (hr : Derives .range right b) :
    Derives .range (inParens left ++ ⟨op.token, 0⟩ :: inParens right) (.binary op a b 0) := by
  have chain : ∀ level tighter : Level, level.tighter? = some tighter →
      (op.token, op) ∈ level.operators →
      Derives .range (inParens left ++ ⟨op.token, 0⟩ :: inParens right) (.binary op a b 0) :=
    fun level tighter ht hm =>
      derives_range (.operation hm ht (operand_derives hl level) (operand_derives hr tighter))
  cases op with
  | range => exact .bounds (operand_derives hl _) (operand_derives hr _)
  | and | or | xor =>
    exact chain .logical .relational rfl (by simp [Level.operators, BinaryOp.token])
  | equal | notEqual | greater | greaterEqual | less | lessEqual =>
    exact chain .relational .additive rfl (by simp [Level.operators, BinaryOp.token])
  | add | sub | dotAdd | dotSub =>
    exact chain .additive .multiplicative rfl (by simp [Level.operators, BinaryOp.token])
  | mul | div | dotMul | dotDiv =>
    exact chain .multiplicative .unary rfl (by simp [Level.operators, BinaryOp.token])
  | subscript => exact absurd rfl hop

theorem call_derives {function : Builtin} {tss : List (List Located)} {es : List Expr}
    (h : List.Forall₂ (Derives .range) tss es) (hone : function ≠ .print → es.length = 1) :
    Derives .primary (reserved function.keyword :: inParens (separated .comma tss))
      (.call function es 0) := by
  cases function with
  | print =>
    by_cases hne : es = []
    · subst hne
      cases h
      exact .printNothing
    · exact .print (derivesItems_separated h hne)
  | sized function =>
    obtain ⟨e, rfl⟩ := List.length_eq_one_iff.mp (hone (by simp))
    cases h with
    | cons he hnil =>
      cases hnil
      exact .sized (by cases function <;> simp [Builtin.keyword, Sized.keyword]) he

mutual

theorem tokens_derive : ∀ e : Expr, e.spellable = true → Derives .range e.tokens e.unlined
  | .int _ _, _ => derives_range .int
  | .real _ _, _ => derives_range .real
  | .str _ _, _ => derives_range .str
  | .name _ _, _ => derives_range .name
  | .vector ⟨elements, _⟩, h => by
    rw [Expr.spellable, Bool.and_eq_true] at h
    refine derives_range (vector_derives (allTokens_derive elements h.2) ?_)
    rw [standsAlone_unlined]
    exact h.1
  | .matrix rows line, h => by
    obtain ⟨hne, hread, -⟩ := spellable_matrix.mp h
    rw [Expr.spellable, Bool.and_eq_true] at h
    exact derives_range (matrix_derives hne hread (rowsTokens_derive rows h.2) line)
  | .call .print arguments _, h =>
    derives_range (call_derives (allTokens_derive arguments h) fun hne => absurd rfl hne)
  | .call (.sized _) arguments _, h => by
    rw [Expr.spellable, Bool.and_eq_true, beq_iff_eq] at h
    refine derives_range (call_derives (allTokens_derive arguments h.2) fun _ => ?_)
    rw [allUnlined_eq, List.length_map]
    exact h.1
  | .binary op left right line, h => by
    by_cases hop : op = .subscript
    · subst hop
      cases right with
      | vector row =>
        obtain ⟨indices, indicesLine⟩ := row
        simp only [Expr.spellable, Bool.and_eq_true, Bool.not_eq_true',
          List.isEmpty_eq_false_iff] at h
        have hitems := derivesItems_separated (allTokens_derive indices h.2.2)
          (by simpa [allUnlined_eq] using h.2.1)
        exact derives_range (.subscript (operand_derives (tokens_derive left h.1) .suffixed) hitems)
      | _ => simp [Expr.spellable] at h
    · rw [spellable_binary hop, Bool.and_eq_true] at h
      rw [Expr.tokens, if_neg hop]
      exact operator_derives hop (tokens_derive left h.1) (tokens_derive right h.2)
  | .unary .negate operand _, h =>
    derives_range (.negate (operand_derives (tokens_derive operand h) .unary))
  | .unary .transpose operand _, h =>
    derives_range (.transpose (operand_derives (tokens_derive operand h) .suffixed))

theorem allTokens_derive : ∀ es : List Expr, allSpellable es = true →
    List.Forall₂ (Derives .range) (allTokens es) (allUnlined es)
  | [], _ => .nil
  | e :: es, h => by
    rw [allSpellable, Bool.and_eq_true] at h
    exact .cons (tokens_derive e h.1) (allTokens_derive es h.2)

theorem rowsTokens_derive : ∀ rows : List Row, rowsSpellable rows = true →
    List.Forall₂ (List.Forall₂ (Derives .range)) (rowsTokens rows)
      (rows.map fun row => allUnlined row.elements)
  | [], _ => .nil
  | ⟨elements, _⟩ :: rows, h => by
    rw [rowsSpellable, Bool.and_eq_true] at h
    exact .cons (allTokens_derive elements h.1) (rowsTokens_derive rows h.2)

end

/-! ## Statements -/

theorem symbol_mem_assignments (op : AssignOp) : (op.symbol, op) ∈ assignments := by
  cases op <;> simp [AssignOp.symbol, assignments]

theorem target_expr_spellable {target : Target} (h : target.spellable = true) :
    target.expr.spellable = true := by
  cases target with
  | name _ _ => rfl
  | element _ indices _ =>
    cases indices
    simpa [Target.expr, Expr.spellable, Target.spellable, Row.elements] using h
  | invalid e =>
    rw [Target.spellable, Bool.and_eq_true] at h
    exact h.2

theorem targetOf_expr {target : Target} (h : target.spellable = true) :
    Target.Of target.expr.unlined target.unlined := by
  cases target with
  | name _ _ => exact .name
  | element _ indices _ =>
    rw [Target.expr, Expr.unlined, unlined_vector]
    exact .element
  | invalid e =>
    rw [Target.spellable, Bool.and_eq_true, Bool.not_eq_true', ← isPlace_unlined] at h
    refine .invalid (fun spelling line he => ?_) fun array arrayLine indices line he => ?_
    · rw [Target.expr] at he
      rw [he] at h
      cases h.1
    · rw [Target.expr] at he
      rw [he] at h
      cases h.1

/-- No statement starts with `else`, so one may stand after a branch. -/
theorem braces_derive {ts : List Located} {body : List Stmt}
    (h : ∀ rest, ¬ Starts (· = .keyword .elseKw) rest → DerivesStmts ts body rest)
    (rest : List Located) : DerivesStmt (inBraces ts) (.block body) rest :=
  .block (h _ (by simp [Starts]))

mutual

-- What follows a body in braces does not matter inside: it ends at its brace.
theorem stmt_tokens_derive : ∀ s : Stmt, s.spellable = true → ∀ rest : List Located,
    ¬ Starts (· = .keyword .elseKw) rest → DerivesStmt s.tokens s.unlined rest
  | .block body, h, rest, _ => braces_derive (stmtsTokens_derive body h) rest
  | .expr e _, h, rest, _ => by
    have hs : DerivesStmt (e.tokens ++ [mark .semicolon]) (.expr e.unlined e.unlined.line) rest :=
      .expr (tokens_derive e h)
    rwa [line_unlined] at hs
  | .assign target op value _, h, _, _ => by
    rw [Stmt.spellable, Bool.and_eq_true] at h
    exact .assign (tokens_derive _ (target_expr_spellable h.1)) (targetOf_expr h.1)
      (symbol_mem_assignments op) (tokens_derive value h.2)
  | .ifElse condition body none _, h, rest, hrest => by
    rw [Stmt.spellable, Bool.and_eq_true] at h
    have hbody := braces_derive (stmtsTokens_derive body h.2) rest
    exact .ifThen (tokens_derive condition h.1) (.braces hbody) hrest
  | .ifElse condition body (some other) _, h, rest, _ => by
    rw [Stmt.spellable, Bool.and_eq_true, Bool.and_eq_true] at h
    have hbody := braces_derive (stmtsTokens_derive body h.1.2)
    have hother := braces_derive (stmtsTokens_derive other h.2) rest
    exact .ifElse (tokens_derive condition h.1.1) (.braces (hbody _)) (.braces hother)
  | .whileLoop condition body _, h, rest, _ => by
    rw [Stmt.spellable, Bool.and_eq_true] at h
    have hbody := braces_derive (stmtsTokens_derive body h.2) rest
    exact .whileLoop (tokens_derive condition h.1) (.braces hbody)
  | .forLoop iterator range body _, h, rest, _ => by
    rw [Stmt.spellable, Bool.and_eq_true] at h
    have hbody := braces_derive (stmtsTokens_derive body h.2) rest
    exact .forLoop (tokens_derive range h.1) (.braces hbody)
  | .ret value _, h, _, _ => .ret (tokens_derive value h)
  | .jump .exit _, _, _, _ => .exit
  | .jump .next _, _, _, _ => .next

theorem stmtsTokens_derive : ∀ body : List Stmt, stmtsSpellable body = true →
    ∀ rest : List Located, ¬ Starts (· = .keyword .elseKw) rest →
      DerivesStmts (stmtsTokens body) (stmtsUnlined body) rest
  | [], _, _, _ => .nil
  | s :: body, h, rest, hrest => by
    rw [stmtsSpellable, Bool.and_eq_true] at h
    have hbody := stmtsTokens_derive body h.2 rest hrest
    exact .cons (stmt_tokens_derive s h.1 _ (derivesStmts_not_else hbody hrest)) hbody

end

/-! ## Programs -/

theorem parseProgram_stmtsTokens {p : Program} (h : stmtsSpellable p = true) :
    parseProgram (stmtsTokens p) = .ok (stmtsUnlined p) :=
  parseProgram_eq_ok.mpr (stmtsTokens_derive p h [] fun hstarts => hstarts)

theorem parseProgram_spellable {ts : List Located} {p : Program} (h : parseProgram ts = .ok p) :
    stmtsSpellable p = true := derivesStmts_spellable (parseProgram_eq_ok.mp h)

/-- **Image of the parser.** Lines apart, the programs read from tokens are exactly
the spellable ones, and each of these is read back from its own tokens. -/
theorem parseProgram_image :
    (∀ p : Program, stmtsSpellable p = true ↔
      ∃ ts q, parseProgram ts = .ok q ∧ stmtsUnlined q = stmtsUnlined p) ∧
    ∀ p : Program, stmtsSpellable p = true →
      parseProgram (stmtsTokens p) = .ok (stmtsUnlined p) := by
  refine ⟨fun p => ⟨fun h => ?_, ?_⟩, fun p h => parseProgram_stmtsTokens h⟩
  · exact ⟨stmtsTokens p, stmtsUnlined p, parseProgram_stmtsTokens h, stmtsUnlined_unlined p⟩
  · rintro ⟨ts, q, hq, hp⟩
    rw [← stmtsSpellable_unlined, ← hp, stmtsSpellable_unlined]
    exact parseProgram_spellable hq

/-- `a[[1], [2]] = [[], [x, [3]]]; if (-x' : 2) { [[4], [5]; [6]]; }` -/
def nestedBrackets : Program :=
  [.assign (.element "a" ⟨[.vector ⟨[.int 1 1], 1⟩, .vector ⟨[.int 2 1], 1⟩], 1⟩ 1) .set
      (.matrix [⟨[], 1⟩, ⟨[.name "x" 1, .vector ⟨[.int 3 1], 1⟩], 1⟩] 1) 1,
    .ifElse (.binary .range (.unary .negate (.unary .transpose (.name "x" 2) 2) 2) (.int 2 2) 2)
      [.expr (.matrix [⟨[.vector ⟨[.int 4 2], 2⟩, .vector ⟨[.int 5 2], 2⟩], 2⟩,
        ⟨[.vector ⟨[.int 6 2], 2⟩], 2⟩] 2) 2] none 2]

def vectorOfVector : Program := [.expr (.vector ⟨[.vector ⟨[], 1⟩], 1⟩) 1]

theorem nestedBrackets_read : stmtsSpellable nestedBrackets = true ∧
    parseProgram (stmtsTokens nestedBrackets) = .ok (stmtsUnlined nestedBrackets) ∧
    ¬ ∃ ts q, parseProgram ts = .ok q ∧ stmtsUnlined q = stmtsUnlined vectorOfVector := by
  have hbrackets : stmtsSpellable nestedBrackets = true := by decide
  refine ⟨hbrackets, parseProgram_image.2 nestedBrackets hbrackets, fun hread => ?_⟩
  have hspellable := (parseProgram_image.1 vectorOfVector).mpr hread
  revert hspellable
  decide

end MatrixScript
