import MatrixScript.Proofs.SpelledTrees

/-!
# Reading without lines

Tokens carry lines into trees and errors, but no parser looks at them. To read tokens
without their lines is to read the tokens and to erase the lines from what comes of it
(`parseProgram_unlined`).
-/

namespace MatrixScript

/-! ## Erasing from computations -/

section
variable {ε σ α β : Type}

structure Erasure (ε σ : Type) where
  error : ε → ε
  state : σ → σ

namespace Erasure

variable {E : Erasure ε σ} {f : α → α}

def result (E : Erasure ε σ) (f : α → α) : EStateM.Result ε σ α → EStateM.Result ε σ α
  | .ok a s => .ok (f a) (E.state s)
  | .error e s => .error (E.error e) (E.state s)

/-- On erased states the second computation comes to what the first comes to, erased. -/
def Commutes (E : Erasure ε σ) (f : α → α) (x x' : EStateM ε σ α) : Prop :=
  ∀ s, x' (E.state s) = E.result f (x s)

theorem commutes_pure {a : α} : E.Commutes f (pure a) (pure (f a)) := fun _ => rfl

theorem commutes_pure_of {a a' : α} (h : f a = a') : E.Commutes f (pure a) (pure a') :=
  h ▸ commutes_pure

theorem commutes_throw {e : ε} : E.Commutes f (throw e : EStateM ε σ α) (throw (E.error e)) :=
  fun _ => rfl

theorem Commutes.bind {g : β → β} {x x' : EStateM ε σ α} {next next' : α → EStateM ε σ β}
    (hx : E.Commutes f x x') (hnext : ∀ a, E.Commutes g (next a) (next' (f a))) :
    E.Commutes g (x >>= next) (x' >>= next') := by
  intro s
  show EStateM.bind x' next' (E.state s) = E.result g (EStateM.bind x next s)
  unfold EStateM.bind
  rw [hx s]
  cases x s with
  | ok a t => exact hnext a t
  | error e t => rfl

theorem Commutes.ite {c : Prop} [Decidable c] {x x' y y' : EStateM ε σ α} (hx : E.Commutes f x x')
    (hy : E.Commutes f y y') : E.Commutes f (if c then x else y) (if c then x' else y') := by
  by_cases hc : c
  · rwa [if_pos hc, if_pos hc]
  · rwa [if_neg hc, if_neg hc]

end Erasure

end

/-! ## Tokens -/

def Located.unlined (found : Located) : Located := { found with line := 0 }

def SyntaxError.unlined : SyntaxError → SyntaxError
  | unexpectedToken found => unexpectedToken found.unlined
  | endOfInput => endOfInput

namespace Parser

open Erasure

def erasure : Erasure SyntaxError (List Located) := ⟨SyntaxError.unlined, List.map Located.unlined⟩

theorem peek?_erased : erasure.Commutes (Option.map Located.unlined) peek? peek? := by
  intro ts
  cases ts <;> rfl

theorem next_erased : erasure.Commutes Located.unlined next next := by
  intro ts
  cases ts <;> rfl

theorem skip_erased : erasure.Commutes id skip skip := by
  intro ts
  cases ts <;> rfl

theorem expect_erased (symbol : Symbol) : erasure.Commutes id (expect symbol) (expect symbol) :=
  next_erased.bind fun _ => .ite commutes_pure commutes_throw

theorem identifier_erased : erasure.Commutes id identifier identifier := by
  refine next_erased.bind fun ⟨token, line⟩ => ?_
  cases token with
  | name spelling => exact commutes_pure
  | _ => exact commutes_throw

section
variable {α : Type} {f : α → α}

theorem closes_erased (closing : Symbol) {x x' y y' : Parser α} (hx : erasure.Commutes f x x')
    (hy : erasure.Commutes f y y') : erasure.Commutes f
      (do if (← peek?).any (·.token = .symbol closing) then x else y)
      (do if (← peek?).any (·.token = .symbol closing) then x' else y') := by
  refine peek?_erased.bind fun found? => ?_
  cases found? with
  | none => exact .ite hx hy
  | some found => exact .ite hx hy

variable {item : Parser α} (hitem : erasure.Commutes f item item)
include hitem

theorem itemsUntil_erased (closing : Symbol) :
    ∀ b, erasure.Commutes (List.map f) (itemsUntil closing item b) (itemsUntil closing item b)
  | 0 => commutes_throw
  | b + 1 => hitem.bind fun _ => next_erased.bind fun _ =>
      .ite ((itemsUntil_erased closing b).bind fun _ => commutes_pure)
        (.ite commutes_pure commutes_throw)

theorem listUntil_erased (closing : Symbol) (b : Nat) :
    erasure.Commutes (List.map f) (listUntil closing item b) (listUntil closing item b) :=
  closes_erased closing (skip_erased.bind fun _ => commutes_pure)
    (itemsUntil_erased hitem closing b)

end

end Parser

/-! ## Expressions -/

theorem mapM_row?_unlined (es : List Expr) :
    (es.map Expr.unlined).mapM Expr.row? = (es.mapM Expr.row?).map rowsUnlined := by
  induction es with
  | nil => rfl
  | cons e es ih =>
    rw [List.map_cons, List.mapM_cons, List.mapM_cons, ih]
    cases e with
    | vector row =>
      rw [unlined_vector]
      cases es.mapM Expr.row? with
      | none => rfl
      | some rows =>
        cases row
        rfl
    | _ => rfl

theorem ofBracket_unlined (row : List Expr) (rows : List (List Expr)) (line : Nat) :
    (Expr.ofBracket row rows line).unlined =
      .ofBracket (row.map Expr.unlined) (rows.map (List.map Expr.unlined)) 0 := by
  unfold Expr.ofBracket
  cases rows with
  | nil =>
    rw [mapM_row?_unlined]
    cases row.mapM Expr.row? with
    | none => simp [Expr.unlined, allUnlined_eq]
    | some vectors => rfl
  | cons second rows =>
    simp [Expr.unlined, rowsUnlined_eq, allUnlined_eq, Row.elements, Function.comp_def]

namespace Parser

open Erasure

section
variable {expression : Parser Expr} (hexp : erasure.Commutes Expr.unlined expression expression)
include hexp

theorem rows_erased : ∀ b, erasure.Commutes
    (Prod.map (List.map Expr.unlined) (List.map (List.map Expr.unlined)))
    (rows expression b) (rows expression b)
  | 0 => commutes_throw
  | b + 1 => by
    refine hexp.bind fun first => next_erased.bind fun ⟨token, line⟩ => ?_
    cases token with
    | symbol s =>
      cases s with
      | comma => exact (rows_erased b).bind fun _ => commutes_pure
      | semicolon => exact (rows_erased b).bind fun _ => commutes_pure
      | rightBracket => exact commutes_pure
      | _ => exact commutes_throw
    | _ => exact commutes_throw

theorem bracket_erased (b line : Nat) :
    erasure.Commutes Expr.unlined (bracket expression b line) (bracket expression b 0) :=
  closes_erased .rightBracket (skip_erased.bind fun _ => commutes_pure)
    ((rows_erased hexp b).bind fun (row, later) => commutes_pure_of (ofBracket_unlined row later line))

theorem sizedCall_erased (function : Sized) (line : Nat) : erasure.Commutes Expr.unlined
    (sizedCall expression function line) (sizedCall expression function 0) :=
  (expect_erased .leftParen).bind fun _ => hexp.bind fun _ => (expect_erased .rightParen).bind fun _ =>
    commutes_pure

theorem primary_erased (b : Nat) :
    erasure.Commutes Expr.unlined (primary expression b) (primary expression b) := by
  refine next_erased.bind fun ⟨token, line⟩ => ?_
  cases token with
  | int value => exact commutes_pure
  | real value => exact commutes_pure
  | str literal => exact commutes_pure
  | name spelling => exact commutes_pure
  | symbol s =>
    cases s with
    | leftParen => exact hexp.bind fun _ => (expect_erased .rightParen).bind fun _ => commutes_pure
    | leftBracket => exact bracket_erased hexp b line
    | _ => exact commutes_throw
  | keyword k =>
    cases k with
    | print =>
      refine (expect_erased .leftParen).bind fun _ => (listUntil_erased hexp .rightParen b).bind
        fun arguments => commutes_pure_of ?_
      rw [Expr.unlined, allUnlined_eq]
      rfl
    | eye => exact sizedCall_erased hexp .eye line
    | zeros => exact sizedCall_erased hexp .zeros line
    | ones => exact sizedCall_erased hexp .ones line
    | _ => exact commutes_throw
  | skipped s => exact commutes_throw

theorem suffixes_erased : ∀ (b : Nat) (operand : Expr), erasure.Commutes Expr.unlined
    (suffixes expression b operand) (suffixes expression b operand.unlined)
  | 0, _ => commutes_pure
  | b + 1, operand => by
    refine peek?_erased.bind fun found? => ?_
    match found? with
    | none => exact commutes_pure
    | some ⟨token, line⟩ =>
      cases token with
      | symbol s =>
        cases s with
        | transpose => exact skip_erased.bind fun _ => suffixes_erased b (.unary .transpose operand line)
        | leftBracket =>
          refine skip_erased.bind fun _ => (listUntil_erased hexp .rightBracket b).bind fun indices => ?_
          have hrest := suffixes_erased b (.binary .subscript operand (.vector ⟨indices, line⟩) line)
          rw [Expr.unlined, Expr.unlined, allUnlined_eq] at hrest
          cases indices with
          | nil => exact commutes_throw
          | cons index indices => exact hrest
        | _ => exact commutes_pure
      | _ => exact commutes_pure

theorem suffixed_erased (b : Nat) :
    erasure.Commutes Expr.unlined (suffixed expression b) (suffixed expression b) :=
  (primary_erased hexp b).bind fun operand => suffixes_erased hexp b operand

theorem unary_erased : ∀ b, erasure.Commutes Expr.unlined (unary expression b) (unary expression b)
  | 0 => commutes_throw
  | b + 1 => by
    refine peek?_erased.bind fun found? => ?_
    match found? with
    | none => exact suffixed_erased hexp b
    | some ⟨token, line⟩ =>
      cases token with
      | symbol s =>
        cases s with
        | minus => exact skip_erased.bind fun _ => (unary_erased b).bind fun _ => commutes_pure
        | _ => exact suffixed_erased hexp b
      | _ => exact suffixed_erased hexp b

end

theorem chainFrom_erased (operator? : Token → Option BinaryOp) {operand : Parser Expr}
    (hoperand : erasure.Commutes Expr.unlined operand operand) : ∀ (b : Nat) (left : Expr),
      erasure.Commutes Expr.unlined (chainFrom operator? operand b left)
        (chainFrom operator? operand b left.unlined)
  | 0, _ => commutes_pure
  | b + 1, left => by
    refine peek?_erased.bind fun found? => ?_
    match found? with
    | none => exact commutes_pure
    | some ⟨token, line⟩ =>
      dsimp only [Option.map, Located.unlined]
      cases operator? token with
      | none => exact commutes_pure
      | some op =>
        exact skip_erased.bind fun _ => hoperand.bind fun right =>
          chainFrom_erased operator? hoperand b (.binary op left right line)

theorem chain_erased (operator? : Token → Option BinaryOp) {operand : Parser Expr}
    (hoperand : erasure.Commutes Expr.unlined operand operand) (b : Nat) :
    erasure.Commutes Expr.unlined (chain operator? operand b) (chain operator? operand b) :=
  hoperand.bind fun left => chainFrom_erased operator? hoperand b left

theorem range_erased {expression : Parser Expr}
    (hexp : erasure.Commutes Expr.unlined expression expression) (b : Nat) :
    erasure.Commutes Expr.unlined (range expression b) (range expression b) := by
  have hlogical : erasure.Commutes Expr.unlined (logical expression b) (logical expression b) :=
    chain_erased _ (chain_erased _ (chain_erased _ (chain_erased _ (unary_erased hexp b) b) b) b) b
  refine hlogical.bind fun start => peek?_erased.bind fun found? => ?_
  match found? with
  | none => exact commutes_pure
  | some ⟨token, line⟩ =>
    cases token with
    | symbol s =>
      cases s with
      | colon =>
        refine skip_erased.bind fun _ => hlogical.bind fun stop => peek?_erased.bind fun again? => ?_
        match again? with
        | none => exact commutes_pure
        | some ⟨token, line⟩ =>
          cases token with
          | symbol s =>
            cases s with
            | colon => exact skip_erased.bind fun _ => commutes_throw
            | _ => exact commutes_pure
          | _ => exact commutes_pure
      | _ => exact commutes_pure
    | _ => exact commutes_pure

theorem expression_erased : ∀ b, erasure.Commutes Expr.unlined (expression b) (expression b)
  | 0 => commutes_throw
  | b + 1 => range_erased (expression_erased b) (b + 1)

end Parser

/-! ## Statements -/

theorem ofExpr_unlined (e : Expr) : (Target.ofExpr e).unlined = .ofExpr e.unlined := by
  cases e with
  | binary op left right line =>
    cases op with
    | subscript =>
      cases left with
      | vector row => cases row; rfl
      | name array arrayLine =>
        cases right with
        | vector row => cases row; rfl
        | _ => rfl
      | _ => rfl
    | _ => rfl
  | vector row => cases row; rfl
  | _ => rfl

theorem body_unlined (s : Stmt) : stmtsUnlined s.body = s.unlined.body := by
  cases s with
  | ifElse condition body otherwise line => cases otherwise <;> rfl
  | _ => rfl

namespace Parser

open Erasure

section
variable {statement : Parser Stmt} (hstmt : erasure.Commutes Stmt.unlined statement statement)
include hstmt

theorem untilBrace_erased : ∀ b,
    erasure.Commutes stmtsUnlined (untilBrace statement b) (untilBrace statement b)
  | 0 => commutes_throw
  | b + 1 => by
    have hmore : erasure.Commutes stmtsUnlined
        (do return (← statement) :: (← untilBrace statement b))
        (do return (← statement) :: (← untilBrace statement b)) :=
      hstmt.bind fun _ => (untilBrace_erased b).bind fun _ => commutes_pure
    refine peek?_erased.bind fun found? => ?_
    match found? with
    | none => exact commutes_throw
    | some ⟨token, line⟩ =>
      cases token with
      | symbol s =>
        cases s with
        | rightBrace => exact skip_erased.bind fun _ => commutes_pure
        | _ => exact hmore
      | _ => exact hmore

theorem body_erased : erasure.Commutes stmtsUnlined (body statement) (body statement) :=
  hstmt.bind fun s => commutes_pure_of (body_unlined s)

end

section
variable {expression : Parser Expr} (hexp : erasure.Commutes Expr.unlined expression expression)
include hexp

theorem condition_erased :
    erasure.Commutes Expr.unlined (condition expression) (condition expression) :=
  (expect_erased .leftParen).bind fun _ => hexp.bind fun _ => (expect_erased .rightParen).bind fun _ =>
    commutes_pure

theorem simple_erased : erasure.Commutes Stmt.unlined (simple expression) (simple expression) := by
  refine hexp.bind fun left => peek?_erased.bind fun found? => ?_
  match found? with
  | none => exact commutes_throw
  | some ⟨token, line⟩ =>
    dsimp only [Option.map, Located.unlined]
    cases token.assignOp? with
    | none =>
      refine (expect_erased .semicolon).bind fun _ => commutes_pure_of ?_
      rw [Stmt.unlined, line_unlined]
    | some op =>
      refine skip_erased.bind fun _ => hexp.bind fun value => (expect_erased .semicolon).bind fun _ =>
        commutes_pure_of ?_
      rw [Stmt.unlined, ofExpr_unlined]

variable {statement : Parser Stmt} (hstmt : erasure.Commutes Stmt.unlined statement statement)
include hstmt

theorem branch_erased (line : Nat) : erasure.Commutes Stmt.unlined
    (branch expression statement line) (branch expression statement 0) := by
  refine (condition_erased hexp).bind fun c => (body_erased hstmt).bind fun first =>
    peek?_erased.bind fun found? => ?_
  match found? with
  | none => exact commutes_pure
  | some ⟨token, line⟩ =>
    cases token with
    | keyword k =>
      cases k with
      | elseKw =>
        exact skip_erased.bind fun _ => (body_erased hstmt).bind fun second => commutes_pure
      | _ => exact commutes_pure
    | _ => exact commutes_pure

theorem conditionLoop_erased (line : Nat) : erasure.Commutes Stmt.unlined
    (conditionLoop expression statement line) (conditionLoop expression statement 0) :=
  (condition_erased hexp).bind fun _ => (body_erased hstmt).bind fun _ => commutes_pure

theorem rangeLoop_erased (line : Nat) : erasure.Commutes Stmt.unlined
    (rangeLoop expression statement line) (rangeLoop expression statement 0) :=
  (expect_erased .leftParen).bind fun _ => identifier_erased.bind fun _ =>
    (expect_erased .assign).bind fun _ => hexp.bind fun _ => (expect_erased .rightParen).bind fun _ =>
      (body_erased hstmt).bind fun _ => commutes_pure

end

theorem statement_erased : ∀ b, erasure.Commutes Stmt.unlined (statement b) (statement b)
  | 0 => commutes_throw
  | b + 1 => by
    have hexp := expression_erased (b + 1)
    have hstmt := statement_erased b
    have jump (jump : Jump) (line : Nat) : erasure.Commutes Stmt.unlined
        (skip >>= fun _ => jumpEnd jump line) (skip >>= fun _ => jumpEnd jump 0) :=
      skip_erased.bind fun _ => (expect_erased .semicolon).bind fun _ => commutes_pure
    refine peek?_erased.bind fun found? => ?_
    match found? with
    | none => exact commutes_throw
    | some ⟨token, line⟩ =>
      cases token with
      | symbol s =>
        cases s with
        | leftBrace =>
          exact ((expect_erased .leftBrace).bind fun _ => untilBrace_erased hstmt b).bind fun _ =>
            commutes_pure
        | _ => exact simple_erased hexp
      | keyword k =>
        cases k with
        | ifKw => exact skip_erased.bind fun _ => branch_erased hexp hstmt line
        | whileKw => exact skip_erased.bind fun _ => conditionLoop_erased hexp hstmt line
        | forKw => exact skip_erased.bind fun _ => rangeLoop_erased hexp hstmt line
        | breakKw => exact jump .exit line
        | continueKw => exact jump .next line
        | returnKw =>
          exact skip_erased.bind fun _ => hexp.bind fun _ => (expect_erased .semicolon).bind fun _ =>
            commutes_pure
        | _ => exact simple_erased hexp
      | _ => exact simple_erased hexp

theorem statements_erased : ∀ b, erasure.Commutes stmtsUnlined (statements b) (statements b)
  | 0 => commutes_pure
  | b + 1 => by
    refine peek?_erased.bind fun found? => ?_
    cases found? with
    | none => exact commutes_pure
    | some found =>
      exact (statement_erased (b + 1)).bind fun _ => (statements_erased b).bind fun _ => commutes_pure

end Parser

/-- Reading leaves the lines alone. -/
theorem parseProgram_unlined (ts : List Located) : parseProgram (ts.map Located.unlined) =
    match parseProgram ts with
    | .ok p => .ok (stmtsUnlined p)
    | .error e => .error e.unlined := by
  have h := Parser.statements_erased ts.length ts
  unfold parseProgram Parser.runOn
  rw [List.length_map]
  replace h : Parser.statements ts.length (ts.map Located.unlined) = _ := h
  rw [h]
  cases Parser.statements ts.length ts <;> rfl

end MatrixScript
