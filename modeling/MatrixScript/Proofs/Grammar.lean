import MatrixScript.Program.Stmt
import MatrixScript.Token

/-!
# The grammar

The productions of the language as relations between tokens and trees, without
regard to how they are read:

  range := logical (":" logical)?,   unary := "-" unary | suffixed,
  suffixed := primary ("'" | "[" expression ("," expression)* "]")*,

and left-associative chains for the levels in between. A node has the line of its
operator, of its keyword or of the token that opens it.
-/

namespace MatrixScript

/-! ## Levels of precedence -/

inductive Level where
  | range | logical | relational | additive | multiplicative | unary | suffixed | primary
deriving DecidableEq

namespace Level

def tighter? : Level → Option Level
  | range => some logical
  | logical => some relational
  | relational => some additive
  | additive => some multiplicative
  | multiplicative => some unary
  | unary => some suffixed
  | suffixed => some primary
  | primary => none

def operators : Level → List (Token × BinaryOp)
  | logical => [(.keyword .and, .and), (.keyword .or, .or), (.keyword .xor, .xor)]
  | relational =>
    [(.symbol .equal, .equal), (.symbol .notEqual, .notEqual), (.symbol .greater, .greater),
      (.symbol .greaterEqual, .greaterEqual), (.symbol .less, .less), (.symbol .lessEqual, .lessEqual)]
  | additive =>
    [(.symbol .plus, .add), (.symbol .minus, .sub), (.symbol .dotPlus, .dotAdd),
      (.symbol .dotMinus, .dotSub)]
  | multiplicative =>
    [(.symbol .times, .mul), (.symbol .divide, .div), (.symbol .dotTimes, .dotMul),
      (.symbol .dotDivide, .dotDiv)]
  | _ => []

/-- The tokens by which an expression of a level goes on, and not one of a
tighter level. -/
def joints : Level → List Token
  | range => [.symbol .colon]
  | suffixed => [.symbol .transpose, .symbol .leftBracket]
  | level => level.operators.map Prod.fst

def rank : Level → Nat
  | range => 0
  | logical => 1
  | relational => 2
  | additive => 3
  | multiplicative => 4
  | unary => 5
  | suffixed => 6
  | primary => 7

def Continues (level : Level) (token : Token) : Prop :=
  ∃ l : Level, level.rank ≤ l.rank ∧ token ∈ l.joints

end Level

def Starts (K : Token → Prop) : List Located → Prop
  | [] => False
  | found :: _ => K found.token

/-! ## Expressions -/

mutual

inductive Derives : Level → List Located → Expr → Prop
  | tighten {level tighter ts e} : level.tighter? = some tighter → Derives tighter ts e →
      Derives level ts e
  | bounds {start stop a b line} : Derives .logical start a → Derives .logical stop b →
      Derives .range (start ++ ⟨.symbol .colon, line⟩ :: stop) (.binary .range a b line)
  | operation {level tighter token op left right a b line} : (token, op) ∈ level.operators →
      level.tighter? = some tighter → Derives level left a → Derives tighter right b →
      Derives level (left ++ ⟨token, line⟩ :: right) (.binary op a b line)
  | negate {ts a line} : Derives .unary ts a →
      Derives .unary (⟨.symbol .minus, line⟩ :: ts) (.unary .negate a line)
  | transpose {ts a line} : Derives .suffixed ts a →
      Derives .suffixed (ts ++ [⟨.symbol .transpose, line⟩]) (.unary .transpose a line)
  | subscript {ts indices a es line close} : Derives .suffixed ts a → DerivesItems indices es →
      Derives .suffixed (ts ++ ⟨.symbol .leftBracket, line⟩ :: (indices ++ [⟨.symbol .rightBracket, close⟩]))
        (.binary .subscript a (.vector ⟨es, line⟩) line)
  | int {value line} : Derives .primary [⟨.int value, line⟩] (.int value line)
  | real {value line} : Derives .primary [⟨.real value, line⟩] (.real value line)
  | str {literal line} : Derives .primary [⟨.str literal, line⟩] (.str literal line)
  | name {spelling line} : Derives .primary [⟨.name spelling, line⟩] (.name spelling line)
  | paren {ts e line close} : Derives .range ts e →
      Derives .primary (⟨.symbol .leftParen, line⟩ :: (ts ++ [⟨.symbol .rightParen, close⟩])) e
  | emptyVector {line close} :
      Derives .primary [⟨.symbol .leftBracket, line⟩, ⟨.symbol .rightBracket, close⟩] (.vector ⟨[], line⟩)
  | vector {ts es line close} : DerivesItems ts es → (∃ e ∈ es, e.row? = none) →
      Derives .primary (⟨.symbol .leftBracket, line⟩ :: (ts ++ [⟨.symbol .rightBracket, close⟩]))
        (.vector ⟨es, line⟩)
  | vectors {ts rows line close} : DerivesItems ts (rows.map .vector) →
      Derives .primary (⟨.symbol .leftBracket, line⟩ :: (ts ++ [⟨.symbol .rightBracket, close⟩]))
        (.matrix rows line)
  | matrix {ts rows line close} : DerivesRows ts rows → 2 ≤ rows.length →
      Derives .primary (⟨.symbol .leftBracket, line⟩ :: (ts ++ [⟨.symbol .rightBracket, close⟩]))
        (.matrix (rows.map (Row.mk · line)) line)
  | printNothing {line opened close} :
      Derives .primary [⟨.keyword .print, line⟩, ⟨.symbol .leftParen, opened⟩, ⟨.symbol .rightParen, close⟩]
        (.call .print [] line)
  | print {ts es line opened close} : DerivesItems ts es →
      Derives .primary (⟨.keyword .print, line⟩ :: ⟨.symbol .leftParen, opened⟩ ::
        (ts ++ [⟨.symbol .rightParen, close⟩])) (.call .print es line)
  | sized {keyword function ts e line opened close} :
      (keyword, function) ∈ [(Keyword.eye, Sized.eye), (.zeros, .zeros), (.ones, .ones)] →
      Derives .range ts e →
      Derives .primary (⟨.keyword keyword, line⟩ :: ⟨.symbol .leftParen, opened⟩ ::
        (ts ++ [⟨.symbol .rightParen, close⟩])) (.call (.sized function) [e] line)

inductive DerivesItems : List Located → List Expr → Prop
  | last {ts e} : Derives .range ts e → DerivesItems ts [e]
  | comma {ts e line rest es} : Derives .range ts e → DerivesItems rest es →
      DerivesItems (ts ++ ⟨.symbol .comma, line⟩ :: rest) (e :: es)

inductive DerivesRows : List Located → List (List Expr) → Prop
  | last {ts es} : DerivesItems ts es → DerivesRows ts [es]
  | semicolon {ts es line rest rows} : DerivesItems ts es → DerivesRows rest rows →
      DerivesRows (ts ++ ⟨.symbol .semicolon, line⟩ :: rest) (es :: rows)

end

/-! ## Statements -/

inductive Target.Of : Expr → Target → Prop
  | name {spelling line} : Of (.name spelling line) (.name spelling line)
  | element {array arrayLine indices line} :
      Of (.binary .subscript (.name array arrayLine) (.vector indices) line) (.element array indices line)
  | invalid {e} : (∀ spelling line, e ≠ .name spelling line) →
      (∀ array arrayLine indices line,
        e ≠ .binary .subscript (.name array arrayLine) (.vector indices) line) →
      Of e (.invalid e)

def assignments : List (Symbol × AssignOp) :=
  [(.assign, .set), (.addAssign, .add), (.subAssign, .sub), (.mulAssign, .mul), (.divAssign, .div)]

mutual

/-- The tokens spell a statement where these tokens follow: what follows only
matters after a branch without an `else`, which cannot stand before one. -/
inductive DerivesStmt : List Located → Stmt → List Located → Prop
  | block {ts body line close rest} : DerivesStmts ts body (⟨.symbol .rightBrace, close⟩ :: rest) →
      DerivesStmt (⟨.symbol .leftBrace, line⟩ :: (ts ++ [⟨.symbol .rightBrace, close⟩])) (.block body) rest
  | ifThen {cs c ts body line opened close rest} : Derives .range cs c → DerivesBody ts body rest →
      ¬ Starts (· = .keyword .elseKw) rest →
      DerivesStmt (⟨.keyword .ifKw, line⟩ :: ⟨.symbol .leftParen, opened⟩ ::
        (cs ++ ⟨.symbol .rightParen, close⟩ :: ts)) (.ifElse c body none line) rest
  | ifElse {cs c ts body us other line opened close between rest} : Derives .range cs c →
      DerivesBody ts body (⟨.keyword .elseKw, between⟩ :: (us ++ rest)) → DerivesBody us other rest →
      DerivesStmt (⟨.keyword .ifKw, line⟩ :: ⟨.symbol .leftParen, opened⟩ ::
        (cs ++ ⟨.symbol .rightParen, close⟩ :: (ts ++ ⟨.keyword .elseKw, between⟩ :: us)))
        (.ifElse c body (some other) line) rest
  | whileLoop {cs c ts body line opened close rest} : Derives .range cs c → DerivesBody ts body rest →
      DerivesStmt (⟨.keyword .whileKw, line⟩ :: ⟨.symbol .leftParen, opened⟩ ::
        (cs ++ ⟨.symbol .rightParen, close⟩ :: ts)) (.whileLoop c body line) rest
  | forLoop {iterator rs r ts body line opened nameLine between close rest} : Derives .range rs r →
      DerivesBody ts body rest →
      DerivesStmt (⟨.keyword .forKw, line⟩ :: ⟨.symbol .leftParen, opened⟩ ::
        ⟨.name iterator, nameLine⟩ :: ⟨.symbol .assign, between⟩ ::
        (rs ++ ⟨.symbol .rightParen, close⟩ :: ts)) (.forLoop iterator r body line) rest
  | exit {line close rest} :
      DerivesStmt [⟨.keyword .breakKw, line⟩, ⟨.symbol .semicolon, close⟩] (.jump .exit line) rest
  | next {line close rest} :
      DerivesStmt [⟨.keyword .continueKw, line⟩, ⟨.symbol .semicolon, close⟩] (.jump .next line) rest
  | ret {ts e line close rest} : Derives .range ts e →
      DerivesStmt (⟨.keyword .returnKw, line⟩ :: (ts ++ [⟨.symbol .semicolon, close⟩])) (.ret e line) rest
  | assign {ls left target symbol op vs value line close rest} : Derives .range ls left →
      Target.Of left target → (symbol, op) ∈ assignments → Derives .range vs value →
      DerivesStmt (ls ++ ⟨.symbol symbol, line⟩ :: (vs ++ [⟨.symbol .semicolon, close⟩]))
        (.assign target op value line) rest
  | expr {ts e close rest} : Derives .range ts e →
      DerivesStmt (ts ++ [⟨.symbol .semicolon, close⟩]) (.expr e e.line) rest

inductive DerivesBody : List Located → List Stmt → List Located → Prop
  | braces {ts body rest} : DerivesStmt ts (.block body) rest → DerivesBody ts body rest
  | single {ts s rest} : DerivesStmt ts s rest → (∀ body, s ≠ .block body) → DerivesBody ts [s] rest

inductive DerivesStmts : List Located → List Stmt → List Located → Prop
  | nil {rest} : DerivesStmts [] [] rest
  | cons {ts s us body rest} : DerivesStmt ts s (us ++ rest) → DerivesStmts us body rest →
      DerivesStmts (ts ++ us) (s :: body) rest

end

def DerivesProgram (ts : List Located) (p : Program) : Prop := DerivesStmts ts p []

end MatrixScript
