import MatrixScript.Parser.Statement
import MatrixScript.Proofs.ExpressionReading

/-!
# Reading statements by the grammar

A statement parser takes off the front of the tokens what the grammar derives
before the tokens that are left, which settles the dangling `else`. With it
`parseProgram` gives a program exactly for the tokens that derive it, so tokens
derive at most one (`parseProgram_exact`).
-/

namespace MatrixScript

/-- On these tokens a parser takes off the front what a grammar derives before
the rest of them. -/
def ReadsBefore {α : Type} (p : Parser α) (G : List Located → α → List Located → Prop)
    (ts : List Located) : Prop :=
  ∀ a rest, p ts = .ok a rest ↔ ∃ used, ts = used ++ rest ∧ G used a rest

/-! ## Targets and first tokens -/

theorem targetOf_iff {e : Expr} {target : Target} : Target.Of e target ↔ Target.ofExpr e = target := by
  constructor
  · intro h
    cases h with
    | name => rfl
    | element => rfl
    | invalid hname helement =>
      unfold Target.ofExpr
      split
      · exact absurd rfl (hname _ _)
      · exact absurd rfl (helement _ _ _ _)
      · rfl
  · rintro rfl
    unfold Target.ofExpr
    split
    · exact .name
    · exact .element
    · rename_i hname helement
      exact .invalid hname helement

theorem assignOp?_iff {token : Token} {op : AssignOp} :
    token.assignOp? = some op ↔ ∃ symbol, token = .symbol symbol ∧ (symbol, op) ∈ assignments := by
  cases token with
  | symbol s => cases s <;> simp [Token.assignOp?, assignments, eq_comm]
  | _ => simp [Token.assignOp?]

theorem jointOf?_assignment {symbol : Symbol} {op : AssignOp} (h : (symbol, op) ∈ assignments) :
    (Token.symbol symbol).jointOf? = none := by
  simp only [assignments, List.mem_cons, Prod.mk.injEq, List.not_mem_nil, or_false] at h
  rcases h with ⟨rfl, -⟩ | ⟨rfl, -⟩ | ⟨rfl, -⟩ | ⟨rfl, -⟩ | ⟨rfl, -⟩ <;> rfl

def Token.heads : Token → Bool
  | .symbol .leftBrace => true
  | .keyword .ifKw | .keyword .whileKw | .keyword .forKw => true
  | .keyword .breakKw | .keyword .continueKw | .keyword .returnKw => true
  | _ => false

theorem heads_of_opens {token : Token} (h : token.opens = true) : token.heads = false := by
  cases token with
  | symbol s => cases s <;> first | rfl | cases h
  | keyword k => cases k <;> first | rfl | cases h
  | _ => rfl

theorem derivesStmt_first {ts rest : List Located} {s : Stmt} (h : DerivesStmt ts s rest) :
    ∃ found us, ts = found :: us ∧ (found.token.heads = true ∨ found.token.opens = true) := by
  have opened : ∀ {us vs e}, Derives .range us e → ∃ found ws, us ++ vs = found :: ws ∧
      (found.token.heads = true ∨ found.token.opens = true) := by
    intro us vs e hd
    obtain ⟨found, us, rfl, ho, -⟩ := derives_starts hd
    exact ⟨found, us ++ vs, rfl, .inr ho⟩
  cases h with
  | assign hd _ _ _ => exact opened hd
  | expr hd => exact opened hd
  | _ => exact ⟨_, _, rfl, .inl rfl⟩

theorem derivesStmt_starts {ts rest : List Located} {s : Stmt} (h : DerivesStmt ts s rest) :
    ∃ found us, ts = found :: us ∧ found.token ≠ .symbol .rightBrace := by
  obtain ⟨found, us, hs, hfirst⟩ := derivesStmt_first h
  refine ⟨found, us, hs, fun hf => ?_⟩
  rw [hf] at hfirst
  rcases hfirst with hfirst | hfirst <;> cases hfirst

theorem derivesStmt_not_else {ts us rest : List Located} {s : Stmt} (h : DerivesStmt ts s rest) :
    ¬ Starts (· = .keyword .elseKw) (ts ++ us) := by
  obtain ⟨found, vs, rfl, hfirst⟩ := derivesStmt_first h
  intro helse
  have htoken : found.token = .keyword .elseKw := helse
  rw [htoken] at hfirst
  rcases hfirst with hfirst | hfirst <;> cases hfirst

theorem derivesStmts_not_else {ts rest : List Located} {body : List Stmt}
    (h : DerivesStmts ts body rest) (hrest : ¬ Starts (· = .keyword .elseKw) rest) :
    ¬ Starts (· = .keyword .elseKw) (ts ++ rest) := by
  cases h with
  | nil => exact hrest
  | cons hs _ =>
    rw [List.append_assoc]
    exact derivesStmt_not_else hs

theorem DerivesStmt.shorter {ts us rest : List Located} {s : Stmt} (h : DerivesStmt us s rest)
    (hs : ts = us ++ rest) : rest.length < ts.length := by
  obtain ⟨found, us, rfl, -⟩ := derivesStmt_starts h
  rw [hs, List.length_append, List.length_cons]
  omega

theorem derivesBody_iff {ts rest : List Located} {body : List Stmt} :
    DerivesBody ts body rest ↔ ∃ s, DerivesStmt ts s rest ∧ body = s.body := by
  constructor
  · intro h
    cases h with
    | braces h => exact ⟨_, h, rfl⟩
    | @single _ s _ h hne =>
      refine ⟨s, h, ?_⟩
      cases s with
      | block inner => exact absurd rfl (hne inner)
      | _ => rfl
  · rintro ⟨s, h, rfl⟩
    cases s with
    | block inner => exact .braces h
    | _ => exact .single h (by simp)

/-! ## Bodies -/

section
variable {statement : Parser Stmt}

theorem untilBrace_close (b line : Nat) (ts : List Located) :
    Parser.untilBrace statement (b + 1) (⟨.symbol .rightBrace, line⟩ :: ts) = .ok [] ts := rfl

theorem untilBrace_other {found : Located} (h : found.token ≠ .symbol .rightBrace) (b : Nat)
    (ts : List Located) :
    Parser.untilBrace statement (b + 1) (found :: ts) =
      (do
        let first ← statement
        let later ← Parser.untilBrace statement b
        return first :: later : Parser (List Stmt)) (found :: ts) := by
  obtain ⟨token, line⟩ := found
  cases token with
  | symbol s => cases s <;> first | rfl | exact absurd rfl h
  | _ => rfl

variable {n : Nat} (hstmt : ∀ ts, ts.length ≤ n → ReadsBefore statement DerivesStmt ts)
include hstmt

theorem body_reads (ts : List Located) (hn : ts.length ≤ n) :
    ReadsBefore (Parser.body statement) DerivesBody ts := by
  intro body rest
  unfold Parser.body
  rw [Parser.bind_eq_ok]
  constructor
  · rintro ⟨s, mid, hs, h⟩
    obtain ⟨rfl, rfl⟩ := Parser.pure_eq_ok.mp h
    obtain ⟨used, rfl, hd⟩ := (hstmt ts hn s mid).mp hs
    exact ⟨used, rfl, derivesBody_iff.mpr ⟨s, hd, rfl⟩⟩
  · rintro ⟨used, rfl, hb⟩
    obtain ⟨s, hd, rfl⟩ := derivesBody_iff.mp hb
    exact ⟨s, rest, (hstmt _ hn s rest).mpr ⟨used, rfl, hd⟩, by simp⟩

theorem untilBrace_reads : ∀ (b : Nat) (ts : List Located), ts.length ≤ b → ts.length ≤ n →
    ∀ body rest, Parser.untilBrace statement b ts = .ok body rest ↔
      ∃ us close, ts = us ++ ⟨.symbol .rightBrace, close⟩ :: rest ∧
        DerivesStmts us body (⟨.symbol .rightBrace, close⟩ :: rest) := by
  intro b
  induction b with
  | zero =>
    intro ts hb _ body rest
    obtain rfl := List.eq_nil_of_length_eq_zero (Nat.le_zero.mp hb)
    simp [Parser.untilBrace]
  | succ b ih =>
    intro ts hb hn body rest
    cases ts with
    | nil => simp [Parser.untilBrace]
    | cons found ts =>
      by_cases hf : found.token = .symbol .rightBrace
      · obtain ⟨token, line⟩ := found
        have : token = .symbol .rightBrace := hf
        subst this
        rw [untilBrace_close]
        constructor
        · intro h
          cases h
          exact ⟨[], line, rfl, .nil⟩
        · rintro ⟨us, close, hused, hd⟩
          cases hd with
          | nil =>
            cases hused
            rfl
          | cons hd _ =>
            -- No statement starts with the closing brace.
            obtain ⟨found, us, rfl, hne⟩ := derivesStmt_starts hd
            cases hused
            exact absurd rfl hne
      · rw [untilBrace_other hf, Parser.bind_eq_ok]
        constructor
        · rintro ⟨s, mid, hfirst, h⟩
          obtain ⟨later, mid', hlater, h⟩ := Parser.bind_eq_ok.mp h
          obtain ⟨rfl, rfl⟩ := Parser.pure_eq_ok.mp h
          obtain ⟨us, hused, hd⟩ := (hstmt _ hn s mid).mp hfirst
          have hlen := hd.shorter hused
          obtain ⟨vs, close, rfl, hds⟩ := (ih mid (by omega) (by omega) later mid').mp hlater
          exact ⟨us ++ vs, close, by rw [hused, List.append_assoc], .cons hd hds⟩
        · rintro ⟨us, close, hused, hd⟩
          cases hd with
          | nil =>
            cases hused
            exact absurd rfl hf
          | @cons us s vs body _ hd hds =>
            rw [List.append_assoc] at hused
            have hlen := hd.shorter hused
            refine ⟨s, _, (hstmt _ hn _ _).mpr ⟨us, hused, hd⟩, ?_⟩
            exact Parser.bind_eq_ok.mpr
              ⟨body, rest, (ih _ (by omega) (by omega) _ _).mpr ⟨vs, close, rfl, hds⟩, by simp⟩

end

/-! ## Kinds of statements -/

section
variable {expression : Parser Expr}

theorem simple_assign {ts mid : List Located} {left : Expr} {found : Located} {op : AssignOp}
    (h : expression ts = .ok left (found :: mid)) (hop : found.token.assignOp? = some op) :
    Parser.simple expression ts = (do
      let value ← expression
      Parser.expect .semicolon
      return .assign (.ofExpr left) op value found.line : Parser Stmt) mid := by
  unfold Parser.simple
  rw [Parser.bind_of_ok h, Parser.peek?_bind]
  dsimp only [List.head?_cons]
  rw [hop]
  rfl

theorem simple_expr {ts mid : List Located} {left : Expr} {found : Located}
    (h : expression ts = .ok left (found :: mid)) (hop : found.token.assignOp? = none) :
    Parser.simple expression ts = (do
      Parser.expect .semicolon
      return .expr left left.line : Parser Stmt) (found :: mid) := by
  unfold Parser.simple
  rw [Parser.bind_of_ok h, Parser.peek?_bind]
  dsimp only [List.head?_cons]
  rw [hop]

section
variable {statement : Parser Stmt} {line : Nat} {ts mid rest : List Located} {c : Expr}
  {first : List Stmt} (hc : Parser.condition expression ts = .ok c mid)
include hc

theorem branch_alone (hfirst : Parser.body statement mid = .ok first rest)
    (he : ¬ Starts (· = .keyword .elseKw) rest) :
    Parser.branch expression statement line ts = .ok (.ifElse c first none line) rest := by
  unfold Parser.branch
  rw [Parser.bind_of_ok hc, Parser.bind_of_ok hfirst]
  cases rest with
  | nil => rfl
  | cons found rest =>
    obtain ⟨token, l⟩ := found
    cases token with
    | keyword k => cases k <;> first | rfl | exact absurd rfl he
    | _ => rfl

theorem branch_else {between : Nat} {mid' : List Located}
    (hfirst : Parser.body statement mid = .ok first (⟨.keyword .elseKw, between⟩ :: mid')) :
    Parser.branch expression statement line ts =
      (Parser.body statement >>= fun second => pure (.ifElse c first (some second) line)) mid' := by
  unfold Parser.branch
  rw [Parser.bind_of_ok hc, Parser.bind_of_ok hfirst]
  rfl

end

variable {m : Nat}
  (hexp : ∀ ts, ts.length < m → Reads expression (Derives .range) Level.range.Continues ts)
include hexp

theorem condition_reads {ts : List Located} (hm : ts.length < m) {c : Expr} {rest : List Located} :
    Parser.condition expression ts = .ok c rest ↔
      ∃ opened cs close, ts = ⟨.symbol .leftParen, opened⟩ ::
        (cs ++ ⟨.symbol .rightParen, close⟩ :: rest) ∧ Derives .range cs c := by
  unfold Parser.condition
  rw [Parser.bind_eq_ok]
  constructor
  · rintro ⟨_, mid, ho, h⟩
    obtain ⟨opened, rfl⟩ := Parser.expect_eq_ok.mp ho
    obtain ⟨cs, close, a, rfl, hd, rfl⟩ := (enclosed_reads hexp rfl id (Nat.lt_of_succ_lt hm)).mp h
    exact ⟨opened, cs, close, rfl, hd⟩
  · rintro ⟨opened, cs, close, rfl, hd⟩
    refine ⟨(), _, Parser.expect_eq_ok.mpr ⟨opened, rfl⟩, ?_⟩
    exact (enclosed_reads hexp rfl id (Nat.lt_of_succ_lt hm)).mpr ⟨cs, close, c, rfl, hd, rfl⟩

theorem simple_reads {ts : List Located} (hm : ts.length < m) {s : Stmt} {rest : List Located} :
    Parser.simple expression ts = .ok s rest ↔
      (∃ us left symbol op line vs value close,
        ts = us ++ ⟨.symbol symbol, line⟩ :: (vs ++ ⟨.symbol .semicolon, close⟩ :: rest) ∧
        Derives .range us left ∧ (symbol, op) ∈ assignments ∧ Derives .range vs value ∧
        s = .assign (.ofExpr left) op value line) ∨
      ∃ us e close, ts = us ++ ⟨.symbol .semicolon, close⟩ :: rest ∧ Derives .range us e ∧
        s = .expr e e.line := by
  constructor
  · intro hs
    have h := hs
    unfold Parser.simple at h
    rw [Parser.bind_eq_ok] at h
    obtain ⟨left, mid, hleft, h⟩ := h
    obtain ⟨us, rfl, hd, -⟩ := (hexp ts hm left mid).mp hleft
    cases mid with
    | nil => cases h
    | cons found mid =>
      cases hop : found.token.assignOp? with
      | none =>
        rw [simple_expr hleft hop] at hs
        obtain ⟨_, mid', hc, hs⟩ := Parser.bind_eq_ok.mp hs
        obtain ⟨close, hc⟩ := Parser.expect_eq_ok.mp hc
        obtain ⟨rfl, rfl⟩ := Parser.pure_eq_ok.mp hs
        exact .inr ⟨us, left, close, by rw [hc], hd, rfl⟩
      | some op =>
        rw [simple_assign hleft hop] at hs
        obtain ⟨token, line⟩ := found
        obtain ⟨symbol, rfl, hmem⟩ := assignOp?_iff.mp hop
        rw [List.length_append, List.length_cons] at hm
        obtain ⟨vs, close, value, rfl, hv, rfl⟩ := (enclosed_reads hexp rfl _ (by omega)).mp hs
        exact .inl ⟨us, left, symbol, op, line, vs, value, close, rfl, hd, hmem, hv, rfl⟩
  · rintro (⟨us, left, symbol, op, line, vs, value, close, rfl, hd, hmem, hv, rfl⟩ |
      ⟨us, e, close, rfl, hd, rfl⟩)
    · rw [simple_assign (expression_before hexp hd (jointOf?_assignment hmem) hm)
        (assignOp?_iff.mpr ⟨symbol, rfl, hmem⟩)]
      rw [List.length_append, List.length_cons] at hm
      exact (enclosed_reads hexp rfl _ (by omega)).mpr ⟨vs, close, value, rfl, hv, rfl⟩
    · rw [simple_expr (expression_before hexp hd rfl hm) rfl]
      exact Parser.bind_eq_ok.mpr ⟨(), rest, Parser.expect_eq_ok.mpr ⟨close, rfl⟩, by simp⟩

variable {statement : Parser Stmt} {n : Nat}
  (hstmt : ∀ ts, ts.length ≤ n → ReadsBefore statement DerivesStmt ts) (hnm : n < m)
include hstmt hnm

theorem conditionLoop_reads (line : Nat) {ts : List Located} (hn : ts.length ≤ n) {s : Stmt}
    {rest : List Located} :
    Parser.conditionLoop expression statement line ts = .ok s rest ↔
      ∃ opened cs c close used body, ts = ⟨.symbol .leftParen, opened⟩ ::
        (cs ++ ⟨.symbol .rightParen, close⟩ :: (used ++ rest)) ∧ Derives .range cs c ∧
        DerivesBody used body rest ∧ s = .whileLoop c body line := by
  unfold Parser.conditionLoop
  rw [Parser.bind_eq_ok]
  constructor
  · rintro ⟨c, mid, hc, h⟩
    obtain ⟨opened, cs, close, rfl, hd⟩ := (condition_reads hexp (Nat.lt_of_le_of_lt hn hnm)).mp hc
    obtain ⟨body, mid', hb, h⟩ := Parser.bind_eq_ok.mp h
    obtain ⟨rfl, rfl⟩ := Parser.pure_eq_ok.mp h
    rw [List.length_cons, List.length_append, List.length_cons] at hn
    obtain ⟨used, rfl, hbody⟩ := (body_reads hstmt mid (by omega) body mid').mp hb
    exact ⟨opened, cs, c, close, used, body, rfl, hd, hbody, rfl⟩
  · rintro ⟨opened, cs, c, close, used, body, rfl, hd, hb, rfl⟩
    refine ⟨c, _, (condition_reads hexp (Nat.lt_of_le_of_lt hn hnm)).mpr ⟨opened, cs, close, rfl, hd⟩, ?_⟩
    rw [List.length_cons, List.length_append, List.length_cons] at hn
    exact Parser.bind_eq_ok.mpr
      ⟨body, rest, (body_reads hstmt _ (by omega) body rest).mpr ⟨used, rfl, hb⟩, by simp⟩

theorem rangeLoop_reads (line : Nat) {ts : List Located} (hn : ts.length ≤ n) {s : Stmt}
    {rest : List Located} :
    Parser.rangeLoop expression statement line ts = .ok s rest ↔
      ∃ opened iterator nameLine between rs r close used body,
        ts = ⟨.symbol .leftParen, opened⟩ :: ⟨.name iterator, nameLine⟩ ::
          ⟨.symbol .assign, between⟩ :: (rs ++ ⟨.symbol .rightParen, close⟩ :: (used ++ rest)) ∧
        Derives .range rs r ∧ DerivesBody used body rest ∧ s = .forLoop iterator r body line := by
  unfold Parser.rangeLoop
  constructor
  · simp only [Parser.bind_eq_ok, Parser.expect_eq_ok, Parser.identifier_eq_ok, Parser.pure_eq_ok]
    rintro ⟨_, _, ⟨opened, rfl⟩, iterator, _, ⟨nameLine, rfl⟩, _, ts, ⟨between, rfl⟩, r, _, hr, _, mid,
      ⟨close, rfl⟩, body, _, hb, rfl, rfl⟩
    simp only [List.length_cons] at hn
    obtain ⟨rs, rfl, hd, -⟩ := (hexp ts (by omega) r _).mp hr
    rw [List.length_append, List.length_cons] at hn
    obtain ⟨used, rfl, hbody⟩ := (body_reads hstmt mid (by omega) body _).mp hb
    exact ⟨opened, iterator, nameLine, between, rs, r, close, used, body, rfl, hd, hbody, rfl⟩
  · rintro ⟨opened, iterator, nameLine, between, rs, r, close, used, body, rfl, hd, hb, rfl⟩
    simp only [List.length_cons] at hn
    rw [Parser.expect_bind, Parser.identifier_bind, Parser.expect_bind,
      Parser.bind_of_ok (expression_before hexp hd rfl (by omega)), Parser.expect_bind]
    rw [List.length_append, List.length_cons] at hn
    exact Parser.bind_eq_ok.mpr
      ⟨body, rest, (body_reads hstmt _ (by omega) body rest).mpr ⟨used, rfl, hb⟩, by simp⟩

theorem branch_reads (line : Nat) {ts : List Located} (hn : ts.length ≤ n) {s : Stmt}
    {rest : List Located} :
    Parser.branch expression statement line ts = .ok s rest ↔
      ∃ opened cs c close, Derives .range cs c ∧
        ((∃ used first, ts = ⟨.symbol .leftParen, opened⟩ ::
            (cs ++ ⟨.symbol .rightParen, close⟩ :: (used ++ rest)) ∧
          DerivesBody used first rest ∧ ¬ Starts (· = .keyword .elseKw) rest ∧
          s = .ifElse c first none line) ∨
        ∃ us first between vs second, ts = ⟨.symbol .leftParen, opened⟩ ::
            (cs ++ ⟨.symbol .rightParen, close⟩ :: (us ++ ⟨.keyword .elseKw, between⟩ :: (vs ++ rest))) ∧
          DerivesBody us first (⟨.keyword .elseKw, between⟩ :: (vs ++ rest)) ∧
          DerivesBody vs second rest ∧ s = .ifElse c first (some second) line) := by
  constructor
  · intro hs
    have h := hs
    unfold Parser.branch at h
    rw [Parser.bind_eq_ok] at h
    obtain ⟨c, mid, hc, h⟩ := h
    rw [Parser.bind_eq_ok] at h
    obtain ⟨first, mid', hb, -⟩ := h
    obtain ⟨opened, cs, close, rfl, hd⟩ := (condition_reads hexp (Nat.lt_of_le_of_lt hn hnm)).mp hc
    rw [List.length_cons, List.length_append, List.length_cons] at hn
    obtain ⟨us, rfl, hfirst⟩ := (body_reads hstmt mid (by omega) first mid').mp hb
    refine ⟨opened, cs, c, close, hd, ?_⟩
    -- The first body ended where nothing of it could go on, so this `else` is not its own.
    by_cases he : Starts (· = .keyword .elseKw) mid'
    · obtain ⟨between, mid', rfl⟩ := starts_token.mp he
      rw [branch_else hc hb, Parser.bind_eq_ok] at hs
      obtain ⟨second, _, hb', hs⟩ := hs
      obtain ⟨rfl, rfl⟩ := Parser.pure_eq_ok.mp hs
      rw [List.length_append, List.length_cons] at hn
      obtain ⟨vs, rfl, hsecond⟩ := (body_reads hstmt mid' (by omega) second _).mp hb'
      exact .inr ⟨us, first, between, vs, second, rfl, hfirst, hsecond, rfl⟩
    · rw [branch_alone hc hb he] at hs
      cases hs
      exact .inl ⟨us, first, rfl, hfirst, he, rfl⟩
  · rintro ⟨opened, cs, c, close, hd, ⟨used, first, rfl, hb, he, rfl⟩ |
      ⟨us, first, between, vs, second, rfl, hb, hb', rfl⟩⟩
    · have hc := (condition_reads hexp (Nat.lt_of_le_of_lt hn hnm)).mpr ⟨opened, cs, close, rfl, hd⟩
      rw [List.length_cons, List.length_append, List.length_cons] at hn
      exact branch_alone hc ((body_reads hstmt _ (by omega) _ _).mpr ⟨used, rfl, hb⟩) he
    · have hc := (condition_reads hexp (Nat.lt_of_le_of_lt hn hnm)).mpr ⟨opened, cs, close, rfl, hd⟩
      rw [List.length_cons, List.length_append, List.length_cons] at hn
      rw [branch_else hc ((body_reads hstmt _ (by omega) _ _).mpr ⟨us, rfl, hb⟩)]
      rw [List.length_append, List.length_cons] at hn
      exact Parser.bind_eq_ok.mpr
        ⟨second, rest, (body_reads hstmt _ (by omega) _ _).mpr ⟨vs, rfl, hb'⟩, by simp⟩

end

/-! ## Any statement -/

theorem statement_other {found : Located} (h : found.token.heads = false) (n : Nat)
    (ts : List Located) :
    Parser.statement (n + 1) (found :: ts) =
      Parser.simple (Parser.expression (n + 1)) (found :: ts) := by
  obtain ⟨token, line⟩ := found
  cases token with
  | symbol s => cases s <;> first | rfl | cases h
  | keyword k => cases k <;> first | rfl | cases h
  | _ => rfl

theorem jumpEnd_reads (jump : Jump) (line : Nat) {ts : List Located} {s : Stmt}
    {rest : List Located} : Parser.jumpEnd jump line ts = .ok s rest ↔
      ∃ close, ts = ⟨.symbol .semicolon, close⟩ :: rest ∧ s = .jump jump line := by
  unfold Parser.jumpEnd
  rw [Parser.bind_eq_ok]
  constructor
  · rintro ⟨_, mid, hc, h⟩
    obtain ⟨close, rfl⟩ := Parser.expect_eq_ok.mp hc
    obtain ⟨rfl, rfl⟩ := Parser.pure_eq_ok.mp h
    exact ⟨close, rfl, rfl⟩
  · rintro ⟨close, rfl, rfl⟩
    exact ⟨(), rest, Parser.expect_eq_ok.mpr ⟨close, rfl⟩, by simp⟩

section
variable {n : Nat} (hstmt : ∀ ts, ts.length ≤ n → ReadsBefore (Parser.statement n) DerivesStmt ts)
include hstmt

theorem block_reads {line : Nat} {ts : List Located} (hn : ts.length ≤ n) {s : Stmt}
    {rest : List Located} :
    Parser.statement (n + 1) (⟨.symbol .leftBrace, line⟩ :: ts) = .ok s rest ↔
      ∃ us close body, ts = us ++ ⟨.symbol .rightBrace, close⟩ :: rest ∧
        DerivesStmts us body (⟨.symbol .rightBrace, close⟩ :: rest) ∧ s = .block body := by
  have braced : Parser.braced (Parser.statement n) n (⟨.symbol .leftBrace, line⟩ :: ts) =
      Parser.untilBrace (Parser.statement n) n ts := Parser.expect_bind _ _ _ _
  show (Parser.braced (Parser.statement n) n >>= fun body => pure (.block body))
    (⟨.symbol .leftBrace, line⟩ :: ts) = .ok s rest ↔ _
  rw [Parser.bind_eq_ok, braced]
  constructor
  · rintro ⟨body, mid, hb, h⟩
    obtain ⟨rfl, rfl⟩ := Parser.pure_eq_ok.mp h
    obtain ⟨us, close, hused, hd⟩ := (untilBrace_reads hstmt n ts hn hn body mid).mp hb
    exact ⟨us, close, body, hused, hd, rfl⟩
  · rintro ⟨us, close, body, hused, hd, rfl⟩
    exact ⟨body, rest, (untilBrace_reads hstmt n ts hn hn body rest).mpr ⟨us, close, hused, hd⟩, by simp⟩

theorem statement_sound {ts : List Located} (hn : ts.length ≤ n + 1) {s : Stmt} {rest : List Located}
    (h : Parser.statement (n + 1) ts = .ok s rest) :
    ∃ used, ts = used ++ rest ∧ DerivesStmt used s rest := by
  have hexp := expression_reads (n + 1)
  cases ts with
  | nil => cases h
  | cons found ts =>
    have hlen : ts.length ≤ n := Nat.le_of_succ_le_succ hn
    cases hh : found.token.heads with
    | false =>
      rw [statement_other hh] at h
      rcases (simple_reads hexp (Nat.lt_succ_of_le hn)).mp h with
        ⟨us, left, symbol, op, line, vs, value, close, hts, hd, hmem, hv, rfl⟩ |
        ⟨us, e, close, hts, hd, rfl⟩
      · exact ⟨us ++ ⟨.symbol symbol, line⟩ :: (vs ++ [⟨.symbol .semicolon, close⟩]), by simp [hts],
          .assign hd (targetOf_iff.mpr rfl) hmem hv⟩
      · exact ⟨us ++ [⟨.symbol .semicolon, close⟩], by simp [hts], .expr hd⟩
    | true =>
      obtain ⟨token, line⟩ := found
      cases token with
      | symbol sym =>
        cases sym with
        | leftBrace =>
          obtain ⟨us, close, body, rfl, hd, rfl⟩ := (block_reads hstmt hlen).mp h
          exact ⟨⟨.symbol .leftBrace, line⟩ :: (us ++ [⟨.symbol .rightBrace, close⟩]), by simp, .block hd⟩
        | _ => cases hh
      | keyword k =>
        cases k with
        | ifKw =>
          obtain ⟨opened, cs, c, close, hd, ⟨used, first, rfl, hb, he, rfl⟩ |
            ⟨us, first, between, vs, second, rfl, hb, hb', rfl⟩⟩ :=
            (branch_reads hexp hstmt (by omega) line hlen).mp h
          · exact ⟨⟨.keyword .ifKw, line⟩ :: ⟨.symbol .leftParen, opened⟩ ::
              (cs ++ ⟨.symbol .rightParen, close⟩ :: used), by simp, .ifThen hd hb he⟩
          · exact ⟨⟨.keyword .ifKw, line⟩ :: ⟨.symbol .leftParen, opened⟩ ::
              (cs ++ ⟨.symbol .rightParen, close⟩ :: (us ++ ⟨.keyword .elseKw, between⟩ :: vs)),
              by simp, .ifElse hd hb hb'⟩
        | whileKw =>
          obtain ⟨opened, cs, c, close, used, body, rfl, hd, hb, rfl⟩ :=
            (conditionLoop_reads hexp hstmt (by omega) line hlen).mp h
          exact ⟨⟨.keyword .whileKw, line⟩ :: ⟨.symbol .leftParen, opened⟩ ::
            (cs ++ ⟨.symbol .rightParen, close⟩ :: used), by simp, .whileLoop hd hb⟩
        | forKw =>
          obtain ⟨opened, iterator, nameLine, between, rs, r, close, used, body, rfl, hd, hb, rfl⟩ :=
            (rangeLoop_reads hexp hstmt (by omega) line hlen).mp h
          exact ⟨⟨.keyword .forKw, line⟩ :: ⟨.symbol .leftParen, opened⟩ ::
            ⟨.name iterator, nameLine⟩ :: ⟨.symbol .assign, between⟩ ::
            (rs ++ ⟨.symbol .rightParen, close⟩ :: used), by simp, .forLoop hd hb⟩
        | breakKw =>
          obtain ⟨close, rfl, rfl⟩ := (jumpEnd_reads .exit line).mp h
          exact ⟨[_, _], rfl, .exit⟩
        | continueKw =>
          obtain ⟨close, rfl, rfl⟩ := (jumpEnd_reads .next line).mp h
          exact ⟨[_, _], rfl, .next⟩
        | returnKw =>
          have hmore : ts.length < n + 1 + 1 := Nat.lt_add_right 1 (Nat.lt_succ_of_le hlen)
          obtain ⟨is, close, a, rfl, hd, rfl⟩ := (enclosed_reads hexp rfl _ hmore).mp h
          exact ⟨⟨.keyword .returnKw, line⟩ :: (is ++ [⟨.symbol .semicolon, close⟩]), by simp, .ret hd⟩
        | _ => cases hh
      | _ => cases hh

theorem statement_complete {used rest : List Located} {s : Stmt} (h : DerivesStmt used s rest)
    (hn : (used ++ rest).length ≤ n + 1) : Parser.statement (n + 1) (used ++ rest) = .ok s rest := by
  have hexp := expression_reads (n + 1)
  -- An expression at the front starts with a token that leads to `simple`.
  have other : ∀ {us vs e}, Derives .range us e → Parser.statement (n + 1) (us ++ vs) =
      Parser.simple (Parser.expression (n + 1)) (us ++ vs) := by
    intro us vs e hd
    obtain ⟨found, us, rfl, ho, -⟩ := derives_starts hd
    exact statement_other (heads_of_opens ho) n (us ++ vs)
  cases h with
  | @block us body line close _ hd =>
    exact (block_reads hstmt (Nat.le_of_succ_le_succ hn)).mpr ⟨us, close, body, by simp, hd, rfl⟩
  | @ifThen cs c us body line opened close _ hd hb he =>
    exact (branch_reads hexp hstmt (by omega) line (Nat.le_of_succ_le_succ hn)).mpr
      ⟨opened, cs, c, close, hd, .inl ⟨us, body, by simp, hb, he, rfl⟩⟩
  | @ifElse cs c us body vs second line opened close between _ hd hb hb' =>
    exact (branch_reads hexp hstmt (by omega) line (Nat.le_of_succ_le_succ hn)).mpr
      ⟨opened, cs, c, close, hd, .inr ⟨us, body, between, vs, second, by simp, hb, hb', rfl⟩⟩
  | @whileLoop cs c us body line opened close _ hd hb =>
    exact (conditionLoop_reads hexp hstmt (by omega) line (Nat.le_of_succ_le_succ hn)).mpr
      ⟨opened, cs, c, close, us, body, by simp, hd, hb, rfl⟩
  | @forLoop iterator rs r us body line opened nameLine between close _ hd hb =>
    exact (rangeLoop_reads hexp hstmt (by omega) line (Nat.le_of_succ_le_succ hn)).mpr
      ⟨opened, iterator, nameLine, between, rs, r, close, us, body, by simp, hd, hb, rfl⟩
  | @exit line close _ => exact (jumpEnd_reads .exit line).mpr ⟨close, rfl, rfl⟩
  | @next line close _ => exact (jumpEnd_reads .next line).mpr ⟨close, rfl, rfl⟩
  | @ret us e line close _ hd =>
    exact (enclosed_reads hexp rfl _ (Nat.lt_succ_of_le (Nat.le_of_succ_le hn))).mpr
      ⟨us, close, e, by simp, hd, rfl⟩
  | @assign us left target symbol op vs value line close _ hd ht hmem hv =>
    rw [List.append_assoc, other hd]
    rw [List.append_assoc] at hn
    refine (simple_reads hexp (Nat.lt_succ_of_le hn)).mpr (.inl ?_)
    exact ⟨us, left, symbol, op, line, vs, value, close, by simp, hd, hmem, hv,
      by rw [targetOf_iff.mp ht]⟩
  | @expr us e close _ hd =>
    rw [List.append_assoc, other hd]
    rw [List.append_assoc] at hn
    exact (simple_reads hexp (Nat.lt_succ_of_le hn)).mpr (.inr ⟨us, e, close, rfl, hd, rfl⟩)

end

theorem statement_reads : ∀ (n : Nat) (ts : List Located), ts.length ≤ n →
    ReadsBefore (Parser.statement n) DerivesStmt ts := by
  intro n
  induction n with
  | zero =>
    intro ts hn s rest
    obtain rfl := List.eq_nil_of_length_eq_zero (Nat.le_zero.mp hn)
    constructor
    · intro h
      cases h
    · rintro ⟨used, hused, hd⟩
      exact absurd (hd.shorter hused) (Nat.not_lt_zero _)
  | succ n ih =>
    intro ts hn s rest
    constructor
    · exact statement_sound ih hn
    · rintro ⟨used, rfl, hd⟩
      exact statement_complete ih hd hn

/-! ## Programs -/

theorem derivesProgram_nil {p : Program} : DerivesProgram [] p ↔ p = [] := by
  constructor
  · intro h
    generalize hts : ([] : List Located) = ts at h
    cases h with
    | nil => rfl
    | cons hd _ =>
      obtain ⟨found, us, rfl, -⟩ := derivesStmt_starts hd
      cases hts
  · rintro rfl
    exact .nil

theorem statements_nil (n : Nat) : Parser.statements n [] = .ok [] [] := by
  cases n <;> rfl

theorem statements_cons (n : Nat) (found : Located) (ts : List Located) :
    Parser.statements (n + 1) (found :: ts) =
      (do
        let first ← Parser.statement (n + 1)
        let later ← Parser.statements n
        return first :: later : Parser Program) (found :: ts) := rfl

theorem statements_reads : ∀ (n : Nat) (ts : List Located), ts.length ≤ n → ∀ p rest,
    Parser.statements n ts = .ok p rest ↔ rest = [] ∧ DerivesProgram ts p := by
  have empty : ∀ n p rest, Parser.statements n [] = .ok p rest ↔ rest = [] ∧ DerivesProgram [] p := by
    intro n p rest
    rw [statements_nil, derivesProgram_nil, EStateM.Result.ok.injEq, and_comm, eq_comm, @eq_comm _ p]
  intro n
  induction n with
  | zero =>
    intro ts hn p rest
    obtain rfl := List.eq_nil_of_length_eq_zero (Nat.le_zero.mp hn)
    exact empty 0 p rest
  | succ n ih =>
    intro ts hn p rest
    cases ts with
    | nil => exact empty (n + 1) p rest
    | cons found ts =>
      rw [statements_cons, Parser.bind_eq_ok]
      constructor
      · rintro ⟨s, mid, hs, h⟩
        obtain ⟨later, mid', hlater, h⟩ := Parser.bind_eq_ok.mp h
        obtain ⟨rfl, rfl⟩ := Parser.pure_eq_ok.mp h
        obtain ⟨us, hused, hd⟩ := (statement_reads (n + 1) _ hn s mid).mp hs
        have hlen := hd.shorter hused
        obtain ⟨rfl, hds⟩ := (ih mid (by omega) later mid').mp hlater
        rw [hused]
        exact ⟨rfl, .cons (by rwa [List.append_nil]) hds⟩
      · rintro ⟨rfl, hd⟩
        generalize hts : found :: ts = all at hn hd ⊢
        cases hd with
        | nil => cases hts
        | @cons us s vs later _ hd hds =>
          rw [List.append_nil] at hd
          have hlen := hd.shorter rfl
          refine ⟨s, vs, (statement_reads (n + 1) _ hn s vs).mpr ⟨us, rfl, hd⟩, ?_⟩
          exact Parser.bind_eq_ok.mpr ⟨later, [], (ih vs (by omega) later []).mpr ⟨rfl, hds⟩, by simp⟩

theorem parseProgram_eq_ok {ts : List Located} {p : Program} :
    parseProgram ts = .ok p ↔ DerivesProgram ts p := by
  have hreads := statements_reads ts.length ts (Nat.le_refl _)
  unfold parseProgram Parser.runOn
  cases h : Parser.statements ts.length ts with
  | error e mid =>
    constructor
    · intro hp
      cases hp
    · intro hd
      rw [(hreads p []).mpr ⟨rfl, hd⟩] at h
      cases h
  | ok p' rest =>
    obtain ⟨rfl, hd'⟩ := (hreads p' rest).mp h
    constructor
    · intro hp
      cases hp
      exact hd'
    · intro hd
      rw [(hreads p []).mpr ⟨rfl, hd⟩] at h
      cases h
      rfl

/-- A program is read exactly from the tokens that derive it, tokens derive at
most one program, and each level reads exactly what derives at it and is not gone
on with. -/
theorem parseProgram_exact :
    (∀ ts p, parseProgram ts = .ok p ↔ DerivesProgram ts p) ∧
    (∀ ts p p', DerivesProgram ts p → DerivesProgram ts p' → p = p') ∧
    ∀ (level : Level) ts e rest, Parser.runOn level.parser ts = .ok e rest ↔
      ∃ used, ts = used ++ rest ∧ Derives level used e ∧ ¬ Starts level.Continues rest := by
  refine ⟨fun ts p => parseProgram_eq_ok, ?_, fun level ts e rest => level_reads level ts e rest⟩
  intro ts p p' hp hp'
  have heq := (parseProgram_eq_ok.mpr hp).symm.trans (parseProgram_eq_ok.mpr hp')
  cases heq
  rfl

def nestedBranches : List Located :=
  [⟨.keyword .ifKw, 1⟩, ⟨.symbol .leftParen, 1⟩, ⟨.name "a", 1⟩, ⟨.symbol .rightParen, 1⟩,
    ⟨.keyword .ifKw, 2⟩, ⟨.symbol .leftParen, 2⟩, ⟨.name "b", 2⟩, ⟨.symbol .rightParen, 2⟩,
    ⟨.keyword .breakKw, 3⟩, ⟨.symbol .semicolon, 3⟩, ⟨.keyword .elseKw, 4⟩,
    ⟨.keyword .continueKw, 5⟩, ⟨.symbol .semicolon, 5⟩]

theorem nestedBranches_derive :
    DerivesProgram nestedBranches
      [.ifElse (.name "a" 1) [.ifElse (.name "b" 2) [.jump .exit 3] (some [.jump .next 5]) 2] none 1] ∧
    ¬ DerivesProgram nestedBranches
      [.ifElse (.name "a" 1) [.ifElse (.name "b" 2) [.jump .exit 3] none 2] (some [.jump .next 5]) 1] := by
  have inner := (parseProgram_exact.1 nestedBranches _).mp rfl
  refine ⟨inner, ?_⟩
  intro outer
  have heq := parseProgram_exact.2.1 _ _ _ inner outer
  cases heq

end MatrixScript
