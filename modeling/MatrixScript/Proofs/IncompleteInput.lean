import MatrixScript.Proofs.ViablePrefixes

/-!
# Incomplete input

The parsers of statements fail as those of expressions do. So the tokens end too
early exactly where more of them could make a program, and a token that stops the
parser stops it whatever comes behind (`parseProgram_incomplete`).
-/

namespace MatrixScript

/-! ## What follows a statement -/

mutual

/-- An `else` is all that can disturb a statement from behind. -/
theorem DerivesStmt.before {ts rest more : List Located} {s : Stmt} (h : DerivesStmt ts s rest)
    (hmore : Starts (· = .keyword .elseKw) more → Starts (· = .keyword .elseKw) rest) :
    DerivesStmt ts s more := by
  match h with
  | .block hd => exact .block (hd.before fun helse => by cases helse)
  | .ifThen hc hb he => exact .ifThen hc (hb.before hmore) fun helse => he (hmore helse)
  | .ifElse hc hb hb' => exact .ifElse hc (hb.before fun _ => rfl) (hb'.before hmore)
  | .whileLoop hc hb => exact .whileLoop hc (hb.before hmore)
  | .forLoop hr hb => exact .forLoop hr (hb.before hmore)
  | .exit => exact .exit
  | .next => exact .next
  | .ret hd => exact .ret hd
  | .assign hl ht hm hv => exact .assign hl ht hm hv
  | .expr hd => exact .expr hd

theorem DerivesBody.before {ts rest more : List Located} {body : List Stmt} (h : DerivesBody ts body rest)
    (hmore : Starts (· = .keyword .elseKw) more → Starts (· = .keyword .elseKw) rest) :
    DerivesBody ts body more := by
  match h with
  | .braces hd => exact .braces (hd.before hmore)
  | .single hd hne => exact .single (hd.before hmore) hne

theorem DerivesStmts.before {ts rest more : List Located} {body : List Stmt}
    (h : DerivesStmts ts body rest)
    (hmore : Starts (· = .keyword .elseKw) more → Starts (· = .keyword .elseKw) rest) :
    DerivesStmts ts body more := by
  match h with
  | .nil => exact .nil
  | @DerivesStmts.cons _ _ us _ _ hd hds =>
    refine .cons (hd.before fun helse => ?_) (hds.before hmore)
    cases us with
    | nil => exact hmore helse
    | cons found us => exact helse

end

mutual

/-- No statement ends in an opening bracket. -/
theorem DerivesStmt.closed {ts rest : List Located} {s : Stmt} (h : DerivesStmt ts s rest) :
    ¬ EndsOpen ts := by
  match h with
  | .ifThen _ hb _ | .whileLoop _ hb =>
    intro hopen
    have header := (hopen.of_cons (by simp)).of_cons (by simp)
    exact hb.closed (header.behind (by simp))
  | .ifElse _ _ hb =>
    intro hopen
    have header := (hopen.of_cons (by simp)).of_cons (by simp)
    exact hb.closed ((header.behind (by simp)).behind (by simp))
  | .forLoop _ hb =>
    intro hopen
    have header := ((hopen.of_cons (by simp)).of_cons (by simp)).of_cons (by simp)
    exact hb.closed ((header.of_cons (by simp)).behind (by simp))
  | .block _ | .exit | .next | .ret _ | .assign _ _ _ _ | .expr _ =>
    rintro ⟨line, hlast⟩
    simp [List.getLast?_cons, List.getLast?_append] at hlast

theorem DerivesBody.closed {ts rest : List Located} {body : List Stmt} (h : DerivesBody ts body rest) :
    ¬ EndsOpen ts := by
  match h with
  | .braces hd => exact hd.closed
  | .single hd _ => exact hd.closed

end

theorem looksAhead_stmt : LooksAhead DerivesStmt :=
  fun _ _ _ _ hd hhead => hd.before (starts_congr hhead).mp

theorem looksAhead_body : LooksAhead DerivesBody :=
  fun _ _ _ _ hb hhead => hb.before (starts_congr hhead).mp

/-! ## Bodies -/

theorem spelt_stmts {us : List Located} (h : Spelt DerivesStmt us) : Spelt DerivesStmts us := by
  obtain ⟨s, hd⟩ := h
  refine ⟨[s], ?_⟩
  have hs : DerivesStmts (us ++ []) [s] [] := .cons hd .nil
  rwa [List.append_nil] at hs

/-- A statement before statements. -/
theorem spelt_cons {used us mid : List Located} {s : Stmt} (hd : DerivesStmt used s mid)
    (h : Spelt DerivesStmts us) : Spelt DerivesStmts (used ++ us) := by
  obtain ⟨body, hds⟩ := h
  have hne := derivesStmts_not_else hds id
  exact ⟨s :: body, .cons (hd.before fun helse => absurd helse hne) hds⟩

section
variable {statement statement' : Parser Stmt} {k k' : Nat}
  (h : Settled DerivesStmt statement statement' k k')
include h

theorem body_settled : Settled DerivesBody (Parser.body statement) (Parser.body statement') k k' where
  ahead := looksAhead_body
  closed _ _ _ hd := hd.closed
  reads ts hts := body_reads (fun us hus => h.reads us (by omega)) ts (Nat.le_refl _)
  reads' ts hts := body_reads (fun us hus => h.reads' us (by omega)) ts (Nat.le_refl _)
  fails ts hts := by
    refine ((h.fails ts hts).map Stmt.body).mono (Nat.le_refl _) fun pre hv => ?_
    refine @Viable.map _ _ pre hv [] ?_
    rintro us ⟨s, hd⟩
    exact ⟨_, derivesBody_iff.mpr ⟨s, hd, rfl⟩⟩

theorem untilBrace_follows : ∀ (b b' n : Nat), b ≤ b' → n ≤ b' + 1 → n ≤ k' → ∀ ts : List Located,
    ts.length ≤ b → ts.length < k → Follows (Parser.untilBrace statement b)
      (Parser.untilBrace statement' b') n (Viable (Closed .rightBrace (Spelt DerivesStmts))) ts := by
  have empty : Viable (Closed .rightBrace (Spelt DerivesStmts)) [] := viable_close ⟨[], .nil⟩
  intro b
  induction b with
  | zero =>
    intro b' n _ _ _ ts hb _
    obtain rfl := List.eq_nil_of_length_eq_zero (Nat.le_zero.mp hb)
    exact .ends empty rfl
  | succ b ih =>
    intro b' n hbb hn hnk ts hb hk
    obtain ⟨c, rfl⟩ : ∃ c, b' = c + 1 := ⟨b' - 1, by omega⟩
    cases ts with
    | nil => exact .ends empty rfl
    | cons found ts =>
      by_cases hf : found.token = .symbol .rightBrace
      · obtain ⟨token, line⟩ := found
        have : token = .symbol .rightBrace := hf
        subst this
        exact .of_ok (untilBrace_close b line ts)
      · have inner : Follows (do
            let first ← statement
            let later ← Parser.untilBrace statement b
            return first :: later : Parser (List Stmt)) (do
            let first ← statement'
            let later ← Parser.untilBrace statement' c
            return first :: later : Parser (List Stmt)) n
            (Viable (Closed .rightBrace (Spelt DerivesStmts))) (found :: ts) := by
          refine h.bind hk hnk (fun _ hv => viable_closed hv fun _ => spelt_stmts) ?_
          intro used s mid hs hd
          have hlen := hd.shorter hs
          have hsum := congrArg List.length hs
          rw [List.length_append] at hsum
          have later := ih c (n - used.length) (by omega) (by omega) (by omega) mid (by omega) (by omega)
          exact .map (later.mono (Nat.le_refl _) fun pre hv => hv.closed_map fun is => spelt_cons hd) _
        exact inner.lookahead (untilBrace_other hf b ts) fun more => untilBrace_other hf c more

end

/-! ## Kinds of statements -/

/-- There are statements. -/
theorem spelt_exit : Spelt DerivesStmt [⟨.keyword .breakKw, 0⟩, ⟨.symbol .semicolon, 0⟩] :=
  ⟨_, .exit⟩

theorem viable_body : Viable (Spelt DerivesBody) [] := by
  obtain ⟨s, hd⟩ := spelt_exit
  exact ⟨_, _, derivesBody_iff.mpr ⟨s, hd, rfl⟩⟩

def InParens (used : List Located) (c : Expr) (_ : List Located) : Prop :=
  ∃ opened cs close, used = ⟨.symbol .leftParen, opened⟩ :: (cs ++ [⟨.symbol .rightParen, close⟩]) ∧
    Derives .range cs c

theorem condition_inParens {expression : Parser Expr} {m : Nat}
    (hexp : ∀ ts, ts.length < m → Reads expression (Derives .range) Level.range.Continues ts)
    {ts : List Located} (hts : ts.length < m) : ReadsBefore (Parser.condition expression) InParens ts := by
  intro c rest
  rw [condition_reads hexp hts]
  constructor
  · rintro ⟨opened, cs, close, rfl, hd⟩
    exact ⟨⟨.symbol .leftParen, opened⟩ :: (cs ++ [⟨.symbol .rightParen, close⟩]), by simp, opened, cs,
      close, rfl, hd⟩
  · rintro ⟨_, rfl, opened, cs, close, rfl, hd⟩
    exact ⟨opened, cs, close, by simp, hd⟩

section
variable {expression expression' : Parser Expr} {m m' : Nat}
  (h : Settled Level.range.Before expression expression' m m')
include h

theorem condition_settled : Settled InParens (Parser.condition expression)
    (Parser.condition expression') m m' where
  ahead := fun _ _ _ _ hp _ => hp
  closed := by
    rintro _ _ _ ⟨opened, cs, close, rfl, -⟩ ⟨line, hlast⟩
    simp [List.getLast?_cons, List.getLast?_append] at hlast
  reads _ hts := condition_inParens h.reads hts
  reads' _ hts := condition_inParens h.reads' hts
  fails ts hts := by
    have inner : ∀ opened pre, Viable (Closed .rightParen (Spelt Level.range.Before)) pre →
        Viable (Spelt InParens) (⟨.symbol .leftParen, opened⟩ :: pre) := by
      intro opened pre hv
      refine @Viable.map _ _ pre hv [_] ?_
      rintro us ⟨cs, close, rfl, c, hd, -⟩
      exact ⟨c, opened, cs, close, rfl, hd⟩
    refine .expect (by simp) (inner 0 [] (viable_closed (viable_level .range) fun _ => id)).of_append ?_
    intro opened rest hs
    subst hs
    exact (enclosed_follows h .rightParen id (Nat.lt_of_succ_lt hts) (by omega) (by simp)).mono
      (Nat.le_refl _) (inner opened)

theorem simple_follows {ts : List Located} (hts : ts.length < m) {n : Nat} (hn : n ≤ m') :
    Follows (Parser.simple expression) (Parser.simple expression') n (Viable (Spelt DerivesStmt)) ts := by
  have alone : ∀ us, Spelt Level.range.Before us → Viable (Spelt DerivesStmt) us := by
    rintro us ⟨e, hd, -⟩
    exact ⟨[⟨.symbol .semicolon, 0⟩], _, .expr hd⟩
  refine h.bind hts hn (fun pre hv => @Viable.bind _ _ pre hv [] alone) fun used left mid hs hd => ?_
  have ended : Viable (Spelt DerivesStmt) (used ++ []) := by
    rw [List.append_nil]
    exact alone used (spelt_of_derives hd.1)
  have hlen := hd.1.shorter hs
  cases mid with
  | nil => exact .ends ended rfl
  | cons found mid =>
    rw [List.length_cons] at hlen
    cases hop : found.token.assignOp? with
    | none =>
      have closing : Follows (do
          Parser.expect .semicolon
          return .expr left left.line : Parser Stmt) (do
          Parser.expect .semicolon
          return .expr left left.line : Parser Stmt) (n - used.length)
          (fun pre => Viable (Spelt DerivesStmt) (used ++ pre)) (found :: mid) :=
        .expect (by simp) ended fun _ _ _ => .pure _
      refine closing.lookahead ?_ fun more => ?_ <;>
      · rw [Parser.peek?_bind]
        dsimp only [List.head?_cons]
        rw [hop]
    | some op =>
      have value := enclosed_follows h .semicolon
        (fun value => Stmt.assign (.ofExpr left) op value found.line)
        (show mid.length < m by omega) (show n - used.length - 1 ≤ m' by omega) (by simp)
      obtain ⟨token, line⟩ := found
      obtain ⟨symbol, rfl, hmem⟩ := assignOp?_iff.mp hop
      refine .cons ?_ (value.mono (Nat.le_refl _) ?_) ?_ fun more _ => ?_
      · rintro htoken
        cases htoken
        simp [assignments] at hmem
      · rintro pre ⟨us, vs, close, hs, v, hv, -⟩
        refine ⟨us, .assign (.ofExpr left) op v line, ?_⟩
        have hstmt : DerivesStmt (used ++ ⟨.symbol symbol, line⟩ :: (vs ++ [⟨.symbol .semicolon, close⟩]))
            (.assign (.ofExpr left) op v line) [] := .assign hd.1 (targetOf_iff.mpr rfl) hmem hv
        rwa [← hs, ← List.cons_append, ← List.append_assoc] at hstmt
      all_goals
        rw [Parser.peek?_bind]
        dsimp only [List.head?_cons]
        rw [hop]
        rfl

section
variable {statement statement' : Parser Stmt} {k k' : Nat}
  (hstmt : Settled DerivesStmt statement statement' k k') (hk : k ≤ m) (hk' : k' ≤ m')
include hstmt hk hk'

theorem conditionLoop_follows (line : Nat) {ts : List Located} (hts : ts.length < k) {n : Nat}
    (hn : n ≤ k') : Follows (Parser.conditionLoop expression statement line)
      (Parser.conditionLoop expression' statement' line) n
      (fun pre => Viable (Spelt DerivesStmt) (⟨.keyword .whileKw, line⟩ :: pre)) ts := by
  have loop : ∀ {used c mid}, InParens used c mid → ∀ pre, Viable (Spelt DerivesBody) pre →
      Viable (Spelt DerivesStmt) (⟨.keyword .whileKw, line⟩ :: (used ++ pre)) := by
    rintro used c mid ⟨opened, cs, close, rfl, hc⟩ pre ⟨us, body, hb⟩
    exact ⟨us, _, by simpa using DerivesStmt.whileLoop hc hb⟩
  refine (condition_settled h).bind (by omega) (by omega) ?_ fun used c mid hs hc => ?_
  · intro pre hv
    refine @Viable.bind _ _ pre hv [_] fun us ⟨c, hc⟩ => ?_
    simpa using loop hc [] viable_body
  · have hsum := congrArg List.length hs
    rw [List.length_append] at hsum
    exact .map (((body_settled hstmt).fails mid (by omega)).mono (by omega) (loop hc)) _

theorem rangeLoop_follows (line : Nat) {ts : List Located} (hts : ts.length < k) {n : Nat}
    (hn : n ≤ k') : Follows (Parser.rangeLoop expression statement line)
      (Parser.rangeLoop expression' statement' line) n
      (fun pre => Viable (Spelt DerivesStmt) (⟨.keyword .forKw, line⟩ :: pre)) ts := by
  have loop : ∀ {rs r} opened iterator nameLine between close, Derives .range rs r →
      ∀ pre, Viable (Spelt DerivesBody) pre →
      Viable (Spelt DerivesStmt) (⟨.keyword .forKw, line⟩ :: ⟨.symbol .leftParen, opened⟩ ::
        ⟨.name iterator, nameLine⟩ :: ⟨.symbol .assign, between⟩ ::
        (rs ++ ⟨.symbol .rightParen, close⟩ :: pre)) := by
    rintro rs r opened iterator nameLine between close hr pre ⟨us, body, hb⟩
    exact ⟨us, _, by simpa using DerivesStmt.forLoop hr hb⟩
  have header : ∀ opened iterator nameLine between pre, Viable (Spelt Level.range.Before) pre →
      Viable (Spelt DerivesStmt) (⟨.keyword .forKw, line⟩ :: ⟨.symbol .leftParen, opened⟩ ::
        ⟨.name iterator, nameLine⟩ :: ⟨.symbol .assign, between⟩ :: pre) := by
    intro opened iterator nameLine between pre hv
    refine @Viable.bind _ _ pre hv [_, _, _, _] fun us ⟨r, hr, _⟩ => ?_
    exact (loop opened iterator nameLine between 0 hr [] viable_body).of_append
  refine .expect (by simp) (header 0 "" 0 0 [] (viable_level .range)).of_append fun opened ts₁ h₁ => ?_
  refine .identifier (header opened "" 0 0 [] (viable_level .range)).of_append
    fun iterator nameLine ts₂ h₂ => ?_
  refine .expect (by simp) (header opened iterator nameLine 0 [] (viable_level .range)).of_append
    fun between ts₃ h₃ => ?_
  subst h₁ h₂ h₃
  simp only [List.length_cons] at hts
  refine h.bind (by omega) (by omega) (header opened iterator nameLine between) fun rs r mid hs hr => ?_
  refine .expect (by simp) ?_ fun close ts₄ h₄ => ?_
  · rw [List.append_nil]
    exact (loop opened iterator nameLine between 0 hr.1 [] viable_body).of_append
  · subst h₄
    have hlen := hr.1.shorter hs
    rw [List.length_cons] at hlen
    have body := (body_settled hstmt).fails ts₄ (by omega)
    exact .map (body.mono (by omega) (loop opened iterator nameLine between close hr.1)) _

theorem branch_follows (line : Nat) {ts : List Located} (hts : ts.length < k) {n : Nat}
    (hn : n ≤ k') : Follows (Parser.branch expression statement line)
      (Parser.branch expression' statement' line) n
      (fun pre => Viable (Spelt DerivesStmt) (⟨.keyword .ifKw, line⟩ :: pre)) ts := by
  have single : ∀ {used c mid}, InParens used c mid → ∀ pre, Viable (Spelt DerivesBody) pre →
      Viable (Spelt DerivesStmt) (⟨.keyword .ifKw, line⟩ :: (used ++ pre)) := by
    rintro used c mid ⟨opened, cs, close, rfl, hc⟩ pre ⟨us, body, hb⟩
    exact ⟨us, _, by simpa using DerivesStmt.ifThen hc hb id⟩
  have double : ∀ {used c mid used' first between mid'}, InParens used c mid →
      DerivesBody used' first (⟨.keyword .elseKw, between⟩ :: mid') →
      ∀ pre, Viable (Spelt DerivesBody) pre → Viable (Spelt DerivesStmt) (⟨.keyword .ifKw, line⟩ ::
        (used ++ (used' ++ ⟨.keyword .elseKw, between⟩ :: pre))) := by
    rintro used c mid used' first between mid' ⟨opened, cs, close, rfl, hc⟩ hb pre ⟨us, body, hb'⟩
    exact ⟨us, _, by simpa using DerivesStmt.ifElse hc (hb.before fun _ => rfl) hb'⟩
  refine (condition_settled h).bind (by omega) (by omega) ?_ fun used c mid hs hc => ?_
  · intro pre hv
    refine @Viable.bind _ _ pre hv [_] fun us ⟨c, hc⟩ => ?_
    simpa using single hc [] viable_body
  · have hsum := congrArg List.length hs
    rw [List.length_append] at hsum
    have body := body_settled hstmt
    refine body.bind (by omega) (by omega) (single hc) fun used' first mid' hs' hb => ?_
    have hsum' := congrArg List.length hs'
    rw [List.length_append] at hsum'
    cases mid' with
    | nil => exact .of_ok rfl
    | cons found mid' =>
      obtain ⟨token, between⟩ := found
      rw [List.length_cons] at hsum'
      cases token with
      | keyword keyword =>
        cases keyword with
        | elseKw =>
          refine .cons (by simp) (.map ((body.fails mid' (by omega)).mono (by omega) (double hc hb)) _) rfl
            fun _ _ => rfl
        | _ => exact .of_ok rfl
      | _ => exact .of_ok rfl

end

end

/-! ## Any statement -/

theorem jumpEnd_follows (jump : Jump) (line : Nat) {V : List Located → Prop} (hV : V []) {n : Nat}
    {ts : List Located} : Follows (Parser.jumpEnd jump line) (Parser.jumpEnd jump line) n V ts :=
  .expect (by simp) hV fun _ _ _ => .pure _

theorem statement_follows {n n' : Nat} (hn : n ≤ n')
    (h : Settled DerivesStmt (Parser.statement n) (Parser.statement n') (n + 1) (n' + 1))
    {ts : List Located} (hts : ts.length ≤ n + 1) :
    Follows (Parser.statement (n + 1)) (Parser.statement (n' + 1)) (n' + 2)
      (Viable (Spelt DerivesStmt)) ts := by
  have hexp := expression_settled (n + 1) (n' + 1) (by omega)
  cases ts with
  | nil => exact .ends ⟨_, spelt_exit⟩ rfl
  | cons found ts =>
    have hlen : ts.length < n + 1 := hts
    cases hh : found.token.heads with
    | false =>
      refine (simple_follows hexp (Nat.lt_succ_of_le hts) (Nat.le_refl _)).lookahead ?_ fun more => ?_
      · exact statement_other hh n ts
      · exact statement_other hh n' more
    | true =>
      obtain ⟨token, line⟩ := found
      cases token with
      | symbol sym =>
        cases sym with
        | leftBrace =>
          have braces := (untilBrace_follows h n n' (n' + 1) hn (by omega) (by omega) ts (by omega)
            hlen).map Stmt.block
          refine .cons (by simp) (braces.mono (Nat.le_refl _) fun pre hv => ?_) rfl fun _ _ => rfl
          refine @Viable.map _ _ pre hv [_] ?_
          rintro us ⟨is, close, rfl, body, hd⟩
          exact ⟨_, .block (hd.before fun helse => by cases helse)⟩
        | _ => cases hh
      | keyword keyword =>
        cases keyword with
        | ifKw =>
          exact .cons (by simp) (branch_follows hexp h (by omega) (by omega) line hlen (by omega)) rfl
            fun _ _ => rfl
        | whileKw =>
          exact .cons (by simp) (conditionLoop_follows hexp h (by omega) (by omega) line hlen (by omega))
            rfl fun _ _ => rfl
        | forKw =>
          exact .cons (by simp) (rangeLoop_follows hexp h (by omega) (by omega) line hlen (by omega)) rfl
            fun _ _ => rfl
        | breakKw =>
          exact .cons (by simp) (jumpEnd_follows .exit line ⟨[⟨.symbol .semicolon, 0⟩], _, .exit⟩) rfl
            fun _ _ => rfl
        | continueKw =>
          exact .cons (by simp) (jumpEnd_follows .next line ⟨[⟨.symbol .semicolon, 0⟩], _, .next⟩) rfl
            fun _ _ => rfl
        | returnKw =>
          have value := enclosed_follows hexp .semicolon (fun value => Stmt.ret value line)
            (Nat.lt_succ_of_lt hlen) (Nat.le_refl _) (by simp)
          refine .cons (by simp) (value.mono (by omega) fun pre hv => ?_) rfl fun _ _ => rfl
          refine @Viable.map _ _ pre hv [_] ?_
          rintro us ⟨is, close, rfl, e, hd, -⟩
          exact ⟨_, .ret hd⟩
        | _ => cases hh
      | _ => cases hh

theorem statement_settled : ∀ n n' : Nat, n ≤ n' →
    Settled DerivesStmt (Parser.statement n) (Parser.statement n') (n + 1) (n' + 1) := by
  intro n
  induction n with
  | zero =>
    intro n' _
    refine ⟨looksAhead_stmt, fun _ _ _ hd => hd.closed,
      fun ts hts => statement_reads 0 ts (Nat.le_of_lt_succ hts),
      fun ts hts => statement_reads n' ts (Nat.le_of_lt_succ hts), fun ts hts => ?_⟩
    obtain rfl := List.eq_nil_of_length_eq_zero (Nat.lt_one_iff.mp hts)
    exact .ends ⟨_, spelt_exit⟩ rfl
  | succ n ih =>
    intro n' hn
    obtain ⟨c, rfl⟩ : ∃ c, n' = c + 1 := ⟨n' - 1, by omega⟩
    exact ⟨looksAhead_stmt, fun _ _ _ hd => hd.closed,
      fun ts hts => statement_reads (n + 1) ts (Nat.le_of_lt_succ hts),
      fun ts hts => statement_reads (c + 1) ts (Nat.le_of_lt_succ hts),
      fun ts hts => statement_follows (by omega) (ih c (by omega)) (Nat.le_of_lt_succ hts)⟩

/-! ## Programs -/

theorem statements_follows : ∀ n n' : Nat, n ≤ n' → ∀ ts : List Located, ts.length ≤ n →
    Follows (Parser.statements n) (Parser.statements n') (n' + 1) (Viable (Spelt DerivesStmts)) ts := by
  intro n
  induction n with
  | zero =>
    intro n' _ ts hts
    obtain rfl := List.eq_nil_of_length_eq_zero (Nat.le_zero.mp hts)
    exact .of_ok (statements_nil 0)
  | succ n ih =>
    intro n' hn ts hts
    obtain ⟨c, rfl⟩ : ∃ c, n' = c + 1 := ⟨n' - 1, by omega⟩
    cases ts with
    | nil => exact .of_ok (statements_nil (n + 1))
    | cons found ts =>
      have inner : Follows (do
          let first ← Parser.statement (n + 1)
          let later ← Parser.statements n
          return first :: later : Parser Program) (do
          let first ← Parser.statement (c + 1)
          let later ← Parser.statements c
          return first :: later : Parser Program) (c + 2) (Viable (Spelt DerivesStmts)) (found :: ts) := by
        refine (statement_settled (n + 1) (c + 1) hn).bind (by omega) (Nat.le_refl _) ?_ ?_
        · exact fun pre hv => @Viable.map _ _ pre hv [] fun us => spelt_stmts
        · intro used s mid hs hd
          have hlen := hd.shorter hs
          have hsum := congrArg List.length hs
          rw [List.length_append] at hsum
          have later := ih c (by omega) mid (by omega)
          exact .map (later.mono (by omega) fun pre hv => hv.map fun us => spelt_cons hd) _
      exact inner.lookahead (statements_cons n found ts) fun more => statements_cons c found more

theorem parseProgram_eq_error {ts : List Located} {e : SyntaxError} :
    parseProgram ts = .error e ↔ ∃ rest, Parser.statements ts.length ts = .error e rest := by
  unfold parseProgram Parser.runOn
  cases Parser.statements ts.length ts with
  | ok p rest => simp
  | error e' rest => simp

/-- **Incomplete input.** The tokens are found to end too early exactly if they are
no program but the beginning of one. A token that cannot stand where it is found is
reported alike whatever follows the tokens. -/
theorem parseProgram_incomplete :
    (∀ ts, parseProgram ts = .error .endOfInput ↔
      (∀ p, parseProgram ts ≠ .ok p) ∧ ∃ more p, parseProgram (ts ++ more) = .ok p) ∧
    ∀ ts found, parseProgram ts = .error (.unexpectedToken found) →
      ∀ more, parseProgram (ts ++ more) = .error (.unexpectedToken found) := by
  have stable : ∀ ts found, parseProgram ts = .error (.unexpectedToken found) →
      ∀ more, parseProgram (ts ++ more) = .error (.unexpectedToken found) := by
    intro ts found he more
    obtain ⟨rest, he⟩ := parseProgram_eq_error.mp he
    have hlen : ts.length ≤ (ts ++ more).length := by simp
    cases statements_follows ts.length (ts ++ more).length hlen ts (Nat.le_refl _) _ rest he with
    | @stuck pre first _ _ _ _ hstuck =>
      rw [List.append_assoc, List.cons_append] at hstuck ⊢
      exact parseProgram_eq_error.mpr ⟨_, hstuck _ (Nat.lt_succ_self _)⟩
  refine ⟨fun ts => ⟨fun he => ⟨fun p hp => ?_, ?_⟩, ?_⟩, stable⟩
  · rw [hp] at he
    cases he
  · obtain ⟨rest, he⟩ := parseProgram_eq_error.mp he
    cases statements_follows ts.length ts.length (Nat.le_refl _) ts (Nat.le_refl _) _ rest he with
    | ends hv =>
      obtain ⟨more, p, hp⟩ := hv
      exact ⟨more, p, parseProgram_eq_ok.mpr hp⟩
  · rintro ⟨hnone, more, p, hp⟩
    cases he : parseProgram ts with
    | ok p' => exact absurd he (hnone p')
    | error e =>
      cases e with
      | endOfInput => rfl
      | unexpectedToken found =>
        rw [stable ts found he more] at hp
        cases hp

def emptySubscript : List Located :=
  [⟨.name "a", 1⟩, ⟨.symbol .leftBracket, 1⟩, ⟨.symbol .rightBracket, 2⟩]

theorem emptySubscript_incomplete :
    (∃ more p, parseProgram (emptySubscript.take 2 ++ more) = .ok p) ∧
    ∀ more, parseProgram (emptySubscript ++ more) =
      .error (.unexpectedToken ⟨.symbol .rightBracket, 1⟩) :=
  ⟨((parseProgram_incomplete.1 (emptySubscript.take 2)).mp rfl).2,
    parseProgram_incomplete.2 emptySubscript _ rfl⟩

end MatrixScript
