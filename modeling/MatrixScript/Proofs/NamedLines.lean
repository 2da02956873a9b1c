import MatrixScript.Proofs.Findings
import MatrixScript.Proofs.MisplacedTokens
import MatrixScript.Proofs.Stepwise
import MatrixScript.Token.Scan

/-!
# Lines in messages

The nodes of a tree have lines of the tokens that spell it (`parseProgram_lines`), and
checking as well as running names no others. So whatever is reported of a source is on
the line of one of its tokens (`reported_lines_exist`).
-/

namespace MatrixScript

/-! ## Syntax errors -/

theorem reportLine_mem (pre rest : List Located) (found : Located) :
    reportLine pre found ∈ (pre ++ found :: rest).map Located.line := by
  rw [List.map_append, List.map_cons, List.mem_append]
  unfold reportLine
  split
  · rename_i line hlast _
    exact .inl (List.mem_map_of_mem (List.mem_of_getLast? hlast))
  · exact .inr List.mem_cons_self

/-! ## Trees -/

theorem allLines_vectors (rows : List Row) : allLines (rows.map .vector) = rowsLines rows := by
  induction rows with
  | nil => rfl
  | cons row rows ih =>
    cases row
    rw [List.map_cons, allLines, Expr.lines, ih, rowsLines, List.cons_append]

section
variable {K : Nat → Prop}

theorem targetOf_lines {left : Expr} {target : Target} (h : Target.Of left target)
    (hleft : ∀ k ∈ left.lines, K k) : ∀ k ∈ target.lines, K k := by
  cases h with
  | name => rwa [Expr.lines] at hleft
  | @element array arrayLine indices line =>
    obtain ⟨elements, l⟩ := indices
    rw [Expr.lines, Expr.lines, Expr.lines, List.forall_mem_cons, List.forall_mem_append] at hleft
    rw [Target.lines, List.forall_mem_cons]
    exact ⟨hleft.1, hleft.2.2⟩
  | invalid _ _ => exact hleft

mutual

theorem Derives.lines {level : Level} {ts : List Located} {e : Expr} (h : Derives level ts e)
    (hts : ∀ found ∈ ts, K found.line) : ∀ k ∈ e.lines, K k := by
  match h with
  | .tighten _ hd => exact hd.lines hts
  | .bounds ha hb | .operation _ _ ha hb =>
    rw [List.forall_mem_append, List.forall_mem_cons] at hts
    rw [Expr.lines, List.forall_mem_cons, List.forall_mem_append]
    exact ⟨hts.2.1, ha.lines hts.1, hb.lines hts.2.2⟩
  | .negate ha =>
    rw [List.forall_mem_cons] at hts
    rw [Expr.lines, List.forall_mem_cons]
    exact ⟨hts.1, ha.lines hts.2⟩
  | .transpose ha =>
    rw [List.forall_mem_append, List.forall_mem_singleton] at hts
    rw [Expr.lines, List.forall_mem_cons]
    exact ⟨hts.2, ha.lines hts.1⟩
  | .subscript ha hes =>
    rw [List.forall_mem_append, List.forall_mem_cons, List.forall_mem_append] at hts
    obtain ⟨hoperand, hline, hindices, -⟩ := hts
    rw [Expr.lines, Expr.lines, List.forall_mem_cons, List.forall_mem_append, List.forall_mem_cons]
    exact ⟨hline, ha.lines hoperand, hline, hes.lines hindices⟩
  | .int | .real | .str | .name =>
    rw [List.forall_mem_singleton] at hts
    rwa [Expr.lines, List.forall_mem_singleton]
  | .paren hd =>
    rw [List.forall_mem_cons, List.forall_mem_append] at hts
    exact hd.lines hts.2.1
  | .emptyVector | .printNothing =>
    rw [List.forall_mem_cons] at hts
    rw [Expr.lines, allLines, List.forall_mem_singleton]
    exact hts.1
  | .vector hes _ =>
    rw [List.forall_mem_cons, List.forall_mem_append] at hts
    rw [Expr.lines, List.forall_mem_cons]
    exact ⟨hts.1, hes.lines hts.2.1⟩
  | .vectors hes =>
    rw [List.forall_mem_cons, List.forall_mem_append] at hts
    rw [Expr.lines, List.forall_mem_cons, ← allLines_vectors]
    exact ⟨hts.1, hes.lines hts.2.1⟩
  | .matrix hrows _ =>
    rw [List.forall_mem_cons, List.forall_mem_append] at hts
    rw [Expr.lines, List.forall_mem_cons]
    exact ⟨hts.1, hrows.lines hts.2.1 hts.1⟩
  | .print hes =>
    rw [List.forall_mem_cons, List.forall_mem_cons, List.forall_mem_append] at hts
    rw [Expr.lines, List.forall_mem_cons]
    exact ⟨hts.1, hes.lines hts.2.2.1⟩
  | .sized _ hd =>
    rw [List.forall_mem_cons, List.forall_mem_cons, List.forall_mem_append] at hts
    rw [Expr.lines, allLines, allLines, List.append_nil, List.forall_mem_cons]
    exact ⟨hts.1, hd.lines hts.2.2.1⟩

theorem DerivesItems.lines {ts : List Located} {es : List Expr} (h : DerivesItems ts es)
    (hts : ∀ found ∈ ts, K found.line) : ∀ k ∈ allLines es, K k := by
  match h with
  | .last hd =>
    rw [allLines, allLines, List.append_nil]
    exact hd.lines hts
  | .comma hd hes =>
    rw [List.forall_mem_append, List.forall_mem_cons] at hts
    rw [allLines, List.forall_mem_append]
    exact ⟨hd.lines hts.1, hes.lines hts.2.2⟩

/-- All rows have the line of the bracket that opens them. -/
theorem DerivesRows.lines {ts : List Located} {rows : List (List Expr)} {line : Nat}
    (h : DerivesRows ts rows) (hts : ∀ found ∈ ts, K found.line) (hline : K line) :
    ∀ k ∈ rowsLines (rows.map (Row.mk · line)), K k := by
  match h with
  | .last hes =>
    rw [List.map_singleton, rowsLines, rowsLines, List.append_nil, List.forall_mem_cons]
    exact ⟨hline, hes.lines hts⟩
  | .semicolon hes hrows =>
    rw [List.forall_mem_append, List.forall_mem_cons] at hts
    rw [List.map_cons, rowsLines, List.forall_mem_cons, List.forall_mem_append]
    exact ⟨hline, hes.lines hts.1, hrows.lines hts.2.2 hline⟩

end

mutual

theorem DerivesStmt.lines {ts rest : List Located} {s : Stmt} (h : DerivesStmt ts s rest)
    (hts : ∀ found ∈ ts, K found.line) : ∀ k ∈ s.lines, K k := by
  match h with
  | .block hds =>
    rw [List.forall_mem_cons, List.forall_mem_append] at hts
    rw [Stmt.lines]
    exact hds.lines hts.2.1
  | .ifThen hc hb _ | .whileLoop hc hb =>
    rw [List.forall_mem_cons, List.forall_mem_cons, List.forall_mem_append, List.forall_mem_cons] at hts
    obtain ⟨hline, -, hcs, -, hbody⟩ := hts
    rw [Stmt.lines, List.forall_mem_cons, List.forall_mem_append]
    exact ⟨hline, hc.lines hcs, hb.lines hbody⟩
  | .ifElse hc hb ho =>
    rw [List.forall_mem_cons, List.forall_mem_cons, List.forall_mem_append, List.forall_mem_cons,
      List.forall_mem_append, List.forall_mem_cons] at hts
    obtain ⟨hline, -, hcs, -, hbody, -, hother⟩ := hts
    rw [Stmt.lines, List.forall_mem_cons, List.forall_mem_append, List.forall_mem_append]
    exact ⟨hline, hc.lines hcs, hb.lines hbody, ho.lines hother⟩
  | .forLoop hr hb =>
    rw [List.forall_mem_cons, List.forall_mem_cons, List.forall_mem_cons, List.forall_mem_cons,
      List.forall_mem_append, List.forall_mem_cons] at hts
    obtain ⟨hline, -, -, -, hrange, -, hbody⟩ := hts
    rw [Stmt.lines, List.forall_mem_cons, List.forall_mem_append]
    exact ⟨hline, hr.lines hrange, hb.lines hbody⟩
  | .exit | .next =>
    rw [List.forall_mem_cons] at hts
    rw [Stmt.lines, List.forall_mem_singleton]
    exact hts.1
  | .ret hd =>
    rw [List.forall_mem_cons, List.forall_mem_append] at hts
    rw [Stmt.lines, List.forall_mem_cons]
    exact ⟨hts.1, hd.lines hts.2.1⟩
  | .assign hl ht _ hv =>
    rw [List.forall_mem_append, List.forall_mem_cons, List.forall_mem_append] at hts
    obtain ⟨hleft, hline, hvalue, -⟩ := hts
    rw [Stmt.lines, List.forall_mem_cons, List.forall_mem_append]
    exact ⟨hline, targetOf_lines ht (hl.lines hleft), hv.lines hvalue⟩
  | @DerivesStmt.expr _ e _ _ hd =>
    rw [List.forall_mem_append] at hts
    have hlines := hd.lines hts.1
    rw [Stmt.lines, List.forall_mem_cons]
    exact ⟨hlines _ e.line_mem_lines, hlines⟩

theorem DerivesBody.lines {ts rest : List Located} {body : List Stmt} (h : DerivesBody ts body rest)
    (hts : ∀ found ∈ ts, K found.line) : ∀ k ∈ stmtsLines body, K k := by
  match h with
  | .braces hd =>
    have hlines := hd.lines hts
    rwa [Stmt.lines] at hlines
  | .single hd _ =>
    rw [stmtsLines, stmtsLines, List.append_nil]
    exact hd.lines hts

theorem DerivesStmts.lines {ts rest : List Located} {body : List Stmt} (h : DerivesStmts ts body rest)
    (hts : ∀ found ∈ ts, K found.line) : ∀ k ∈ stmtsLines body, K k := by
  match h with
  | .nil => exact fun _ hk => nomatch hk
  | .cons hd hds =>
    rw [List.forall_mem_append] at hts
    rw [stmtsLines, List.forall_mem_append]
    exact ⟨hd.lines hts.1, hds.lines hts.2⟩

end

end

/-- Every line in a program that was read is that of a token. -/
theorem parseProgram_lines {ts : List Located} {p : Program} (h : parseProgram ts = .ok p) :
    ∀ k ∈ stmtsLines p, k ∈ ts.map Located.line :=
  (parseProgram_eq_ok.mp h).lines fun _ hfound => List.mem_map_of_mem hfound

/-! ## Runs -/

def Fault.On (K : Nat → Prop) : Fault → Prop
  | atLine line _ => K line
  | output _ => True

def Stop.On (K : Nat → Prop) : Stop → Prop
  | fault f => f.On K
  | outOfFuel => True

namespace Exec

def StopsOn (K : Nat → Prop) {α : Type} (c : Exec α) : Prop :=
  ∀ m : Machine, Ends (c m) (fun _ _ => True) fun stop _ => stop.On K

variable {K : Nat → Prop}

theorem stopsOn_eval {α : Type} {x : Eval α}
    (h : ∀ m : Machine, Ends (x m) (fun _ _ => True) fun f _ => f.On K) : StopsOn K (eval x) :=
  fun m => (ends_eval x m).mpr (h m)

theorem stopsOn_sink {c : EStateM Fault Sink Unit}
    (h : ∀ s, Ends (c s) (fun _ _ => True) fun f _ => ∃ failure, f = .output failure) :
    StopsOn K (eval (Eval.onSink c)) := by
  refine stopsOn_eval fun m => (Eval.ends_onSink c m).mpr ((h m.sink).mono (fun _ _ _ => trivial) ?_)
  rintro _ _ ⟨failure, rfl⟩
  trivial

theorem stopsOn_stepwise : Stepwise K (@StopsOn K) where
  pure := fun _ _ => trivial
  bind := fun hc hnext m => by
    rw [ends_bind]
    exact (hc m).mono (fun a m' _ => hnext a m') fun _ _ h => h
  read := fun hline f => stopsOn_eval fun m => by
    unfold Eval.read
    cases f m.memory m.allocator with
    | ok a => trivial
    | error cause => exact hline
  write := fun text => stopsOn_sink (Sink.write_faults text)
  flush := stopsOn_sink Sink.flush_faults
  assign := fun _ _ => stopsOn_eval fun _ => trivial
  onBinding := fun hline name c => stopsOn_eval fun m => by
    unfold Eval.onBinding
    cases m.memory.lookup? name with
    | none => exact hline
    | some value =>
      dsimp only
      cases c value with
      | ok u after => trivial
      | error cause after => exact hline
  iterator := fun _ _ _ => trivial
  inFrame := fun kind hc m => (ends_inFrame kind _ m).mpr (hc _)
  jump := fun hline j m => by
    unfold jump
    split
    · trivial
    · exact hline
  outOfFuel := fun _ => trivial

end Exec

/-- **Lines in messages.** The line of a syntax error, of every diagnostic that a checker
adds for the program, and of every fault with which a run ends, unless it is one of the
sink, is the line of a token of the source. -/
theorem reported_lines_exist (source : String) :
    let tokens := (scan source).tokens
    (∀ reported, parseProgram tokens = .error (.unexpectedToken reported) →
      reported.line ∈ tokens.map Located.line) ∧
    ∀ p, parseProgram tokens = .ok p →
      (∀ c : Checker, ∃ found, (c.check p).diagnostics = c.diagnostics ++ found ∧
        ∀ d ∈ found, d.line ∈ tokens.map Located.line) ∧
      ∀ (fuel : Nat) (m m' : Machine) (line : Nat) (cause : Cause),
        Exec.program fuel p m = .error (.fault (.atLine line cause)) m' →
          line ∈ tokens.map Located.line := by
  intro tokens
  refine ⟨fun reported he => ?_, fun p hp => ⟨fun c => ?_, fun fuel m m' line cause hr => ?_⟩⟩
  · obtain ⟨rest, he⟩ := parseProgram_eq_error.mp he
    obtain ⟨pre, found, hts, rfl, -, -⟩ := statements_stuck he
    rw [hts]
    exact reportLine_mem pre rest found
  · have hfinds := checkStmts_finds (parseProgram_lines hp) c.table
    exact ⟨_, rfl, fun d hd => (hfinds d hd).1⟩
  · have hstops := Exec.stopsOn_stepwise.program fuel (parseProgram_lines hp) m
    rw [hr] at hstops
    exact hstops

/-- An index behind the end on the line after its bracket, and a bracket closed on the
line after it was opened. -/
theorem lines_of_brackets_exist :
    let source := "a = [1\n, 2];\nb =\n a[\n2];"
    let p : Program :=
      [.assign (.name "a" 1) .set (.vector ⟨[.int 1 1, .int 2 2], 1⟩) 1,
        .assign (.name "b" 3) .set
          (.binary .subscript (.name "a" 4) (.vector ⟨[.int 2 5], 4⟩) 4) 3]
    parseProgram (scan source).tokens = .ok p ∧ (Checker.fresh.check p).diagnostics = [] ∧
      (∃ m', Exec.program 0 p .unlimited =
        .error (.fault (.atLine 4 (.indexOutOfBounds 0 2 2))) m') ∧
      4 ∈ (scan source).tokens.map Located.line ∧
      parseProgram (scan "m[\n];").tokens =
        .error (.unexpectedToken ⟨.symbol .rightBracket, 1⟩) ∧
      1 ∈ (scan "m[\n];").tokens.map Located.line := by
  intro source p
  have htokens : (scan source).tokens = [⟨.name "a", 1⟩, ⟨.symbol .assign, 1⟩,
      ⟨.symbol .leftBracket, 1⟩, ⟨.int 1, 1⟩, ⟨.symbol .comma, 2⟩, ⟨.int 2, 2⟩,
      ⟨.symbol .rightBracket, 2⟩, ⟨.symbol .semicolon, 2⟩, ⟨.name "b", 3⟩, ⟨.symbol .assign, 3⟩,
      ⟨.name "a", 4⟩, ⟨.symbol .leftBracket, 4⟩, ⟨.int 2, 5⟩, ⟨.symbol .rightBracket, 5⟩,
      ⟨.symbol .semicolon, 5⟩] := by decide +kernel
  have hempty : (scan "m[\n];").tokens = [⟨.name "m", 1⟩, ⟨.symbol .leftBracket, 1⟩,
      ⟨.symbol .rightBracket, 2⟩, ⟨.symbol .semicolon, 2⟩] := by decide +kernel
  have hparse : parseProgram (scan source).tokens = .ok p := by rw [htokens]; rfl
  have hrejected : parseProgram (scan "m[\n];").tokens =
      .error (.unexpectedToken ⟨.symbol .rightBracket, 1⟩) := by rw [hempty]; rfl
  have hrun : ∃ m', Exec.program 0 p .unlimited =
      .error (.fault (.atLine 4 (.indexOutOfBounds 0 2 2))) m' := ⟨_, rfl⟩
  obtain ⟨m', hr⟩ := hrun
  exact ⟨hparse, rfl, ⟨m', hr⟩, ((reported_lines_exist source).2 p hparse).2 0 _ m' 4 _ hr,
    hrejected, (reported_lines_exist "m[\n];").1 _ hrejected⟩

end MatrixScript
