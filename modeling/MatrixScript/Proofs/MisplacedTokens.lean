import MatrixScript.Proofs.IncompleteInput

/-!
# Misplaced tokens

A token that stops the parser is the first with which the tokens cannot be completed
any more (`parseProgram_offender`). It is reported with its own line, but for the
closing bracket of a subscript without an index: that one is reported with the line of
the opening bracket.
-/

namespace MatrixScript

theorem statements_stuck {ts rest : List Located} {reported : Located}
    (h : Parser.statements ts.length ts = .error (.unexpectedToken reported) rest) :
    ∃ pre found, ts = pre ++ found :: rest ∧ reported = ⟨found.token, reportLine pre found⟩ ∧
      Viable (Spelt DerivesStmts) pre ∧ ∀ more p, ¬ DerivesProgram (pre ++ found :: more) p := by
  have stuckAt : ∀ n, ts.length ≤ n → ∃ pre found, ts = pre ++ found :: rest ∧
      reported = ⟨found.token, reportLine pre found⟩ ∧ Viable (Spelt DerivesStmts) pre ∧
      ∀ more, (pre ++ found :: more).length < n + 1 →
        Parser.statements n (pre ++ found :: more) = .error (.unexpectedToken reported) more := by
    intro n hn
    cases statements_follows ts.length n hn ts (Nat.le_refl _) _ rest h with
    | @stuck pre found _ _ hviable hreported hstuck =>
      exact ⟨pre, found, rfl, hreported, hviable, hstuck⟩
  obtain ⟨pre, found, rfl, hreported, hviable, -⟩ := stuckAt ts.length (Nat.le_refl _)
  refine ⟨pre, found, rfl, hreported, hviable, fun more p hp => ?_⟩
  -- A budget for both lists. The parser stops at the same token, since it leaves the same tokens.
  let n := (pre ++ found :: rest).length + (pre ++ found :: more).length
  obtain ⟨pre', found', hts, -, -, hstuck⟩ := stuckAt n (Nat.le_add_right _ _)
  have hlength : pre.length = pre'.length := by simpa using congrArg List.length hts
  obtain ⟨rfl, hrest⟩ := List.append_inj hts hlength
  cases hrest
  have hreads := (statements_reads n (pre ++ found :: more) (Nat.le_add_left _ _) p []).mpr ⟨rfl, hp⟩
  rw [hstuck more (Nat.lt_succ_of_le (Nat.le_add_left _ _))] at hreads
  cases hreads

/-- **Misplaced tokens.** A token that stops the parser is the first with which the tokens
cannot be completed to a program. The report names its kind and its line, but for a
bracket that closes directly behind one that opens: it names the line of that. -/
theorem parseProgram_offender {ts : List Located} {reported : Located}
    (h : parseProgram ts = .error (.unexpectedToken reported)) :
    ∃ pre found rest, ts = pre ++ found :: rest ∧
      reported = ⟨found.token, reportLine pre found⟩ ∧
      (¬ (EndsOpen pre ∧ found.token = .symbol .rightBracket) → reported = found) ∧
      (∃ more p, parseProgram (pre ++ more) = .ok p) ∧
      ∀ more p, parseProgram (pre ++ found :: more) ≠ .ok p := by
  obtain ⟨rest, he⟩ := parseProgram_eq_error.mp h
  obtain ⟨pre, found, hts, rfl, ⟨more, p, hp⟩, hhopeless⟩ := statements_stuck he
  refine ⟨pre, found, rest, hts, rfl, fun hapart => ?_, ⟨more, p, parseProgram_eq_ok.mpr hp⟩,
    fun more p hp => hhopeless more p (parseProgram_eq_ok.mp hp)⟩
  rw [reportLine_of_apart hapart]

def danglingComma : List Located :=
  [⟨.name "a", 1⟩, ⟨.symbol .leftBracket, 1⟩, ⟨.int 1, 1⟩, ⟨.symbol .comma, 1⟩,
    ⟨.symbol .rightBracket, 2⟩]

theorem danglingComma_offender :
    parseProgram danglingComma = .error (.unexpectedToken ⟨.symbol .rightBracket, 2⟩) ∧
    ∃ pre found rest, danglingComma = pre ++ found :: rest ∧
      ⟨.symbol .rightBracket, 2⟩ = Located.mk found.token (reportLine pre found) ∧
      (¬ (EndsOpen pre ∧ found.token = .symbol .rightBracket) → ⟨.symbol .rightBracket, 2⟩ = found) ∧
      (∃ more p, parseProgram (pre ++ more) = .ok p) ∧
      ∀ more p, parseProgram (pre ++ found :: more) ≠ .ok p :=
  ⟨rfl, parseProgram_offender rfl⟩

/-- A subscript without an index that is closed on the next line: no token has both the
kind and the line that are reported. -/
theorem emptySubscript_misreported :
    parseProgram emptySubscript = .error (.unexpectedToken ⟨.symbol .rightBracket, 1⟩) ∧
    ∀ found ∈ emptySubscript,
      ¬ (found.token.kind = (Token.symbol .rightBracket).kind ∧ found.line = 1) :=
  ⟨rfl, by decide⟩

end MatrixScript
