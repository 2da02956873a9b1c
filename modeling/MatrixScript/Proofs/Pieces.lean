import MatrixScript.Proofs.Fuel
import MatrixScript.Proofs.IncompleteInput
import MatrixScript.Proofs.Truncation

/-!
# Programs in pieces

A program may come in pieces, each complete in itself. Whether they are read, checked
and run in turn or all at once is the same (`pieces_agree`), as long as the sink does
not fail: what is flushed after every piece is flushed only once after the whole.
-/

namespace MatrixScript

/-! ## Reading -/

theorem DerivesStmts.append {ts us rest : List Located} {first second : List Stmt}
    (hfirst : DerivesStmts ts first (us ++ rest)) (hsecond : DerivesStmts us second rest) :
    DerivesStmts (ts ++ us) (first ++ second) rest := by
  match hfirst with
  | .nil => exact hsecond
  | .cons hd hds =>
    rw [List.append_assoc]
    rw [← List.append_assoc] at hd
    exact .cons hd (hds.append hsecond)

/-- No program starts with an `else`, so none goes on with the last statement of another. -/
theorem derivesProgram_append {ts us : List Located} {first second : Program}
    (hfirst : DerivesProgram ts first) (hsecond : DerivesProgram us second) :
    DerivesProgram (ts ++ us) (first ++ second) := by
  have helse : ¬ Starts (· = .keyword .elseKw) (us ++ []) := derivesStmts_not_else hsecond id
  exact (hfirst.before fun h => absurd h helse).append hsecond

/-! ## Checking -/

theorem Report.bind_bind {α β γ : Type} (r : Report α) (f : α → Report β) (g : β → Report γ) :
    r >>= f >>= g = r >>= fun a => f a >>= g := by
  show Report.mk _ _ = Report.mk _ _
  simp only [diagnostics_bind, result_bind, List.append_assoc]

theorem checkStmts_append (first second : List Stmt) (table : Table) :
    checkStmts (first ++ second) table = (do
      let table ← checkStmts first table
      checkStmts second table) := by
  induction first generalizing table with
  | nil => rfl
  | cons s first ih => simp only [List.cons_append, checkStmts, Report.bind_bind, ih]

theorem check_append (c : Checker) (first second : Program) :
    (c.check first).check second = c.check (first ++ second) := by
  unfold Checker.check
  simp only [checkStmts_append, Report.result_bind, Report.diagnostics_bind, List.append_assoc]

/-! ## Running -/

theorem execAll_append (fuel : Nat) (first second : List Stmt) :
    execAll fuel (first ++ second) = (do
      match ← execAll fuel first with
      | .normal => execAll fuel second
      | flow => return flow) := by
  induction first with
  | nil => rfl
  | cons s first ih =>
    simp only [List.cons_append, execAll, bind_assoc]
    congr 1
    funext flow
    cases flow with
    | normal => exact ih
    | jump j => rfl
    | ret value => rfl

theorem execAll_append_run (fuel : Nat) (first second : List Stmt) (m : Machine) :
    execAll fuel (first ++ second) m =
      match execAll fuel first m with
      | .ok .normal t => execAll fuel second t
      | r => r := by
  rw [execAll_append]
  show EStateM.bind (execAll fuel first) _ m = _
  unfold EStateM.bind
  cases execAll fuel first m with
  | error stop t => rfl
  | ok flow t => cases flow <;> rfl

namespace Exec

/-- Executions leave an endless sink endless. -/
theorem execAll_endless (fuel : Nat) (p : Program) {m : Machine} (hsink : m.sink.Endless) :
    Ends (execAll fuel p m) (fun _ t => t.sink.Endless) fun _ t => t.sink.Endless := by
  -- Beside a limited sink, the sink is known to be endless all along.
  have hsame : (cut m.sink.stored.size).same m
      { m with sink := { m.sink with limit? := some m.sink.stored.size } } :=
    ⟨rfl, rfl, hsink, rfl, Nat.le_refl _⟩
  have htruncates : (cut m.sink.stored.size).Truncates (execAll fuel p) :=
    truncates_stepwise.execAll fuel fun _ _ => trivial
  have h := htruncates.same hsame
  generalize execAll fuel p m = r at h ⊢
  generalize execAll fuel p { m with sink := _ } = r' at h
  cases h with
  | ok hs => exact hs.2.2.1
  | error hs => exact hs.2.2.1
  | cut hl => exact hl.mono (fun _ _ h => h.1) fun _ _ h => h.1

/-- On an endless sink a program comes to what its statements come to. -/
theorem program_endless (fuel : Nat) (p : Program) {m : Machine} (hsink : m.sink.Endless) :
    program fuel p m =
      match execAll fuel p m with
      | .ok flow t => .ok flow.outcome t
      | .error stop t => .error stop t := by
  have h := execAll_endless fuel p hsink
  show EStateM.bind (execAll fuel p) _ m = _
  unfold EStateM.bind
  generalize execAll fuel p m = r at h ⊢
  cases r with
  | error stop t => rfl
  | ok flow t =>
    have hflush : eval Eval.flush t = .ok () t := by
      unfold eval Eval.flush Eval.onSink
      rw [Sink.flush_of_flushes h.flushes]
    show EStateM.bind (eval Eval.flush) _ t = _
    unfold EStateM.bind
    rw [hflush]
    rfl

/-- A program with more behind it runs as without, and then what is behind it runs. -/
theorem program_append (fuel : Nat) (first second : Program) {m : Machine}
    (hloop : m.memory.inLoop = false) (hsink : m.sink.Endless) :
    program fuel (first ++ second) m =
      match program fuel first m with
      | .ok .completed t => program fuel second t
      | r => r := by
  have hjumps := execAll_jumpsInLoops fuel first m
  have hendless := execAll_endless fuel first hsink
  rw [program_endless fuel _ hsink, program_endless fuel _ hsink, execAll_append_run]
  generalize execAll fuel first m = r at hjumps hendless ⊢
  cases r with
  | error stop t => rfl
  | ok flow t =>
    cases flow with
    | normal => exact (program_endless fuel second hendless).symm
    | ret value => rfl
    | jump j =>
      -- Outside of loops no jump comes out of a statement.
      have hopen := hjumps rfl
      rw [hloop] at hopen
      cases hopen

/-- What comes of two programs in turn, the second of which runs if the first completes. -/
inductive ReachesInTurn (first second : Program) (m : Machine) :
    EStateM.Result Stop Machine Outcome → Prop
  | stopped {stop t} : Reaches first m (.error stop t) →
      ReachesInTurn first second m (.error stop t)
  | returned {value t} : Reaches first m (.ok (.returned value) t) →
      ReachesInTurn first second m (.ok (.returned value) t)
  | completed {t r} : Reaches first m (.ok .completed t) → Reaches second t r →
      ReachesInTurn first second m r

theorem reaches_append (first second : Program) {m : Machine} (hloop : m.memory.inLoop = false)
    (hsink : m.sink.Endless) (r : EStateM.Result Stop Machine Outcome) :
    Reaches (first ++ second) m r ↔ ReachesInTurn first second m r := by
  constructor
  · rintro ⟨fuel, rfl, hfinished⟩
    rw [program_append fuel first second hloop hsink] at hfinished ⊢
    generalize hr : program fuel first m = r at hfinished ⊢
    match r with
    | .error stop t => exact .stopped ⟨fuel, hr, hfinished⟩
    | .ok (.returned value) t => exact .returned ⟨fuel, hr, hfinished⟩
    | .ok .completed t => exact .completed ⟨fuel, hr, trivial⟩ ⟨fuel, rfl, hfinished⟩
  · intro h
    cases h with
    | stopped h =>
      obtain ⟨fuel, hr, hfinished⟩ := h
      exact ⟨fuel, by rw [program_append fuel first second hloop hsink, hr], hfinished⟩
    | returned h =>
      obtain ⟨fuel, hr, hfinished⟩ := h
      exact ⟨fuel, by rw [program_append fuel first second hloop hsink, hr], hfinished⟩
    | completed h h' =>
      obtain ⟨fuel, hr⟩ := h.of_le
      obtain ⟨fuel', hr'⟩ := h'.of_le
      obtain ⟨_, -, hfinished⟩ := h'
      refine ⟨max fuel fuel', ?_, hfinished⟩
      rw [program_append _ first second hloop hsink, hr _ (Nat.le_max_left fuel fuel')]
      exact hr' _ (Nat.le_max_right fuel fuel')

end Exec

/-- **Programs in pieces.** If tokens read as one program and other tokens as another,
all of them read as the two programs one after the other. One checker that is given
both comes to the same as a fresh one that is given the whole. And on an endless sink
the whole comes, from an empty memory, to what the two come to in turn. -/
theorem pieces_agree (ts us : List Located) (first second : Program)
    (hfirst : parseProgram ts = .ok first) (hsecond : parseProgram us = .ok second) :
    parseProgram (ts ++ us) = .ok (first ++ second) ∧
    (Checker.fresh.check first).check second = Checker.fresh.check (first ++ second) ∧
    ∀ (sink : Sink) (allocator : Allocator), sink.Endless →
      ∀ r : EStateM.Result Stop Machine Outcome,
        Exec.Reaches (first ++ second) ⟨.fresh, sink, allocator⟩ r ↔
          Exec.ReachesInTurn first second ⟨.fresh, sink, allocator⟩ r := by
  refine ⟨?_, check_append .fresh first second, fun sink allocator hsink => ?_⟩
  · exact parseProgram_eq_ok.mpr
      (derivesProgram_append (parseProgram_eq_ok.mp hfirst) (parseProgram_eq_ok.mp hsecond))
  · exact Exec.reaches_append first second rfl hsink

/-- A branch that an `else` could go on with, and an assignment after it. -/
theorem pieces_agree_branch :
    let branch : List Located := [⟨.keyword .ifKw, 1⟩, ⟨.symbol .leftParen, 1⟩, ⟨.int 1, 1⟩,
      ⟨.symbol .less, 1⟩, ⟨.int 2, 1⟩, ⟨.symbol .rightParen, 1⟩, ⟨.int 3, 1⟩, ⟨.symbol .semicolon, 1⟩]
    let assignment : List Located :=
      [⟨.name "x", 2⟩, ⟨.symbol .assign, 2⟩, ⟨.int 4, 2⟩, ⟨.symbol .semicolon, 2⟩]
    let first : Program := [.ifElse (.binary .less (.int 1 1) (.int 2 1) 1) [.expr (.int 3 1) 1] none 1]
    let second : Program := [.assign (.name "x" 2) .set (.int 4 2) 2]
    parseProgram branch = .ok first ∧ parseProgram assignment = .ok second ∧
      parseProgram (branch ++ assignment) = .ok (first ++ second) ∧ Sink.unbounded.Endless ∧
      Exec.ReachesInTurn first second .unlimited
        (.ok .completed { Machine.unlimited with memory := Scope.fresh.assign "x" (.int 4) }) := by
  intro branch assignment first second
  have hfirst : parseProgram branch = .ok first := rfl
  have hsecond : parseProgram assignment = .ok second := rfl
  have hsink : Sink.unbounded.Endless := ⟨rfl, rfl⟩
  obtain ⟨hparse, -, hrun⟩ := pieces_agree branch assignment first second hfirst hsecond
  exact ⟨hfirst, hsecond, hparse, hsink, (hrun .unbounded _ hsink _).mp ⟨0, rfl, trivial⟩⟩

end MatrixScript
