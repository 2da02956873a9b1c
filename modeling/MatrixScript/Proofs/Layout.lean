import MatrixScript.Proofs.Erasure
import MatrixScript.Proofs.ErasedTyping
import MatrixScript.Proofs.Stepwise

/-!
# Layout

How tokens are spread over lines has no bearing on what a program means: but for the
lines in trees and errors, reading, checking and running come to the same for all
layouts of the same tokens (`layout_irrelevant`).
-/

namespace MatrixScript

open Erasure

/-! ## Evaluations -/

def Fault.unlined : Fault → Fault
  | atLine _ cause => atLine 0 cause
  | output failure => output failure

def Stop.unlined : Stop → Stop
  | fault f => fault f.unlined
  | outOfFuel => outOfFuel

def Eval.erasure : Erasure Fault Machine := ⟨Fault.unlined, id⟩

def Exec.erasure : Erasure Stop Machine := ⟨Stop.unlined, id⟩

namespace Eval

variable {α : Type}

theorem read_erased (line : Nat) (f : Memory → Allocator → Except Cause α) :
    erasure.Commutes id (read line f) (read 0 f) := by
  intro m
  show read 0 f m = _
  unfold read
  cases f m.memory m.allocator <;> rfl

theorem atLine_erased (line : Nat) (x : Except Cause α) :
    erasure.Commutes id (atLine line x) (atLine 0 x) := by
  rw [atLine_eq_read, atLine_eq_read]
  exact read_erased line _

theorem lookup_erased (name : String) (line : Nat) :
    erasure.Commutes id (lookup name line) (lookup name 0) := by
  rw [lookup_eq_read, lookup_eq_read]
  exact read_erased line _

theorem need_erased {e e' : Eval (Option Value)} (h : erasure.Commutes id e e') (line : Nat) :
    erasure.Commutes id (need line e) (need 0 e') := by
  refine h.bind fun value? => ?_
  cases value? with
  | none => exact commutes_throw
  | some value => exact commutes_pure

theorem onBinding_erased (name : String) (line : Nat) (c : Value.InPlace Unit) :
    erasure.Commutes id (onBinding name line c) (onBinding name 0 c) := by
  intro m
  show onBinding name 0 c m = _
  unfold onBinding
  cases m.memory.lookup? name with
  | none => rfl
  | some value =>
    dsimp only
    cases c value <;> rfl

/-- The faults of a sink have no lines. -/
theorem write_erased (text : String) :
    erasure.Commutes id (onSink (Sink.write text)) (onSink (Sink.write text)) := by
  intro m
  show onSink (Sink.write text) m = _
  unfold onSink Sink.write
  dsimp only
  by_cases h : m.sink.room text.toUTF8.size = text.toUTF8.size
  · rw [if_pos h]
    rfl
  · rw [if_neg h]
    rfl

theorem writeAll_erased : ∀ texts : List String,
    erasure.Commutes id (writeAll texts) (writeAll texts)
  | [] => commutes_pure
  | text :: texts => (write_erased text).bind fun _ => writeAll_erased texts

theorem flush_erased : erasure.Commutes id flush flush := by
  intro m
  show flush m = _
  unfold flush onSink Sink.flush
  by_cases h : m.sink.flushFails = true
  · rw [if_pos h]
    rfl
  · rw [if_neg h]
    rfl

end Eval

open Eval

theorem call_erased (function : Builtin) (arguments : List Value) (line : Nat) :
    erasure.Commutes id (function.call arguments line) (function.call arguments 0) := by
  cases function with
  | print => exact (writeAll_erased _).bind fun _ => commutes_pure
  | sized function =>
    have built : erasure.Commutes id (build function arguments line) (build function arguments 0) :=
      read_erased line fun _ allocator => function.build allocator arguments
    exact .ite (built.bind fun _ => commutes_pure) commutes_throw

mutual

theorem eval_erased : ∀ e : Expr, erasure.Commutes id e.eval e.unlined.eval
  | .int _ _ => commutes_pure
  | .real _ _ => commutes_pure
  | .str _ _ => commutes_pure
  | .name spelling line => (lookup_erased spelling line).bind fun _ => commutes_pure
  | .vector ⟨elements, _⟩ => (evalAll_erased elements).bind fun _ => commutes_pure
  | .matrix rows _ => (evalRows_erased rows).bind fun _ => commutes_pure
  | .call function arguments line =>
    (evalAll_erased arguments).bind fun values => call_erased function values line
  | .binary op left right line => by
    have hright := need_erased (eval_erased right) right.line
    rw [Expr.unlined, Expr.eval, Expr.eval, line_unlined, line_unlined]
    refine (need_erased (eval_erased left) left.line).bind fun leftValue => .ite ?_ ?_
    · cases right with
      | vector row =>
        cases row with
        | mk indices _ =>
          exact (evalIndices_erased line indices).bind fun _ =>
            (atLine_erased line _).bind fun _ => commutes_pure
      | _ => exact commutes_throw
    · exact hright.bind fun _ => (atLine_erased line _).bind fun _ => commutes_pure
  | .unary op operand line => by
    rw [Expr.unlined, Expr.eval, Expr.eval, line_unlined]
    exact (need_erased (eval_erased operand) operand.line).bind fun _ =>
      (atLine_erased line _).bind fun _ => commutes_pure

theorem evalAll_erased : ∀ es : List Expr,
    erasure.Commutes id (evalAll es) (evalAll (allUnlined es))
  | [] => commutes_pure
  | e :: es => by
    rw [allUnlined, evalAll, evalAll, line_unlined]
    exact (need_erased (eval_erased e) e.line).bind fun _ => (evalAll_erased es).bind fun _ =>
      commutes_pure

theorem evalRows_erased : ∀ rows : List Row,
    erasure.Commutes id (evalRows rows) (evalRows (rowsUnlined rows))
  | [] => commutes_pure
  | ⟨elements, _⟩ :: rows => (evalAll_erased elements).bind fun _ => (evalRows_erased rows).bind fun _ =>
      commutes_pure

theorem evalIndices_erased (line : Nat) : ∀ es : List Expr,
    erasure.Commutes id (evalIndices line es) (evalIndices 0 (allUnlined es))
  | [] => commutes_pure
  | e :: es => by
    rw [allUnlined, evalIndices, evalIndices, line_unlined]
    exact (need_erased (eval_erased e) e.line).bind fun _ => (atLine_erased line _).bind fun _ =>
      (evalIndices_erased line es).bind fun _ => commutes_pure

end

theorem value_erased (e : Expr) : erasure.Commutes id e.value e.unlined.value := by
  unfold Expr.value
  rw [line_unlined]
  exact need_erased (eval_erased e) e.line

theorem store_erased (op : AssignOp) (new : Value) (line : Nat) (target : Target) :
    erasure.Commutes id (target.store op new line) (target.unlined.store op new 0) := by
  cases target with
  | invalid e =>
    rw [Target.unlined, Target.store, Target.store, line_unlined]
    exact commutes_throw
  | name spelling l =>
    by_cases hop : op = .set
    · subst hop
      exact fun _ => rfl
    · rw [Target.unlined, Target.store_name hop, Target.store_name hop]
      exact (lookup_erased spelling line).bind fun _ => (atLine_erased line _).bind fun _ => fun _ => rfl
  | element array indices l =>
    exact (evalIndices_erased line indices.elements).bind fun _ => onBinding_erased array line _

theorem assign_erased (target : Target) (op : AssignOp) (value : Expr) (line : Nat) :
    erasure.Commutes id (target.assign op value line) (target.unlined.assign op value.unlined 0) :=
  (value_erased value).bind fun new => store_erased op new line target

/-! ## Executions -/

namespace Exec

variable {α : Type}

theorem eval_erased {e e' : Eval α} (h : Eval.erasure.Commutes id e e') :
    erasure.Commutes id (eval e) (eval e') := by
  intro m
  show eval e' m = _
  unfold eval
  have hm : e' m = _ := h m
  rw [hm]
  cases e m <;> rfl

theorem inFrame_erased (kind : FrameKind) {body body' : Exec α} (h : erasure.Commutes id body body') :
    erasure.Commutes id (inFrame kind body) (inFrame kind body') := by
  intro m
  show inFrame kind body' m = _
  unfold inFrame
  have hm : body' { m with memory := m.memory.push kind } = _ := h _
  rw [hm]
  cases body { m with memory := m.memory.push kind } <;> rfl

theorem condition_erased (e : Expr) (line : Nat) :
    erasure.Commutes id (condition e line) (condition e.unlined 0) :=
  eval_erased ((value_erased e).bind fun _ => atLine_erased line _)

theorem bounds_erased (e : Expr) (line : Nat) :
    erasure.Commutes id (bounds e line) (bounds e.unlined 0) := by
  refine eval_erased ((value_erased e).bind fun value => ?_)
  cases value with
  | range start stop => exact commutes_pure
  | _ => exact commutes_throw

theorem jump_erased (j : Jump) (line : Nat) : erasure.Commutes id (jump j line) (jump j 0) := by
  intro m
  show jump j 0 m = _
  unfold jump
  split <;> rfl

section
variable {body body' : Exec Flow} (hbody : erasure.Commutes id body body')
include hbody

theorem repeatWhile_erased {condition condition' : Exec Bool}
    (hcondition : erasure.Commutes id condition condition') : ∀ fuel,
      erasure.Commutes id (repeatWhile condition body fuel) (repeatWhile condition' body' fuel)
  | 0 => commutes_throw
  | fuel + 1 => by
    refine hcondition.bind fun holds => .ite (hbody.bind fun flow => ?_) commutes_pure
    match flow with
    | .normal | .jump .next => exact repeatWhile_erased hcondition fuel
    | .jump .exit | .ret _ => exact commutes_pure

theorem repeatFor_erased (iterator : String) : ∀ (turns : Nat) (i : Int64),
    erasure.Commutes id (repeatFor iterator body turns i) (repeatFor iterator body' turns i)
  | 0, _ => commutes_pure
  | turns + 1, i => by
    have bound : erasure.Commutes id
        (modify fun m => { m with memory := m.memory.bind iterator (.int i) } : Exec PUnit)
        (modify fun m => { m with memory := m.memory.bind iterator (.int i) }) := fun _ => rfl
    refine bound.bind fun _ => hbody.bind fun flow => ?_
    match flow with
    | .normal | .jump .next => exact repeatFor_erased iterator turns (i + 1)
    | .jump .exit | .ret _ => exact commutes_pure

end

end Exec

section
variable (fuel : Nat)

mutual

theorem exec_erased : ∀ s : Stmt, Exec.erasure.Commutes id (s.exec fuel) (s.unlined.exec fuel)
  | .block body => execAll_erased body
  | .expr e _ => (Exec.eval_erased (eval_erased e)).bind fun _ => commutes_pure
  | .assign target op value line =>
    (Exec.eval_erased (assign_erased target op value line)).bind fun _ => commutes_pure
  | .ifElse condition body none line =>
    (Exec.condition_erased condition line).bind fun _ =>
      .ite (Exec.inFrame_erased .branch (execAll_erased body)) commutes_pure
  | .ifElse condition body (some other) line =>
    (Exec.condition_erased condition line).bind fun _ =>
      .ite (Exec.inFrame_erased .branch (execAll_erased body))
        (Exec.inFrame_erased .branch (execAll_erased other))
  | .whileLoop condition body line =>
    Exec.inFrame_erased .whileLoop
      (Exec.repeatWhile_erased (execAll_erased body) (Exec.condition_erased condition line) fuel)
  | .forLoop iterator range body line =>
    (Exec.bounds_erased range line).bind fun (start, _) =>
      Exec.inFrame_erased .forLoop (Exec.repeatFor_erased (execAll_erased body) iterator _ start)
  | .ret value _ => (Exec.eval_erased (value_erased value)).bind fun _ => commutes_pure
  | .jump jump line => Exec.jump_erased jump line

theorem execAll_erased : ∀ body : List Stmt,
    Exec.erasure.Commutes id (execAll fuel body) (execAll fuel (stmtsUnlined body))
  | [] => commutes_pure
  | s :: rest => by
    refine (exec_erased s).bind fun flow => ?_
    cases flow with
    | normal => exact execAll_erased rest
    | jump j => exact commutes_pure
    | ret value => exact commutes_pure

end

theorem program_erased (p : Program) :
    Exec.erasure.Commutes id (Exec.program fuel p) (Exec.program fuel (stmtsUnlined p)) :=
  (execAll_erased fuel p).bind fun _ =>
    (Exec.eval_erased flush_erased).bind fun _ => commutes_pure

end

/-! ## Layouts -/

theorem map_unlined_eq {ts ts' : List Located}
    (h : ts.map Located.token = ts'.map Located.token) :
    ts.map Located.unlined = ts'.map Located.unlined := by
  have hall : ∀ us : List Located, us.map Located.unlined = (us.map Located.token).map (Located.mk · 0) :=
    fun us => by rw [List.map_map]; rfl
  rw [hall, hall, h]

/-- **Layout.** Take the same tokens on any lines. Either both layouts are read, to the
same program but for its lines: with the same issues, and from the same machine to the
same outcome or fault in the same machine. Or neither is, for the same reason. -/
theorem layout_irrelevant (ts ts' : List Located)
    (h : ts.map Located.token = ts'.map Located.token) :
    match parseProgram ts, parseProgram ts' with
    | .ok p, .ok p' =>
      stmtsUnlined p = stmtsUnlined p' ∧
      (checkProgram p).map Diagnostic.issue = (checkProgram p').map Diagnostic.issue ∧
      ∀ (fuel : Nat) (m : Machine),
        Exec.erasure.result id (Exec.program fuel p m) = Exec.erasure.result id (Exec.program fuel p' m)
    | .error e, .error e' => e.unlined = e'.unlined
    | _, _ => False := by
  have hread := parseProgram_unlined ts
  have hread' := parseProgram_unlined ts'
  rw [map_unlined_eq h, hread'] at hread
  generalize parseProgram ts = r at hread ⊢
  generalize parseProgram ts' = r' at hread ⊢
  cases r with
  | error e =>
    cases r' with
    | error e' => exact (Except.error.inj hread).symm
    | ok p' => cases hread
  | ok p =>
    cases r' with
    | error e' => cases hread
    | ok p' =>
      have heq : stmtsUnlined p' = stmtsUnlined p := Except.ok.inj hread
      refine ⟨heq.symm, ?_, fun fuel m => ?_⟩
      · rw [← checkProgram_unlined p, ← checkProgram_unlined p', heq]
      · rw [← program_erased fuel p m, ← program_erased fuel p' m, heq]

/-- A jump outside of loops, in one line and in two. -/
theorem layout_irrelevant_jump :
    let ts : List Located := [⟨.keyword .breakKw, 1⟩, ⟨.symbol .semicolon, 1⟩]
    let ts' : List Located := [⟨.keyword .breakKw, 2⟩, ⟨.symbol .semicolon, 3⟩]
    let m : Machine := .unlimited
    ts.map Located.token = ts'.map Located.token ∧
      parseProgram ts = .ok [.jump .exit 1] ∧ parseProgram ts' = .ok [.jump .exit 2] ∧
      checkProgram [.jump .exit 1] = [⟨.jumpOutsideLoop .exit, 1⟩] ∧
      (checkProgram [.jump .exit 1]).map Diagnostic.issue =
        (checkProgram [.jump .exit 2]).map Diagnostic.issue ∧
      Exec.program 0 [.jump .exit 1] m = .error (.fault (.atLine 1 (.jumpOutsideLoop .exit))) m ∧
      Exec.erasure.result id (Exec.program 0 [.jump .exit 1] m) =
        Exec.erasure.result id (Exec.program 0 [.jump .exit 2] m) := by
  intro ts ts' m
  have h : ts.map Located.token = ts'.map Located.token := rfl
  obtain ⟨-, hissues, hruns⟩ := layout_irrelevant ts ts' h
  exact ⟨h, rfl, rfl, rfl, hissues, rfl, hruns 0 m⟩

end MatrixScript
