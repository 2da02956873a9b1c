import MatrixScript.Machine.Eval
import MatrixScript.Program.Stmt

/-!
# Executing statements

Every branch and every loop runs in a frame of its own, which is closed however the
body ends. A loop on a condition may run forever; `fuel` bounds its turns, and running
out of fuel is kept apart from every fault of the program. Nothing else uses fuel.
-/

namespace MatrixScript

/-- Why an execution stopped without an answer. -/
inductive Stop where
  | fault (fault : Fault)
  | outOfFuel
deriving DecidableEq, Repr

abbrev Exec := EStateM Stop Machine

/-- How a statement hands on control. -/
inductive Flow where
  | normal
  | jump (jump : Jump)
  | ret (value : Value)

namespace Exec

variable {α : Type}

def eval (e : Eval α) : Exec α := fun m =>
  match e m with
  | .ok a m => .ok a m
  | .error f m => .error (.fault f) m

def inFrame (kind : FrameKind) (body : Exec α) : Exec α := fun m =>
  match body { m with memory := m.memory.push kind } with
  | .ok a m => .ok a { m with memory := m.memory.pop }
  | .error stop m => .error stop { m with memory := m.memory.pop }

/-- Whether the condition of a statement on a line holds. -/
def condition (e : Expr) (line : Nat) : Exec Bool :=
  eval do Eval.atLine line (← e.value).holds

def repeatWhile (condition : Exec Bool) (body : Exec Flow) : (fuel : Nat) → Exec Flow
  | 0 => throw .outOfFuel
  | fuel + 1 => do
    if ← condition then
      match ← body with
      | .normal => repeatWhile condition body fuel
      | .jump .next => repeatWhile condition body fuel
      | .jump .exit => return .normal
      | .ret value => return .ret value
    else return .normal

/-- Repeats a body a number of times, with a name bound to successive integers. -/
def repeatFor (iterator : String) (body : Exec Flow) : (turns : Nat) → Int64 → Exec Flow
  | 0, _ => return .normal
  | turns + 1, i => do
    modify fun m => { m with memory := m.memory.bind iterator (.int i) }
    match ← body with
    | .normal => repeatFor iterator body turns (i + 1)
    | .jump .next => repeatFor iterator body turns (i + 1)
    | .jump .exit => return .normal
    | .ret value => return .ret value

/-- The bounds of the range that a loop on a line runs over. -/
def bounds (e : Expr) (line : Nat) : Exec (Int64 × Int64) :=
  eval do
    match ← e.value with
    | .range start stop => return (start, stop)
    | other => throw (.atLine line (.rangeExpected other.kind))

/-- A jump, which needs an open loop. -/
def jump (jump : Jump) (line : Nat) : Exec Flow := fun m =>
  if m.memory.inLoop then .ok (.jump jump) m
  else .error (.fault (.atLine line (.jumpOutsideLoop jump))) m

end Exec

mutual

def Stmt.exec (fuel : Nat) : Stmt → Exec Flow
  | .block body => execAll fuel body
  | .expr e _ => do
    let _ ← Exec.eval e.eval
    return .normal
  | .assign target op value line => do
    Exec.eval (target.assign op value line)
    return .normal
  | .ifElse condition body otherwise line => do
    if ← Exec.condition condition line then
      Exec.inFrame .branch (execAll fuel body)
    else
      match otherwise with
      | some body => Exec.inFrame .branch (execAll fuel body)
      | none => return .normal
  | .whileLoop condition body line =>
    Exec.inFrame .whileLoop
      (Exec.repeatWhile (Exec.condition condition line) (execAll fuel body) fuel)
  | .forLoop iterator range body line => do
    let (start, stop) ← Exec.bounds range line
    let turns := (stop.toInt - start.toInt).toNat
    Exec.inFrame .forLoop (Exec.repeatFor iterator (execAll fuel body) turns start)
  | .ret value _ => return .ret (← Exec.eval value.value)
  | .jump jump line => Exec.jump jump line

/-- Statements in turn, until one does not end normally. -/
def execAll (fuel : Nat) : List Stmt → Exec Flow
  | [] => return .normal
  | s :: rest => do
    match ← s.exec fuel with
    | .normal => execAll fuel rest
    | flow => return flow

end

/-! ## Programs -/

/-- How a program ends that no fault stops. -/
inductive Outcome where
  | completed
  | returned (value : Value)

def Flow.outcome : Flow → Outcome
  | ret value => .returned value
  | _ => .completed

namespace Exec

def program (fuel : Nat) (p : Program) : Exec Outcome := do
  let flow ← execAll fuel p
  eval Eval.flush
  return flow.outcome

/-- Writes the frames of the memory, a line each, the outermost first. -/
def dump : Exec Unit :=
  eval do
    let frames := (← get).memory.frames
    Eval.writeAll (frames.flatMap fun f => f.pieces Value.pieces ++ ["\n"])
    Eval.flush

end Exec

end MatrixScript
