import MatrixScript.Machine.Sink
import MatrixScript.Operator.Sized
import MatrixScript.Scope
import MatrixScript.Value.Access

/-!
# The machine

A machine holds the memory, the sink and the allocator. Evaluations run on the machine
itself and may change all of it; one that fails leaves the machine as it is by then.
-/

namespace MatrixScript

abbrev Memory := Scope Value

structure Machine where
  memory : Memory
  sink : Sink
  allocator : Allocator

/-- A machine before any statement, which nothing limits. -/
abbrev Machine.unlimited : Machine := ⟨.fresh, .unbounded, fun _ _ => true⟩

abbrev Eval := EStateM Fault Machine

namespace Eval

variable {α : Type}

/-- The result of an operation asked for on a line. -/
def atLine (line : Nat) : Except Cause α → Eval α
  | .ok a => return a
  | .error cause => throw (.atLine line cause)

/-- The value of an expression on a line that has to have one. -/
def need (line : Nat) (e : Eval (Option Value)) : Eval Value := do
  match ← e with
  | some value => return value
  | none => throw (.atLine line .missingValue)

/-! ## Memory -/

def lookup (name : String) (line : Nat) : Eval Value := do
  match (← get).memory.lookup? name with
  | some value => return value
  | none => throw (.atLine line (.unknownVariable name))

def assign (name : String) (value : Value) : Eval Unit :=
  modify fun m => { m with memory := m.memory.assign name value }

/-- Runs on what the innermost binding of a name holds. -/
def onBinding (name : String) (line : Nat) (c : Value.InPlace Unit) : Eval Unit := fun m =>
  match m.memory.lookup? name with
  | some value =>
    match c value with
    | .ok () after => .ok () { m with memory := m.memory.replace name after }
    | .error cause after =>
      .error (.atLine line cause) { m with memory := m.memory.replace name after }
  | none => .error (.atLine line (.unknownVariable name)) m

/-! ## Output -/

def onSink (c : EStateM Fault Sink Unit) : Eval Unit := fun m =>
  match c m.sink with
  | .ok () sink => .ok () { m with sink }
  | .error fault sink => .error fault { m with sink }

def writeAll : List String → Eval Unit
  | [] => return ()
  | text :: texts => do
    onSink (Sink.write text)
    writeAll texts

def flush : Eval Unit := onSink Sink.flush

/-! ## Arrays -/

def build (function : Sized) (arguments : List Value) (line : Nat) : Eval Value := do
  atLine line (function.build (← get).allocator arguments)

end Eval

end MatrixScript
