import MatrixScript.Machine.Exec
import MatrixScript.Parser.Statement
import MatrixScript.Token.Scan
import MatrixScript.Typing.Stmt

/-!
# Running a source

A source is scanned, parsed and checked before anything of it runs. Lexical
errors are passed over; a syntax error or any diagnostic keeps the program from
running.
-/

namespace MatrixScript

structure RunOptions where
  /-- Write the memory after a program that completed. -/
  dump : Bool
  /-- Stop after checking. -/
  checkOnly : Bool

inductive RunError where
  | malformed (error : SyntaxError)
  | rejected (count : Nat)
  | stopped (stop : Stop)

def RunError.message : RunError → String
  | malformed error => error.message
  | rejected count => s!"Found {count} syntax errors."
  | stopped (.fault fault) => fault.message
  | stopped .outOfFuel => "out of fuel"

structure RunReport where
  lexicalErrors : List LexicalError
  diagnostics : List Diagnostic
  outcome : Except RunError Outcome
  sink : Sink

/-- A program, and the dump after it if it completes. -/
def Exec.programWithDump (fuel : Nat) (dumping : Bool) (p : Program) : Exec Outcome := do
  match ← Exec.program fuel p with
  | .completed =>
    if dumping then Exec.dump
    return .completed
  | .returned value => return .returned value

def runProgram (fuel : Nat) (options : RunOptions) (allocator : Allocator) (sink : Sink)
    (p : Program) : Except RunError Outcome × Sink :=
  match Exec.programWithDump fuel options.dump p ⟨.fresh, sink, allocator⟩ with
  | .ok outcome m => (.ok outcome, m.sink)
  | .error stop m => (.error (.stopped stop), m.sink)

def run (fuel : Nat) (options : RunOptions) (allocator : Allocator) (sink : Sink)
    (source : String) : RunReport :=
  let scanned := scan source
  match parseProgram scanned.tokens with
  | .error e => ⟨scanned.errors, [], .error (.malformed e), sink⟩
  | .ok program =>
    let diagnostics := checkProgram program
    if !diagnostics.isEmpty then
      ⟨scanned.errors, diagnostics, .error (.rejected diagnostics.length), sink⟩
    else if options.checkOnly then ⟨scanned.errors, [], .ok .completed, sink⟩
    else
      let (outcome, sink) := runProgram fuel options allocator sink program
      ⟨scanned.errors, [], outcome, sink⟩

end MatrixScript
