import MatrixScript.CommandLine

/-!
# The program

Reads the file that the command line names and writes the answer.
-/

namespace MatrixScript

/-- Far more turns of a loop than any run takes. -/
def turnLimit : Nat := 4611686018427387904

/-- Rows longer than this are refused. -/
def rowLimit : Nat := 4294967296

def rowAllocator : Allocator := fun _ n => n ≤ rowLimit

def usage : String := "usage: [--tokens] [--check] [--no-dump] [--version] [--] <file>\n"

def readSource (path : String) : IO (Except Unreadable String) := do
  try
    match String.fromUTF8? (← IO.FS.readBinFile path) with
    | some source => return .ok source
    | none => return .error .notText
  catch
    | .noFileOrDirectory .. => return .error .missing
    | .inappropriateType .. => return .error .directory
    | e => return .error (.other (toString e))

def writeReport (r : CommandReport) : IO UInt32 := do
  let stdout ← IO.getStdout
  let stderr ← IO.getStderr
  stdout.write r.stdout
  stdout.flush
  stderr.putStr r.stderr
  return r.exitCode.toUInt32

end MatrixScript

open MatrixScript in
def main (arguments : List String) : IO UInt32 := do
  match Request.ofArguments? arguments with
  | none =>
    (← IO.getStderr).putStr usage
    return 1
  | some .version =>
    writeReport (Request.answer turnLimit rowAllocator (fun _ => .error .missing) .version)
  | some (.process options path) =>
    let source ← readSource path
    writeReport (Request.answer turnLimit rowAllocator (fun _ => source) (.process options path))
