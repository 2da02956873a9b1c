import MatrixScript.Fault

/-!
# Output sinks

A sink stores the bytes that a program writes. It may have a limit: the bytes
up to the limit are stored, and writing any byte past it fails.
-/

namespace MatrixScript

structure Sink where
  stored : ByteArray
  limit? : Option Nat
  flushFails : Bool

namespace Sink

def unbounded : Sink := ⟨.empty, none, false⟩

/-- How many of the next `size` bytes can be stored. -/
def room (s : Sink) (size : Nat) : Nat :=
  match s.limit? with
  | none => size
  | some limit => min size (limit - s.stored.size)

def write (text : String) : EStateM Fault Sink Unit := fun s =>
  let bytes := text.toUTF8
  let room := s.room bytes.size
  if room = bytes.size then .ok () { s with stored := s.stored ++ bytes }
  else .error (.output .full) { s with stored := s.stored ++ bytes.extract 0 room }

def flush : EStateM Fault Sink Unit := fun s =>
  if s.flushFails then .error (.output .flushFailed) s else .ok () s

end Sink

end MatrixScript
