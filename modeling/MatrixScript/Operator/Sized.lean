import MatrixScript.Value.Access

/-!
# Arrays of a given size

The built-in functions that make an array from its size. All entries are real.
-/

namespace MatrixScript

/-- Whether there is memory for what a function makes of a size. -/
abbrev Allocator := Sized → Nat → Bool

namespace Value

/-- The square matrix with ones on its diagonal and zeros elsewhere. -/
def eye (n : Nat) : Value :=
  array ((List.range n).map fun i =>
    array ((List.range n).map fun j => real (if i = j then 1.0 else 0.0)))

def zeros (n : Nat) : Value := array (List.replicate n (real 0.0))

def ones (n : Nat) : Value := array (List.replicate n (array (List.replicate n (real 1.0))))

end Value

namespace Sized

def ofSize : Sized → Nat → Value
  | eye => Value.eye
  | zeros => Value.zeros
  | ones => Value.ones

/-- Whether 64 bits can count the entries of a square. Nothing else is counted. -/
def countable : Sized → Nat → Bool
  | zeros, _ => true
  | _, n => n * n < UInt64.size

/-- The array that a function makes; its first argument is the size. -/
def build (allocator : Allocator) (function : Sized) (arguments : List Value) :
    Except Cause Value :=
  match arguments with
  | [] => .error .missingValue
  | argument :: _ => do
    let size ← argument.toInteger
    match Integer.toSize? size with
    | none => throw (.negativeSize function size)
    | some n =>
      if function.countable n && allocator function n then return function.ofSize n
      else throw (.sizeTooLarge function size)

end Sized

end MatrixScript
