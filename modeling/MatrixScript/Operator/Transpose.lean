import MatrixScript.Value.Access

/-!
# Transposition

The axes of a rectangular value in reverse order, for any number of axes.
-/

namespace MatrixScript.Value

/-- The scalar at the end of a path of positions. -/
def follow : Value → List Nat → Except Cause Value
  | v, [] => .ok v
  | array items, p :: path =>
    match items[p]? with
    | some item => follow item path
    | none => .error .arrayExpected
  | _, _ :: _ => .error .arrayExpected

/-- Builds an array of this shape. The positions chosen so far stand in `path`,
the latest first, and in that order they lead through the source. -/
def gather (source : Value) : (shape path : List Nat) → Except Cause Value
  | [], path => follow source path
  | size :: sizes, path => do
    return array (← (List.range size).mapM fun p => gather source sizes (p :: path))

/-- Reverses the axes. Scalars and vectors stay as they are. -/
def transpose (v : Value) : Except Cause Value := do
  let sizes ← v.shape
  if sizes.length < 2 then return v else gather v sizes.reverse []

end MatrixScript.Value
