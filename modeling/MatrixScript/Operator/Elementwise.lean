import MatrixScript.Operator.Scalar

/-!
# Operators on arrays, element by element

`mapLeaves` applies an operation to every scalar of a value. `zipLeaves` walks
through two values at once; a scalar on one side meets every scalar of the
other.
-/

namespace MatrixScript.Value

mutual

/-- Applies an operation to the scalars of a value, from left to right. -/
def mapLeaves (f : Value → Except Cause Value) : Value → Except Cause Value
  | array items => return array (← mapAllLeaves f items)
  | leaf => f leaf

def mapAllLeaves (f : Value → Except Cause Value) : List Value → Except Cause (List Value)
  | [] => return []
  | item :: items => do
    let first ← mapLeaves f item
    let rest ← mapAllLeaves f items
    return first :: rest

end

/-- Two arrays of different lengths, one of which may be ragged. -/
def mismatch (left right : Value) : Except Cause Value := do
  let leftShape ← left.shape
  let rightShape ← right.shape
  throw (.shapeMismatch leftShape rightShape)

mutual

/-- Applies an operation to corresponding scalars of two values. -/
def zipLeaves (f : Value → Value → Except Cause Value) : Value → Value → Except Cause Value
  | array lefts, array rights =>
    if lefts.length = rights.length then return array (← zipAllLeaves f lefts rights)
    else mismatch (array lefts) (array rights)
  | array lefts, right => mapLeaves (f · right) (array lefts)
  | left, right => mapLeaves (f left) right

def zipAllLeaves (f : Value → Value → Except Cause Value) :
    List Value → List Value → Except Cause (List Value)
  | left :: lefts, right :: rights => do
    let first ← zipLeaves f left right
    let rest ← zipAllLeaves f lefts rights
    return first :: rest
  | _, _ => return []

end

/-! ## Negation -/

def negateLeaf : Value → Except Cause Value
  | int value => ofInteger? (Integer.neg? value)
  | real value => .ok (real (-value))
  | _ => .error .numberExpected

def negate (v : Value) : Except Cause Value := mapLeaves negateLeaf v

end MatrixScript.Value
