import MatrixScript.Operator.Scalar

/-!
# Products of vectors and matrices

An entry of a product is a sum of products, added up from the left. The first
product or sum that fails decides the fault.
-/

namespace MatrixScript.Value

/-! ## Sums -/

def sumFrom (total : Value) : List (Except Cause Value) → Except Cause Value
  | [] => .ok total
  | term :: terms => do
    let value ← term
    let total ← arithmetic .add total value
    sumFrom total terms

/-- The sum of terms; without terms it is the integer zero. -/
def sum : List (Except Cause Value) → Except Cause Value
  | [] => .ok (int 0)
  | term :: terms => do
    let total ← term
    sumFrom total terms

/-! ## Kernels -/

def dotItems (xs ys : List Value) : Except Cause Value :=
  sum (List.zipWith (arithmetic .mul) xs ys)

/-- The item of a row in some column. -/
def column (row : Value) (col : Nat) : Except Cause Value := do
  let items ← row.toItems
  match items[col]? with
  | some item => return item
  | none => throw (.noColumn col)

/-- One entry: items against a column of the rows below each other. -/
def columnEntry (xs rows : List Value) (col : Nat) : Except Cause Value :=
  sum (List.zipWith (fun x row => do arithmetic .mul x (← column row col)) xs rows)

def columnEntries (xs rows : List Value) (columns : Nat) : Except Cause Value :=
  return array (← (List.range columns).mapM (columnEntry xs rows))

def vectorVector (left right : Value) : Except Cause Value := do
  let xs ← left.toItems
  let ys ← right.toItems
  dotItems xs ys

def matrixVector (matrix vector : Value) : Except Cause Value := do
  let rows ← matrix.toItems
  let ys ← vector.toItems
  return array (← rows.mapM fun row => do dotItems (← row.toItems) ys)

def vectorMatrix (vector matrix : Value) (columns : Nat) : Except Cause Value := do
  let xs ← vector.toItems
  let rows ← matrix.toItems
  columnEntries xs rows columns

def matrixMatrix (left right : Value) (columns : Nat) : Except Cause Value := do
  let lefts ← left.toItems
  let rights ← right.toItems
  return array (← lefts.mapM fun row => do columnEntries (← row.toItems) rights columns)

/-! ## The product -/

/-- The product of two arrays of rank one or two. The last size on the left has
to be the first on the right. -/
def product (left right : Value) : Except Cause Value := do
  let leftShape ← left.shape
  let rightShape ← right.shape
  match leftShape, rightShape with
  | [k], [k'] =>
    if k = k' then vectorVector left right else throw (.shapeMismatch leftShape rightShape)
  | [_, k], [k'] =>
    if k = k' then matrixVector left right else throw (.shapeMismatch leftShape rightShape)
  | [k], [k', n] =>
    if k = k' then vectorMatrix left right n else throw (.shapeMismatch leftShape rightShape)
  | [_, k], [k', n] =>
    if k = k' then matrixMatrix left right n else throw (.shapeMismatch leftShape rightShape)
  | _, _ => throw (.shapeMismatch leftShape rightShape)

end MatrixScript.Value
