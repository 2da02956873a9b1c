import MatrixScript.Fault

/-!
# Looking into values

What a value is when a number, a condition or an array is asked for, the shape
of an array, and its elements by index.
-/

namespace MatrixScript.Value

/-! ## Scalars -/

def toReal : Value → Except Cause Float
  | real value => .ok value
  | int value =>
    match Integer.toReal? value with
    | some x => .ok x
    | none => .error .inexactInteger
  | _ => .error .numberExpected

def toInteger : Value → Except Cause Int64
  | int value => .ok value
  | _ => .error .integerExpected

def toBool : Value → Except Cause Bool
  | bool value => .ok value
  | _ => .error .booleanExpected

def toItems : Value → Except Cause (List Value)
  | array items => .ok items
  | _ => .error .arrayExpected

/-- Whether a condition holds. Numbers hold unless they are zero. -/
def holds : Value → Except Cause Bool
  | bool value => .ok value
  | int value => .ok (value != 0)
  | real value => .ok (value != 0.0)
  | _ => .error .booleanExpected

/-! ## Shape -/

mutual

/-- The sizes of a rectangular value along its axes, none for a ragged one.
Scalars have no axis; below an array without items the axes are unknown, and it
counts as a vector. -/
def shape? : Value → Option (List Nat)
  | array items => itemsShape? items
  | _ => some []

def itemsShape? : List Value → Option (List Nat)
  | [] => some [0]
  | first :: others => do
    let sizes ← first.shape?
    if allOfShape sizes others then some ((others.length + 1) :: sizes) else none

def allOfShape (sizes : List Nat) : List Value → Bool
  | [] => true
  | item :: items => item.shape? == some sizes && allOfShape sizes items

end

def shape (v : Value) : Except Cause (List Nat) :=
  match v.shape? with
  | some sizes => .ok sizes
  | none => .error .raggedArray

/-! ## Elements -/

/-- The position that an index names on an axis. -/
def position (axis : Nat) (index : Int64) (size : Nat) : Except Cause (Fin size) :=
  if h : 0 ≤ index.toInt ∧ index.toInt.toNat < size then .ok ⟨index.toInt.toNat, h.2⟩
  else .error (.indexOutOfBounds axis index size)

/-- Follows indices from an axis on; `found` indices were given in all. -/
def elementFrom (found : Nat) : (axis : Nat) → Value → List Int64 → Except Cause Value
  | _, v, [] => .ok v
  | axis, array items, index :: indices => do
    let p ← position axis index items.length
    elementFrom found (axis + 1) items[p] indices
  | axis, _, _ :: _ => .error (.tooManyIndices found axis)

def element (v : Value) (indices : List Int64) : Except Cause Value :=
  elementFrom indices.length 0 v indices

/-! ## Changes in place -/

/-- Computations on a value where it stands. One that fails leaves there what it has made
of the value so far. -/
abbrev InPlace := EStateM Cause Value

namespace InPlace

/-- Stores what a function makes of the value. -/
def store (change : Value → Except Cause Value) : InPlace Unit := fun v =>
  match change v with
  | .ok stored => .ok () stored
  | .error cause => .error cause v

def onItem (c : InPlace Unit) (items : List Value) (p : Fin items.length) :
    EStateM.Result Cause Value Unit :=
  match c items[p] with
  | .ok () item => .ok () (array (items.set p item))
  | .error cause item => .error cause (array (items.set p item))

/-- Follows indices from an axis on and runs on the element there. How many were given
in all is the axis and those that are left. -/
def onElement (c : InPlace Unit) : (axis : Nat) → List Int64 → InPlace Unit
  | _, [], v => c v
  | axis, index :: indices, array items =>
    match position axis index items.length with
    | .ok p => (onElement c (axis + 1) indices).onItem items p
    | .error cause => .error cause (array items)
  | axis, index :: indices, v =>
    .error (.tooManyIndices (axis + (index :: indices).length) axis) v

end InPlace

end MatrixScript.Value
