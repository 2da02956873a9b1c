import MatrixScript.Number.Real

/-!
# Values

A value is a scalar, a range of integers, or an array of values. Arrays nest to
any depth and need not be rectangular.
-/

namespace MatrixScript

inductive Value where
  | int (value : Int64)
  | real (value : Float)
  | bool (value : Bool)
  | str (value : String)
  | array (items : List Value)
  | range (start stop : Int64)

instance : Inhabited Value := ⟨.int 0⟩

/-! ## Kinds -/

inductive ValueKind where
  | int | real | bool | str | array | range
deriving DecidableEq, Repr

def ValueKind.text : ValueKind → String
  | int => "int"
  | real => "float"
  | bool => "bool"
  | str => "string"
  | array => "array"
  | range => "range"

namespace Value

def kind : Value → ValueKind
  | int _ => .int
  | real _ => .real
  | bool _ => .bool
  | str _ => .str
  | array _ => .array
  | range _ _ => .range

def isArray : Value → Bool
  | array _ => true
  | _ => false

/-! ## Text -/

mutual

/-- The texts that show a value when they are joined: strings bare, arrays in brackets. -/
def pieces : Value → List String
  | int value => [Integer.text value]
  | real value => [Number.realText value]
  | bool value => [if value then "true" else "false"]
  | str value => [value]
  | array items => ["["] ++ [", "].intercalate (allPieces items) ++ ["]"]
  | range start stop => [Integer.text start, ":", Integer.text stop]

def allPieces : List Value → List (List String)
  | [] => []
  | item :: items => item.pieces :: allPieces items

end

def text (v : Value) : String := String.join v.pieces

/-! ## Equality

Reals are compared as numbers: the two zeros are equal, and what is not a
number differs from itself. -/

mutual

def equals : Value → Value → Bool
  | int a, int b => a == b
  | real a, real b => a == b
  | bool a, bool b => a == b
  | str a, str b => a == b
  | array as, array bs => allEqual as bs
  | range start stop, range start' stop' => start == start' && stop == stop'
  | _, _ => false

def allEqual : List Value → List Value → Bool
  | [], [] => true
  | a :: as, b :: bs => equals a b && allEqual as bs
  | _, _ => false

end

end Value

end MatrixScript
