import MatrixScript.Scope

/-!
# Static types

The type of an expression is the type of its scalars and its sizes along each
axis. A scalar counts as a vector of one.
-/

namespace MatrixScript

inductive BaseType where
  | int
  | real
  | str
  | bool
deriving DecidableEq, Repr

def BaseType.text : BaseType → String
  | int => "int"
  | real => "float"
  | str => "string"
  | bool => "bool"

structure ArrayType where
  base : BaseType
  shape : List Nat
deriving DecidableEq, Repr

namespace ArrayType

def scalar (base : BaseType) : ArrayType := ⟨base, [1]⟩

def isScalar (t : ArrayType) : Bool := t.shape == [1]

def isScalarOf (t : ArrayType) (base : BaseType) : Bool := t.base == base && t.isScalar

def transpose (t : ArrayType) : ArrayType := ⟨t.base, t.shape.reverse⟩

/-- The base and the shape in parentheses; a single size has a comma after it. -/
def text (t : ArrayType) : String :=
  let sizes := match t.shape with
    | [size] => size.repr ++ ","
    | sizes => ", ".intercalate (sizes.map Nat.repr)
  t.base.text ++ "(" ++ sizes ++ ")"

end ArrayType

abbrev Table := Scope ArrayType

end MatrixScript
