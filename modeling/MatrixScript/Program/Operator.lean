/-!
# Operators and built-in functions

The operators of expressions and assignments, the built-in functions and the
jumps out of a loop, each with the text by which messages call it.
-/

namespace MatrixScript

/-- Binary operators, the loosest first. -/
inductive BinaryOp where
  | range
  | and | or | xor
  | equal | notEqual | greater | greaterEqual | less | lessEqual
  | add | sub | dotAdd | dotSub
  | mul | div | dotMul | dotDiv
  | subscript
deriving DecidableEq, Repr

def BinaryOp.text : BinaryOp → String
  | range => ":"
  | and => "and"
  | or => "or"
  | xor => "xor"
  | equal => "=="
  | notEqual => "!="
  | greater => ">"
  | greaterEqual => ">="
  | less => "<"
  | lessEqual => "<="
  | add => "+"
  | sub => "-"
  | dotAdd => ".+"
  | dotSub => ".-"
  | mul => "*"
  | div => "/"
  | dotMul => ".*"
  | dotDiv => "./"
  | subscript => "[]"

inductive UnaryOp where
  | negate
  | transpose
deriving DecidableEq, Repr

/-- Plain assignment, or one that combines with the value in place. -/
inductive AssignOp where
  | set
  | add | sub | mul | div
deriving DecidableEq, Repr

/-- The operator that an assignment combines with, none for plain assignment. -/
def AssignOp.binary? : AssignOp → Option BinaryOp
  | set => none
  | add => some .add
  | sub => some .sub
  | mul => some .mul
  | div => some .div

inductive Sized where
  | eye
  | zeros
  | ones
deriving DecidableEq, Repr

def Sized.text : Sized → String
  | eye => "eye"
  | zeros => "zeros"
  | ones => "ones"

inductive Builtin where
  | print
  | sized (function : Sized)
deriving DecidableEq, Repr

/-- Jumps inside a loop: out of it, or on to its next turn. -/
inductive Jump where
  | exit
  | next
deriving DecidableEq, Repr

def Jump.text : Jump → String
  | exit => "break"
  | next => "continue"

end MatrixScript
