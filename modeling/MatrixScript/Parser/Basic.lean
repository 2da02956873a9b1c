import MatrixScript.Token

/-!
# Reading tokens

A parser takes tokens off the front of a list. It stops at the first token that
cannot stand where it is, and that token is gone then. Loops carry a budget: a
parser with budget `n` is meant for at most `n` tokens, so that a budget of zero
says that no token is left.
-/

namespace MatrixScript

/-! ## Errors -/

inductive SyntaxError where
  | unexpectedToken (found : Located)
  | endOfInput
deriving DecidableEq

def SyntaxError.message : SyntaxError → String
  | unexpectedToken found => s!"unexpected token {found.token.kind} at line {found.line}"
  | endOfInput => "end of file reached"

/-! ## Parsers -/

abbrev Parser := EStateM SyntaxError (List Located)

namespace Parser

/-- The next token, left in place. -/
def peek? : Parser (Option Located) := fun tokens => .ok tokens.head? tokens

def next : Parser Located := fun
  | [] => .error .endOfInput []
  | token :: rest => .ok token rest

def skip : Parser Unit := fun tokens => .ok () tokens.tail

def expect (symbol : Symbol) : Parser Unit := do
  let found ← next
  if found.token = .symbol symbol then return
  else throw (.unexpectedToken found)

def identifier : Parser String := do
  let found ← next
  match found.token with
  | .name spelling => return spelling
  | _ => throw (.unexpectedToken found)

variable {α : Type}

/-- At least one item, with commas between them, up to and including the
closing symbol. -/
def itemsUntil (closing : Symbol) (item : Parser α) : (budget : Nat) → Parser (List α)
  | 0 => throw .endOfInput
  | budget + 1 => do
    let first ← item
    let separator ← next
    if separator.token = .symbol .comma then
      return first :: (← itemsUntil closing item budget)
    else if separator.token = .symbol closing then return [first]
    else throw (.unexpectedToken separator)

/-- Items with commas between them, up to and including the closing symbol. The
closing symbol may come at once. -/
def listUntil (closing : Symbol) (item : Parser α) (budget : Nat) : Parser (List α) := do
  if (← peek?).any (·.token = .symbol closing) then
    skip
    return []
  else itemsUntil closing item budget

def runOn (parser : (budget : Nat) → Parser α) (tokens : List Located) :
    EStateM.Result SyntaxError (List Located) α :=
  parser tokens.length tokens

end Parser

end MatrixScript
