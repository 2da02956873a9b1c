import MatrixScript.Number.Real

/-!
# Tokens

The words of the language: literals, names, keywords and symbols, and what stands
between them. Every token has an upper-case kind, by which messages call it.
-/

namespace MatrixScript

/-! ## Keywords -/

inductive Keyword where
  | ifKw | elseKw | forKw | whileKw | breakKw | continueKw | returnKw
  | eye | zeros | ones | print
  | and | or | xor
deriving DecidableEq, Repr

namespace Keyword

def all : List Keyword :=
  [ifKw, elseKw, forKw, whileKw, breakKw, continueKw, returnKw, eye, zeros, ones, print, and, or,
    xor]

def spelling : Keyword → List Char
  | ifKw => ['i', 'f']
  | elseKw => ['e', 'l', 's', 'e']
  | forKw => ['f', 'o', 'r']
  | whileKw => ['w', 'h', 'i', 'l', 'e']
  | breakKw => ['b', 'r', 'e', 'a', 'k']
  | continueKw => ['c', 'o', 'n', 't', 'i', 'n', 'u', 'e']
  | returnKw => ['r', 'e', 't', 'u', 'r', 'n']
  | eye => ['e', 'y', 'e']
  | zeros => ['z', 'e', 'r', 'o', 's']
  | ones => ['o', 'n', 'e', 's']
  | print => ['p', 'r', 'i', 'n', 't']
  | and => ['a', 'n', 'd']
  | or => ['o', 'r']
  | xor => ['x', 'o', 'r']

def ofSpelling? (word : List Char) : Option Keyword :=
  all.find? (·.spelling == word)

/-- The kind of a keyword is its spelling in capitals. -/
def kind (k : Keyword) : String := String.ofList (k.spelling.map Char.toUpper)

end Keyword

/-! ## Symbols -/

inductive Symbol where
  | dotPlus | dotMinus | dotTimes | dotDivide
  | addAssign | subAssign | mulAssign | divAssign
  | equal | notEqual | lessEqual | greaterEqual
  | plus | minus | times | divide
  | less | greater | assign | transpose | colon
  | leftParen | rightParen | leftBracket | rightBracket | leftBrace | rightBrace
  | comma | semicolon
deriving DecidableEq, Repr

namespace Symbol

def all : List Symbol :=
  [dotPlus, dotMinus, dotTimes, dotDivide, addAssign, subAssign, mulAssign, divAssign,
    equal, notEqual, lessEqual, greaterEqual,
    plus, minus, times, divide, less, greater, assign, transpose, colon,
    leftParen, rightParen, leftBracket, rightBracket, leftBrace, rightBrace, comma, semicolon]

def spelling : Symbol → List Char
  | dotPlus => ['.', '+']
  | dotMinus => ['.', '-']
  | dotTimes => ['.', '*']
  | dotDivide => ['.', '/']
  | addAssign => ['+', '=']
  | subAssign => ['-', '=']
  | mulAssign => ['*', '=']
  | divAssign => ['/', '=']
  | equal => ['=', '=']
  | notEqual => ['!', '=']
  | lessEqual => ['<', '=']
  | greaterEqual => ['>', '=']
  | plus => ['+']
  | minus => ['-']
  | times => ['*']
  | divide => ['/']
  | less => ['<']
  | greater => ['>']
  | assign => ['=']
  | transpose => ['\'']
  | colon => [':']
  | leftParen => ['(']
  | rightParen => [')']
  | leftBracket => ['[']
  | rightBracket => [']']
  | leftBrace => ['{']
  | rightBrace => ['}']
  | comma => [',']
  | semicolon => [';']

/-- The longest symbol that starts a text. -/
def starting? (cs : List Char) : Option Symbol :=
  all.find? (·.spelling.isPrefixOf cs)

def kind : Symbol → String
  | dotPlus => "DOTPLUS"
  | dotMinus => "DOTMINUS"
  | dotTimes => "DOTTIMES"
  | dotDivide => "DOTDIVIDE"
  | addAssign => "ADDASSIGN"
  | subAssign => "SUBASSIGN"
  | mulAssign => "MULASSIGN"
  | divAssign => "DIVASSIGN"
  | equal => "EQ"
  | notEqual => "NE"
  | lessEqual => "LE"
  | greaterEqual => "GE"
  | plus => "PLUS"
  | minus => "MINUS"
  | times => "TIMES"
  | divide => "DIVIDE"
  | less => "LT"
  | greater => "GT"
  | assign => "ASSIGN"
  | transpose => "TRANSPOSE"
  | colon => "RANGE"
  | leftParen => "LPAR"
  | rightParen => "RPAR"
  | leftBracket => "LBRACKET"
  | rightBracket => "RBRACKET"
  | leftBrace => "LCPAR"
  | rightBrace => "RCPAR"
  | comma => "COMMA"
  | semicolon => "SEMICOLON"

end Symbol

/-! ## What separates words -/

/-- A scan passes over these: only a list of tokens made by hand holds them. -/
inductive Skipped where
  | comment | newLine | ignored
deriving DecidableEq, Repr

def Skipped.kind : Skipped → String
  | comment => "COMMENT"
  | newLine => "NEWLINE"
  | ignored => "IGNORED"

/-! ## Tokens -/

/-- A token. String literals are kept as written, with their quotes. -/
inductive Token where
  | real (value : Float)
  | int (value : Int64)
  | str (literal : String)
  | name (spelling : String)
  | keyword (keyword : Keyword)
  | symbol (symbol : Symbol)
  | skipped (skipped : Skipped)
deriving DecidableEq

namespace Token

def kind : Token → String
  | real _ => "FLOAT"
  | int _ => "INTEGER"
  | str _ => "STRING"
  | name _ => "ID"
  | keyword k => k.kind
  | symbol s => s.kind
  | skipped s => s.kind

/-- The kind, followed by the payload if there is one. -/
def text : Token → String
  | real value => "FLOAT " ++ Number.realText value
  | int value => "INTEGER " ++ Integer.text value
  | str literal => "STRING " ++ literal
  | name spelling => "ID " ++ spelling
  | keyword k => k.kind
  | symbol s => s.kind
  | skipped s => s.kind

end Token

/-- A token and the line on which it ends. -/
structure Located where
  token : Token
  line : Nat
deriving DecidableEq

end MatrixScript
