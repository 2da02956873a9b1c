import MatrixScript.Token.Scan
import Mathlib.Computability.Language

/-!
# The lexical rules

The words of every rule as a regular language, and the stream that longest match
over these languages makes of a text (`LongestMatch`): neither says how a text
is scanned. A text may start with words of several rules; the longest decides, and
between a keyword and a name it is the keyword.
-/

namespace MatrixScript

open scoped Computability

/-! ## Words -/

inductive LexicalRule where
  | real
  | integer
  | string
  | name
  | keyword (keyword : Keyword)
  | symbol (symbol : Symbol)
  | comment
  | newline
  | blanks
deriving DecidableEq

namespace LexicalRule

def oneOf (p : Char → Bool) : Language Char := {w | ∃ c, p c = true ∧ w = [c]}

def digits : Language Char := oneOf Char.isDigit * (oneOf Char.isDigit)∗

def fraction : Language Char := {['.']} * digits

def exponent : Language Char :=
  oneOf (fun c => c == 'e' || c == 'E') * (1 + {['+']} + {['-']}) * digits

def words : LexicalRule → Language Char
  | real => digits * fraction * (1 + exponent) + fraction * (1 + exponent) + digits * exponent
  | integer => digits
  | string => {['"']} * (oneOf (· != '"'))∗ * {['"']}
  | name => oneOf isNameStart * (oneOf isNamePart)∗
  | keyword k => {k.spelling}
  | symbol s => {s.spelling}
  | comment => {['#']} * (oneOf (· != '\n'))∗
  | newline => {['\n']}
  | blanks => oneOf isBlank * (oneOf isBlank)∗

/-- What a word of a rule that ends on a line contributes to the stream. -/
def item? (rule : LexicalRule) (word : List Char) (line : Nat) : Option ScanItem :=
  match rule with
  | real => some (.token ⟨.real (Number.readReal word), line⟩)
  | integer =>
    if Integer.ofDigits word < 9223372036854775808 then
      some (.token ⟨.int (Int64.ofInt (Integer.ofDigits word)), line⟩)
    else some (.error ⟨.integerTooLarge (String.ofList word), line⟩)
  | string => some (.token ⟨.str (String.ofList word), line⟩)
  | name => some (.token ⟨.name (String.ofList word), line⟩)
  | keyword k => some (.token ⟨.keyword k, line⟩)
  | symbol s => some (.token ⟨.symbol s, line⟩)
  | comment | newline | blanks => none

end LexicalRule

/-! ## Longest match -/

/-- The rule has the longest word at the start of the text; a name is no keyword. -/
structure Longest (text : List Char) (rule : LexicalRule) (word : List Char) : Prop where
  member : word ∈ rule.words
  starts : word <+: text
  longest : ∀ other : LexicalRule, ∀ w ∈ other.words, w <+: text → w.length ≤ word.length
  keyword : rule = .name → ∀ k, word ∉ (LexicalRule.keyword k).words

def Unmatched (text : List Char) : Prop :=
  ∀ rule : LexicalRule, ∀ w ∈ rule.words, ¬ w <+: text

/-- What a text contributes to the stream from a line on, and the line reached. -/
inductive LongestMatch : Nat → List Char → Scanned → Prop
  | done {line} : LongestMatch line [] ⟨[], line⟩
  | word {line rule word rest after} : Longest (word ++ rest) rule word →
      LongestMatch (line + word.count '\n') rest after →
      LongestMatch line (word ++ rest)
        ⟨(rule.item? word (line + word.count '\n')).toList ++ after.items, after.line⟩
  | illegal {line c rest after} : Unmatched (c :: rest) → ¬ (c = '"' ∧ '"' ∉ rest) →
      LongestMatch line rest after →
      LongestMatch line (c :: rest) ⟨.error ⟨.illegalCharacter c, line⟩ :: after.items, after.line⟩
  | unclosed {line rest} : Unmatched ('"' :: rest) → '"' ∉ rest →
      LongestMatch line ('"' :: rest) ⟨[.error ⟨.illegalCharacter '"', line⟩], line⟩

end MatrixScript
