import MatrixScript.Token.Lexeme

/-!
# The token stream of a source

`scan` reads a source lexeme by lexeme. Tokens and lexical errors come out in
source order, each with the line on which its lexeme ends; a character that
starts no lexeme is reported and passed over.
-/

namespace MatrixScript

/-! ## Lexical errors -/

inductive LexicalFault where
  | illegalCharacter (c : Char)
  | integerTooLarge (literal : String)
deriving DecidableEq, Repr

structure LexicalError where
  fault : LexicalFault
  line : Nat
deriving DecidableEq, Repr

def LexicalError.message (e : LexicalError) : String :=
  match e.fault with
  | .illegalCharacter c => s!"illegal character '{c}' at {e.line}"
  | .integerTooLarge literal => s!"integer literal {literal} is too large at {e.line}"

/-! ## Scanning -/

/-- One element of the stream. -/
inductive ScanItem where
  | token (token : Located)
  | error (error : LexicalError)
deriving DecidableEq

/-- What a lexeme that ends on this line contributes to the stream. -/
def Lexeme.item? (l : Lexeme) (line : Nat) : Option ScanItem :=
  match l.reading with
  | .token t => some (.token ⟨t, line⟩)
  | .space => none
  | .tooLarge => some (.error ⟨.integerTooLarge (String.ofList l.text), line⟩)
  | .illegal c => some (.error ⟨.illegalCharacter c, line⟩)
  | .unclosed => some (.error ⟨.illegalCharacter '"', line⟩)

/-- A stream of items and the line reached at its end. -/
structure Scanned where
  items : List ScanItem
  line : Nat
deriving DecidableEq

/-- Scans a text from a line on. Each step takes at least one character, so
`budget` characters need no more than `budget` steps. -/
def scanFrom : (budget line : Nat) → List Char → Scanned
  | 0, line, _ => ⟨[], line⟩
  | _ + 1, line, [] => ⟨[], line⟩
  | budget + 1, line, c :: cs =>
    let lexeme := Lexeme.starting c cs
    let line := line + lexeme.newlines
    let after := scanFrom budget line lexeme.rest
    ⟨(lexeme.item? line).toList ++ after.items, after.line⟩

/-- A budget beyond the length of the text makes no difference. -/
theorem scanFrom_of_length_le {n m line : Nat} {cs : List Char} (hn : cs.length ≤ n)
    (hm : cs.length ≤ m) : scanFrom n line cs = scanFrom m line cs := by
  induction n generalizing m line cs with
  | zero =>
    have : cs = [] := List.eq_nil_of_length_eq_zero (by omega)
    subst this
    cases m <;> rfl
  | succ n ih =>
    cases m with
    | zero =>
      have : cs = [] := List.eq_nil_of_length_eq_zero (by omega)
      subst this
      rfl
    | succ m =>
      cases cs with
      | nil => rfl
      | cons c cs =>
        have h := Lexeme.starting_rest_length c cs
        simp only [List.length_cons] at hn hm
        simp only [scanFrom]
        rw [ih (by omega) (by omega : _ ≤ m)]

def scanChars (cs : List Char) : Scanned := scanFrom cs.length 1 cs

def scan (source : String) : Scanned := scanChars source.toList

namespace Scanned

def tokens (s : Scanned) : List Located :=
  s.items.filterMap fun
    | .token t => some t
    | .error _ => none

def errors (s : Scanned) : List LexicalError :=
  s.items.filterMap fun
    | .token _ => none
    | .error e => some e

end Scanned

end MatrixScript
