import MatrixScript.Token

/-!
# Lexemes

`Lexeme.starting` splits off the longest lexeme at the start of a text. Which
rule applies shows from the first character; within a rule the longest run is
taken. Every lexeme holds at least one character, also where no rule applies.
-/

namespace MatrixScript

/-! ## Character classes -/

/-- Blanks inside a line: space, tab, carriage return, form feed. -/
def isBlank (c : Char) : Bool := c == ' ' || c == '\t' || c == '\r' || c == '\x0c'

def isNameStart (c : Char) : Bool := c.isAlpha || c == '_'

def isNamePart (c : Char) : Bool := c.isAlpha || c.isDigit || c == '_'

/-! ## Parts of a numeral -/

/-- Cuts off a point with at least one digit after it, if the text starts so. -/
def fractionPart : List Char → List Char × List Char
  | '.' :: cs =>
    let digits := cs.takeWhile Char.isDigit
    if digits.isEmpty then ([], '.' :: cs) else ('.' :: digits, cs.dropWhile Char.isDigit)
  | cs => ([], cs)

def signPart : List Char → List Char × List Char
  | '+' :: cs => (['+'], cs)
  | '-' :: cs => (['-'], cs)
  | cs => ([], cs)

/-- Cuts off an exponent mark, an optional sign and at least one digit, if the
text starts so. -/
def exponentPart : List Char → List Char × List Char
  | [] => ([], [])
  | e :: cs =>
    let (sign, unsigned) := signPart cs
    let digits := unsigned.takeWhile Char.isDigit
    if (e == 'e' || e == 'E') && !digits.isEmpty then
      (e :: sign ++ digits, unsigned.dropWhile Char.isDigit)
    else ([], e :: cs)

/-! ## Lexemes -/

/-- What a lexeme stands for. -/
inductive Reading where
  | token (token : Token)
  /-- Blanks, newlines and comments. -/
  | space
  /-- An integer literal beyond 64 bits. -/
  | tooLarge
  /-- A character that starts no lexeme. -/
  | illegal (c : Char)
  /-- A quote that nothing closes; it takes the rest of the text with it. -/
  | unclosed
deriving DecidableEq

/-- A reading, the characters it covers and those that follow. -/
structure Lexeme where
  reading : Reading
  text : List Char
  rest : List Char
deriving DecidableEq

namespace Lexeme

/-- A word is a keyword if it is spelled like one, otherwise a name. -/
def word (cs : List Char) : Lexeme :=
  let text := cs.takeWhile isNamePart
  let token := match Keyword.ofSpelling? text with
    | some k => Token.keyword k
    | none => Token.name (String.ofList text)
  ⟨.token token, text, cs.dropWhile isNamePart⟩

/-- A numeral: digits, then a fraction or an exponent or both for a real. -/
def numeral (cs : List Char) : Lexeme :=
  let whole := cs.takeWhile Char.isDigit
  let (fraction, afterFraction) := fractionPart (cs.dropWhile Char.isDigit)
  let (exponent, rest) := exponentPart afterFraction
  let text := whole ++ fraction ++ exponent
  if fraction.isEmpty && exponent.isEmpty then
    match Integer.fit? (Integer.ofDigits whole) with
    | some value => ⟨.token (.int value), text, rest⟩
    | none => ⟨.tooLarge, text, rest⟩
  else ⟨.token (.real (Number.readReal text)), text, rest⟩

def quoted (cs : List Char) : Lexeme :=
  let inner := cs.takeWhile (· != '"')
  match cs.dropWhile (· != '"') with
  | close :: rest =>
    let text := '"' :: inner ++ [close]
    ⟨.token (.str (String.ofList text)), text, rest⟩
  | [] => ⟨.unclosed, '"' :: cs, []⟩

def symbol (c : Char) (cs : List Char) : Lexeme :=
  match Symbol.starting? (c :: cs) with
  | some s => ⟨.token (.symbol s), s.spelling, (c :: cs).drop s.spelling.length⟩
  | none => ⟨.illegal c, [c], cs⟩

/-- The lexeme that starts a text with a first character. -/
def starting (c : Char) (cs : List Char) : Lexeme :=
  if c == '\n' then ⟨.space, [c], cs⟩
  else if isBlank c then ⟨.space, c :: cs.takeWhile isBlank, cs.dropWhile isBlank⟩
  else if c == '#' then ⟨.space, c :: cs.takeWhile (· != '\n'), cs.dropWhile (· != '\n')⟩
  else if c == '"' then quoted cs
  else if isNameStart c then word (c :: cs)
  else if c.isDigit || (c == '.' && cs.head?.any Char.isDigit) then numeral (c :: cs)
  else symbol c cs

/-- Newlines passed by reading the lexeme. An unclosed quote passes none. -/
def newlines (l : Lexeme) : Nat :=
  match l.reading with
  | .unclosed => 0
  | _ => l.text.count '\n'

end Lexeme

/-! ## What a lexeme covers -/

theorem fractionPart_append (cs : List Char) :
    (fractionPart cs).1 ++ (fractionPart cs).2 = cs := by
  unfold fractionPart
  split
  · dsimp only
    split
    · rfl
    · simp
  · rfl

theorem signPart_append (cs : List Char) : (signPart cs).1 ++ (signPart cs).2 = cs := by
  unfold signPart
  split <;> rfl

theorem exponentPart_append (cs : List Char) :
    (exponentPart cs).1 ++ (exponentPart cs).2 = cs := by
  unfold exponentPart
  split
  · rfl
  · rename_i e cs
    dsimp only
    split
    · simp [signPart_append cs]
    · rfl

namespace Lexeme

theorem word_append (cs : List Char) : (word cs).text ++ (word cs).rest = cs := by
  simp [word]

theorem numeral_append (cs : List Char) : (numeral cs).text ++ (numeral cs).rest = cs := by
  have h : cs.takeWhile Char.isDigit ++ (fractionPart (cs.dropWhile Char.isDigit)).1
      ++ (exponentPart (fractionPart (cs.dropWhile Char.isDigit)).2).1
      ++ (exponentPart (fractionPart (cs.dropWhile Char.isDigit)).2).2 = cs := by
    rw [List.append_assoc, exponentPart_append, List.append_assoc, fractionPart_append,
      List.takeWhile_append_dropWhile]
  unfold numeral
  dsimp only
  split
  · split <;> exact h
  · exact h

theorem quoted_append (cs : List Char) : (quoted cs).text ++ (quoted cs).rest = '"' :: cs := by
  have h := List.takeWhile_append_dropWhile (p := (· != '"')) (l := cs)
  unfold quoted
  dsimp only
  split
  · rename_i close rest hd
    rw [hd] at h
    simp [h]
  · simp

theorem symbol_append (c : Char) (cs : List Char) :
    (symbol c cs).text ++ (symbol c cs).rest = c :: cs := by
  unfold symbol
  split
  · rename_i s hs
    have h := List.find?_some hs
    obtain ⟨t, ht⟩ := List.isPrefixOf_iff_prefix.1 h
    simp [← ht]
  · rfl

/-- A lexeme and what follows it make up the text. -/
theorem starting_append (c : Char) (cs : List Char) :
    (starting c cs).text ++ (starting c cs).rest = c :: cs := by
  unfold starting
  repeat' split
  · rfl
  · simp
  · simp
  · rename_i h; simp only [beq_iff_eq] at h; subst h; exact quoted_append cs
  · exact word_append (c :: cs)
  · exact numeral_append (c :: cs)
  · exact symbol_append c cs

theorem symbol_text_ne_nil (c : Char) (cs : List Char) : (symbol c cs).text ≠ [] := by
  unfold symbol
  split
  · rename_i s _
    cases s <;> simp [Symbol.spelling]
  · simp

theorem numeral_text_ne_nil {c : Char} {cs : List Char}
    (h : c.isDigit || (c == '.' && cs.head?.any Char.isDigit)) :
    (numeral (c :: cs)).text ≠ [] := by
  have key : (c :: cs).takeWhile Char.isDigit ++ (fractionPart ((c :: cs).dropWhile Char.isDigit)).1
      ≠ [] := by
    by_cases hd : c.isDigit
    · simp [hd]
    · simp only [hd, Bool.false_or, Bool.and_eq_true, beq_iff_eq] at h
      obtain ⟨rfl, hc⟩ := h
      cases cs with
      | nil => simp at hc
      | cons d cs =>
        have hd : d.isDigit = true := by simpa using hc
        simp [fractionPart, show Char.isDigit '.' = false from rfl, hd]
  unfold numeral
  dsimp only
  intro hnil
  apply key
  revert hnil
  split
  · split <;> simp +contextual
  · simp +contextual

/-- Every lexeme takes at least one character. -/
theorem starting_text_ne_nil (c : Char) (cs : List Char) : (starting c cs).text ≠ [] := by
  unfold starting
  repeat' split
  · simp
  · simp
  · simp
  · unfold quoted
    dsimp only
    split <;> simp
  · rename_i h
    have : isNamePart c = true := by
      simp only [isNameStart, isNamePart, Bool.or_eq_true] at h ⊢
      rcases h with h | h <;> simp [h]
    simp [word, this]
  · rename_i h
    exact numeral_text_ne_nil h
  · exact symbol_text_ne_nil c cs

theorem starting_rest_length (c : Char) (cs : List Char) :
    (starting c cs).rest.length ≤ cs.length := by
  have h := congrArg List.length (starting_append c cs)
  have hne := List.length_pos_iff.2 (starting_text_ne_nil c cs)
  simp only [List.length_append, List.length_cons] at h
  omega

end Lexeme

end MatrixScript
