import MatrixScript.Proofs.LexicalRules
import Mathlib.Data.List.TakeWhile

/-!
# Facts about the lexical rules

The words of a rule character by character, the parts of a numeral as longest
runs, and what the first character of a word tells. Numerals and symbols share
the point, keywords and names all letters; no other rules share a word's start
(`head_mem`), and but for keywords a word has one rule only (`rule_unique`).
-/

namespace MatrixScript
open scoped Computability

namespace LexicalRule

/-! ## Words, character by character -/

theorem mem_singleton {w v : List Char} : w ∈ ({v} : Language Char) ↔ w = v := Iff.rfl

theorem singleton_mul {c : Char} {l : Language Char} {w : List Char} :
    w ∈ ({[c]} : Language Char) * l ↔ ∃ t ∈ l, w = c :: t := by
  rw [Language.mem_mul]
  constructor
  · rintro ⟨a, ha, t, ht, rfl⟩
    rw [mem_singleton.mp ha]
    exact ⟨t, ht, rfl⟩
  · rintro ⟨t, ht, rfl⟩
    exact ⟨[c], mem_singleton.mpr rfl, t, ht, rfl⟩

theorem oneOf_mul {p : Char → Bool} {l : Language Char} {w : List Char} :
    w ∈ oneOf p * l ↔ ∃ c, p c = true ∧ ∃ t ∈ l, w = c :: t := by
  rw [Language.mem_mul]
  constructor
  · rintro ⟨a, ⟨c, hc, rfl⟩, t, ht, rfl⟩
    exact ⟨c, hc, t, ht, rfl⟩
  · rintro ⟨c, hc, t, ht, rfl⟩
    exact ⟨[c], ⟨c, hc, rfl⟩, t, ht, rfl⟩

theorem mem_many {p : Char → Bool} {w : List Char} : w ∈ (oneOf p)∗ ↔ ∀ c ∈ w, p c = true := by
  rw [Language.mem_kstar]
  constructor
  · rintro ⟨parts, rfl, hparts⟩ c hc
    obtain ⟨part, hpart, hc⟩ := List.mem_flatten.mp hc
    obtain ⟨d, hd, rfl⟩ := hparts part hpart
    rw [List.mem_singleton.mp hc]
    exact hd
  · intro h
    refine ⟨w.map fun c => [c], ?_, ?_⟩
    · rw [← List.flatMap_def, List.flatMap_singleton']
    · intro part hpart
      obtain ⟨c, hc, rfl⟩ := List.mem_map.mp hpart
      exact ⟨c, h c hc, rfl⟩

theorem mem_some {p : Char → Bool} {w : List Char} :
    w ∈ oneOf p * (oneOf p)∗ ↔ w ≠ [] ∧ ∀ c ∈ w, p c = true := by
  rw [oneOf_mul]
  constructor
  · rintro ⟨c, hc, t, ht, rfl⟩
    exact ⟨by simp, by simpa [hc] using mem_many.mp ht⟩
  · rintro ⟨hne, hall⟩
    obtain ⟨c, t, rfl⟩ := List.exists_cons_of_ne_nil hne
    rw [List.forall_mem_cons] at hall
    exact ⟨c, hall.1, t, mem_many.mpr hall.2, rfl⟩

/-! ## Runs -/

theorem takeWhile_all {p : Char → Bool} {text : List Char} : ∀ c ∈ text.takeWhile p, p c = true :=
  fun _ hc => List.mem_takeWhile_imp hc

theorem length_le_takeWhile {p : Char → Bool} {w text : List Char} (h : ∀ c ∈ w, p c = true)
    (hw : w <+: text) : w.length ≤ (text.takeWhile p).length := by
  obtain ⟨rest, rfl⟩ := hw
  rw [List.takeWhile_append_of_pos h, List.length_append]
  omega

theorem takeWhile_of_stop {p : Char → Bool} {w text rest : List Char} {c : Char}
    (h : ∀ x ∈ w, p x = true) (hc : p c = false) (hw : w ++ c :: rest <+: text) :
    text.takeWhile p = w ∧ c :: rest <+: text.dropWhile p := by
  obtain ⟨more, rfl⟩ := hw
  rw [List.append_assoc, List.takeWhile_append_of_pos h, List.dropWhile_append_of_pos h]
  simp [hc]

/-! ## Numerals -/

theorem mem_digits {w : List Char} : w ∈ digits ↔ w ≠ [] ∧ ∀ c ∈ w, c.isDigit = true := mem_some

theorem mem_fraction {w : List Char} : w ∈ fraction ↔ ∃ t ∈ digits, w = '.' :: t := singleton_mul

theorem mem_exponent {w : List Char} : w ∈ exponent ↔ ∃ e sign t, (e = 'e' ∨ e = 'E') ∧
    (sign = [] ∨ sign = ['+'] ∨ sign = ['-']) ∧ t ∈ digits ∧ w = e :: (sign ++ t) := by
  unfold exponent
  rw [mul_assoc, oneOf_mul]
  constructor
  · rintro ⟨e, he, _, hu, rfl⟩
    obtain ⟨sign, hs, t, ht, rfl⟩ := Language.mem_mul.mp hu
    rw [Language.mem_add, Language.mem_add, Language.mem_one, or_assoc] at hs
    exact ⟨e, sign, t, by simpa using he, hs, ht, rfl⟩
  · rintro ⟨e, sign, t, he, hs, ht, rfl⟩
    refine ⟨e, by simpa using he, sign ++ t, Language.mem_mul.mpr ⟨sign, ?_, t, ht, rfl⟩, rfl⟩
    rw [Language.mem_add, Language.mem_add, Language.mem_one, or_assoc]
    exact hs

theorem mem_optional {l : Language Char} {w : List Char} : w ∈ 1 + l ↔ w = [] ∨ w ∈ l := by
  rw [Language.mem_add, Language.mem_one]

/-- Digits or none, a fraction or none, an exponent or none: the parts of a numeral. -/
structure Numeral (d f x : List Char) : Prop where
  whole : ∀ c ∈ d, c.isDigit = true
  fraction : f = [] ∨ f ∈ fraction
  exponent : x = [] ∨ x ∈ exponent
  starts : d ++ f ≠ []

theorem mem_integer {w : List Char} : w ∈ integer.words ↔ Numeral w [] [] := by
  show w ∈ digits ↔ _
  rw [mem_digits]
  constructor
  · rintro ⟨hne, hall⟩
    exact ⟨hall, .inl rfl, .inl rfl, by simpa using hne⟩
  · rintro ⟨hall, -, -, hne⟩
    exact ⟨by simpa using hne, hall⟩

theorem mem_real {w : List Char} : w ∈ real.words ↔ ∃ d f x,
    Numeral d f x ∧ ¬ (f = [] ∧ x = []) ∧ w = d ++ f ++ x := by
  show w ∈ digits * fraction * (1 + exponent) + fraction * (1 + exponent) + digits * exponent ↔ _
  rw [Language.mem_add, Language.mem_add]
  have frac_ne : ∀ f ∈ fraction, f ≠ [] := by
    intro f hf
    obtain ⟨t, -, rfl⟩ := mem_fraction.mp hf
    simp
  constructor
  · rintro ((h | h) | h)
    · obtain ⟨_, hdf, x, hx, rfl⟩ := Language.mem_mul.mp h
      obtain ⟨d, hd, f, hf, rfl⟩ := Language.mem_mul.mp hdf
      refine ⟨d, f, x, ⟨(mem_digits.mp hd).2, .inr hf, mem_optional.mp hx, ?_⟩, ?_, rfl⟩
      · exact List.append_ne_nil_of_right_ne_nil d (frac_ne f hf)
      · exact fun hn => frac_ne f hf hn.1
    · obtain ⟨f, hf, x, hx, rfl⟩ := Language.mem_mul.mp h
      refine ⟨[], f, x, ⟨by simp, .inr hf, mem_optional.mp hx, frac_ne f hf⟩, ?_, rfl⟩
      exact fun hn => frac_ne f hf hn.1
    · obtain ⟨d, hd, x, hx, rfl⟩ := Language.mem_mul.mp h
      obtain ⟨hne, hall⟩ := mem_digits.mp hd
      refine ⟨d, [], x, ⟨hall, .inl rfl, .inr hx, by simpa using hne⟩, ?_, by simp⟩
      rintro ⟨-, rfl⟩
      obtain ⟨e, sign, t, -, -, -, h⟩ := mem_exponent.mp hx
      cases h
  · rintro ⟨d, f, x, ⟨hd, hf, hx, hs⟩, hn, rfl⟩
    rcases hf with rfl | hf
    · -- Without a fraction there are digits and an exponent.
      have hd' : d ∈ digits := mem_digits.mpr ⟨by simpa using hs, hd⟩
      rcases hx with rfl | hx
      · exact absurd ⟨rfl, rfl⟩ hn
      · rw [List.append_nil]
        exact .inr (Language.mem_mul.mpr ⟨d, hd', x, hx, rfl⟩)
    · have hx : x ∈ 1 + exponent := mem_optional.mpr hx
      cases d with
      | nil => exact .inl (.inr (Language.mem_mul.mpr ⟨f, hf, x, hx, rfl⟩))
      | cons c d =>
        have hd' : c :: d ∈ digits := mem_digits.mpr ⟨by simp, hd⟩
        refine .inl (.inl (Language.mem_mul.mpr ⟨c :: d ++ f, ?_, x, hx, rfl⟩))
        exact Language.mem_mul.mpr ⟨c :: d, hd', f, hf, rfl⟩

theorem fractionPart_mem (text : List Char) :
    (fractionPart text).1 = [] ∨ (fractionPart text).1 ∈ fraction := by
  unfold fractionPart
  split
  · rename_i cs
    dsimp only
    split
    · exact .inl rfl
    · rename_i h
      exact .inr (mem_fraction.mpr ⟨_, mem_digits.mpr ⟨by simpa using h, takeWhile_all⟩, rfl⟩)
  · exact .inl rfl

theorem signPart_cases (text : List Char) :
    (signPart text).1 = [] ∨ (signPart text).1 = ['+'] ∨ (signPart text).1 = ['-'] := by
  unfold signPart
  split <;> simp

theorem exponentPart_mem (text : List Char) :
    (exponentPart text).1 = [] ∨ (exponentPart text).1 ∈ exponent := by
  unfold exponentPart
  split
  · exact .inl rfl
  · rename_i e cs
    dsimp only
    split
    · rename_i h
      simp only [Bool.and_eq_true, Bool.or_eq_true, beq_iff_eq, Bool.not_eq_true',
        List.isEmpty_eq_false_iff] at h
      have ht : (signPart cs).2.takeWhile Char.isDigit ∈ digits :=
        mem_digits.mpr ⟨h.2, takeWhile_all⟩
      exact .inr (mem_exponent.mpr ⟨e, _, _, h.1, signPart_cases cs, ht, rfl⟩)
    · exact .inl rfl

theorem fractionPart_of_mark {e : Char} {text : List Char} (h : e ≠ '.') :
    fractionPart (e :: text) = ([], e :: text) := by
  unfold fractionPart
  split
  · rename_i heq
    exact absurd (List.cons.inj heq).1 h
  · rfl

theorem fractionPart_of_digits {text : List Char} (h : text.takeWhile Char.isDigit ≠ []) :
    fractionPart ('.' :: text) =
      ('.' :: text.takeWhile Char.isDigit, text.dropWhile Char.isDigit) := by
  unfold fractionPart
  simp [h]

theorem signPart_of_prefix {sign t text : List Char}
    (hs : sign = [] ∨ sign = ['+'] ∨ sign = ['-']) (ht : t ∈ digits) (h : sign ++ t <+: text) :
    (signPart text).1 = sign ∧ t <+: (signPart text).2 := by
  obtain ⟨more, rfl⟩ := h
  rcases hs with rfl | rfl | rfl
  · obtain ⟨hne, hall⟩ := mem_digits.mp ht
    obtain ⟨d, t, rfl⟩ := List.exists_cons_of_ne_nil hne
    have hd := hall d List.mem_cons_self
    have hsign : signPart (d :: (t ++ more)) = ([], d :: (t ++ more)) := by
      unfold signPart
      split
      · rename_i heq
        rw [(List.cons.inj heq).1] at hd
        cases hd
      · rename_i heq
        rw [(List.cons.inj heq).1] at hd
        cases hd
      · rfl
    simp [hsign]
  · exact ⟨rfl, List.prefix_append t more⟩
  · exact ⟨rfl, List.prefix_append t more⟩

/-- No exponent at the start of a text is longer than the one cut off. -/
theorem exponentPart_longest {x text : List Char} (hx : x ∈ exponent) (h : x <+: text) :
    x.length ≤ (exponentPart text).1.length := by
  obtain ⟨e, sign, t, he, hs, ht, rfl⟩ := mem_exponent.mp hx
  obtain ⟨more, rfl⟩ := h
  obtain ⟨hsign, hpre⟩ := signPart_of_prefix hs ht (List.prefix_append (sign ++ t) more)
  obtain ⟨hne, hall⟩ := mem_digits.mp ht
  have hlen := length_le_takeWhile hall hpre
  have hpos : 0 < t.length := List.length_pos_iff.mpr hne
  have hdigits : (signPart (sign ++ t ++ more)).2.takeWhile Char.isDigit ≠ [] := by
    rw [← List.length_pos_iff]
    omega
  rw [List.cons_append, exponentPart]
  dsimp only
  rw [if_pos (by simpa using ⟨he, by simpa using hdigits⟩), hsign]
  simp only [List.length_cons, List.length_append]
  omega

/-- No fraction and exponent at the start of a text are longer than those cut off. -/
theorem parts_longest {f x text : List Char} (hf : f = [] ∨ f ∈ fraction)
    (hx : x = [] ∨ x ∈ exponent) (h : f ++ x <+: text) :
    f.length + x.length ≤
      (fractionPart text).1.length + (exponentPart (fractionPart text).2).1.length := by
  rcases hf with rfl | hf
  · rcases hx with rfl | hx
    · exact Nat.zero_le _
    · -- The text starts with the mark of an exponent, so that no fraction is cut off.
      obtain ⟨e, sign, t, he, -, -, rfl⟩ := mem_exponent.mp hx
      have hlen := exponentPart_longest hx h
      obtain ⟨more, rfl⟩ := h
      have hpoint : e ≠ '.' := by rcases he with rfl | rfl <;> decide
      rw [List.nil_append, List.cons_append] at hlen ⊢
      rw [fractionPart_of_mark hpoint]
      simpa using hlen
  · obtain ⟨t, ht, rfl⟩ := mem_fraction.mp hf
    obtain ⟨hne, hall⟩ := mem_digits.mp ht
    obtain ⟨more, rfl⟩ := h
    rw [List.cons_append, List.cons_append]
    have hpre : t <+: t ++ x ++ more := by
      rw [List.append_assoc]
      exact List.prefix_append t _
    have hlen := length_le_takeWhile hall hpre
    have hpos : 0 < t.length := List.length_pos_iff.mpr hne
    rw [fractionPart_of_digits (by rw [← List.length_pos_iff]; omega)]
    rcases hx with rfl | hx
    · simp only [List.length_cons, List.length_nil]
      omega
    · -- The digits of the fraction stop at the mark of the exponent.
      obtain ⟨e, sign, u, he, -, -, rfl⟩ := mem_exponent.mp hx
      have hmark : e.isDigit = false := by rcases he with rfl | rfl <;> decide
      obtain ⟨htake, hrest⟩ :=
        takeWhile_of_stop hall hmark (List.prefix_append (t ++ e :: (sign ++ u)) more)
      have hexp := exponentPart_longest hx hrest
      rw [htake]
      simp only [List.length_cons] at hexp ⊢
      omega

theorem numeral_text (text : List Char) : (Lexeme.numeral text).text =
    text.takeWhile Char.isDigit ++ (fractionPart (text.dropWhile Char.isDigit)).1 ++
      (exponentPart (fractionPart (text.dropWhile Char.isDigit)).2).1 := by
  unfold Lexeme.numeral
  dsimp only
  split
  · split <;> rfl
  · rfl

/-- No numeral at the start of a text is longer than the one read. -/
theorem numeral_longest {d f x text : List Char} (hn : Numeral d f x) (h : d ++ f ++ x <+: text) :
    (d ++ f ++ x).length ≤ (Lexeme.numeral text).text.length := by
  have hlen : d.length + (f.length + x.length) ≤ (text.takeWhile Char.isDigit).length +
      ((fractionPart (text.dropWhile Char.isDigit)).1.length +
        (exponentPart (fractionPart (text.dropWhile Char.isDigit)).2).1.length) := by
    rw [List.append_assoc] at h
    cases hfx : f ++ x with
    | nil =>
      have hsum : f.length + x.length = 0 := by rw [← List.length_append, hfx]; rfl
      rw [hfx, List.append_nil] at h
      have := length_le_takeWhile hn.whole h
      omega
    | cons c rest =>
      have hc : c.isDigit = false := by
        rcases hn.fraction with rfl | hf
        · rcases hn.exponent with rfl | hx
          · cases hfx
          · obtain ⟨e, sign, t, he, -, -, rfl⟩ := mem_exponent.mp hx
            cases hfx
            rcases he with rfl | rfl <;> decide
        · obtain ⟨t, -, rfl⟩ := mem_fraction.mp hf
          cases hfx
          decide
      rw [hfx] at h
      obtain ⟨htake, hrest⟩ := takeWhile_of_stop hn.whole hc h
      rw [← hfx] at hrest
      have := parts_longest hn.fraction hn.exponent hrest
      rw [htake]
      omega
  rw [numeral_text, List.length_append, List.length_append, List.length_append,
    List.length_append]
  omega

/-! ## First characters -/

inductive Head where
  | newline | blank | hash | quote | letter | digit | point | mark
deriving DecidableEq

def Head.of (c : Char) : Head :=
  if c == '\n' then newline
  else if isBlank c then blank
  else if c == '#' then hash
  else if c == '"' then quote
  else if isNameStart c then letter
  else if c.isDigit then digit
  else if c == '.' then point
  else mark

def heads : LexicalRule → List Head
  | real => [.digit, .point]
  | integer => [.digit]
  | string => [.quote]
  | name => [.letter]
  | keyword _ => [.letter]
  | symbol _ => [.point, .mark]
  | comment => [.hash]
  | newline => [.newline]
  | blanks => [.blank]

theorem Head.of_digit {c : Char} (h : c.isDigit = true) : Head.of c = .digit := by
  have hne : ∀ d : Char, d.isDigit = false → c ≠ d := by
    rintro d hd rfl
    rw [h] at hd
    cases hd
  have hblank : isBlank c = false := by
    simp [isBlank, hne ' ' rfl, hne '\t' rfl, hne '\r' rfl, hne '\x0c' rfl]
  have hname : isNameStart c = false := by
    have halpha : c.isAlpha = false := by
      simp only [Char.isDigit, Bool.and_eq_true, decide_eq_true_eq, ge_iff_le] at h
      delta Char.isAlpha Char.isUpper Char.isLower
      grind
    simp [isNameStart, halpha, hne '_' rfl]
  simp [Head.of, hne '\n' rfl, hblank, hne '#' rfl, hne '"' rfl, hname, h]

theorem Head.of_letter {c : Char} (h : isNameStart c = true) : Head.of c = .letter := by
  have hne : ∀ d : Char, isNameStart d = false → c ≠ d := by
    rintro d hd rfl
    rw [h] at hd
    cases hd
  have hblank : isBlank c = false := by
    simp [isBlank, hne ' ' rfl, hne '\t' rfl, hne '\r' rfl, hne '\x0c' rfl]
  simp [Head.of, hne '\n' rfl, hblank, hne '#' rfl, hne '"' rfl, h]

theorem Head.of_blank {c : Char} (h : isBlank c = true) : Head.of c = .blank := by
  have hne : c ≠ '\n' := by
    rintro rfl
    cases h
  simp [Head.of, hne, h]

theorem Head.eq_of_point {c : Char} (h : Head.of c = .point) : c = '.' := by
  by_contra hne
  revert h
  unfold Head.of
  repeat' split
  all_goals simp_all

/-- The first character of a word is one of its rule. -/
theorem head_mem {rule : LexicalRule} {w : List Char} (h : w ∈ rule.words) :
    ∃ c t, w = c :: t ∧ Head.of c ∈ rule.heads := by
  cases rule with
  | real =>
    obtain ⟨d, f, x, hn, -, rfl⟩ := mem_real.mp h
    cases d with
    | cons c d => exact ⟨c, _, rfl, by simp [heads, Head.of_digit (hn.whole c List.mem_cons_self)]⟩
    | nil =>
      rcases hn.fraction with rfl | hf
      · exact absurd rfl hn.starts
      · obtain ⟨t, -, rfl⟩ := mem_fraction.mp hf
        exact ⟨'.', t ++ x, rfl, by decide⟩
  | integer =>
    obtain ⟨c, hc, t, -, rfl⟩ := oneOf_mul.mp h
    exact ⟨c, t, rfl, by simp [heads, Head.of_digit hc]⟩
  | string =>
    rw [words, mul_assoc] at h
    obtain ⟨t, -, rfl⟩ := singleton_mul.mp h
    exact ⟨'"', t, rfl, by decide⟩
  | name =>
    obtain ⟨c, hc, t, -, rfl⟩ := oneOf_mul.mp h
    exact ⟨c, t, rfl, by simp [heads, Head.of_letter hc]⟩
  | keyword k =>
    rw [mem_singleton.mp h]
    cases k <;> exact ⟨_, _, rfl, by decide⟩
  | symbol s =>
    rw [mem_singleton.mp h]
    cases s <;> exact ⟨_, _, rfl, by decide⟩
  | comment =>
    obtain ⟨t, -, rfl⟩ := singleton_mul.mp h
    exact ⟨'#', t, rfl, by decide⟩
  | newline => exact ⟨'\n', [], mem_singleton.mp h, by decide⟩
  | blanks =>
    obtain ⟨c, hc, t, -, rfl⟩ := oneOf_mul.mp h
    exact ⟨c, t, rfl, by simp [heads, Head.of_blank hc]⟩

theorem head_of_prefix {rule : LexicalRule} {w text : List Char} {c : Char} (h : w ∈ rule.words)
    (hw : w <+: c :: text) : Head.of c ∈ rule.heads := by
  obtain ⟨d, t, rfl, hd⟩ := head_mem h
  rw [← (List.cons_prefix_cons.mp hw).1]
  exact hd

theorem symbol_after_point {s : Symbol} {t : List Char} (h : s.spelling = '.' :: t) :
    ∃ x, t = [x] ∧ x.isDigit = false := by
  cases s <;> cases h <;> exact ⟨_, rfl, rfl⟩

theorem real_after_point {t : List Char} (h : '.' :: t ∈ real.words) :
    t.head?.any Char.isDigit = true := by
  obtain ⟨d, f, x, hn, -, hw⟩ := mem_real.mp h
  cases d with
  | cons c d =>
    have hc := hn.whole c List.mem_cons_self
    rw [List.cons_append, List.cons_append, List.cons.injEq] at hw
    rw [← hw.1] at hc
    cases hc
  | nil =>
    rcases hn.fraction with rfl | hf
    · exact absurd rfl hn.starts
    · obtain ⟨u, hu, rfl⟩ := mem_fraction.mp hf
      obtain ⟨hne, hall⟩ := mem_digits.mp hu
      obtain ⟨e, u, rfl⟩ := List.exists_cons_of_ne_nil hne
      cases hw
      simpa using hall e List.mem_cons_self

theorem not_integer_of_real {w : List Char} (h : w ∈ real.words) : w ∉ integer.words := by
  obtain ⟨d, f, x, hn, hreal, rfl⟩ := mem_real.mp h
  intro hint
  have hall := (mem_integer.mp hint).whole
  apply hreal
  constructor
  · rcases hn.fraction with hf | hf
    · exact hf
    · obtain ⟨t, -, rfl⟩ := mem_fraction.mp hf
      exact absurd (hall '.' (by simp)) (by decide)
  · rcases hn.exponent with hx | hx
    · exact hx
    · obtain ⟨e, sign, t, he, -, -, rfl⟩ := mem_exponent.mp hx
      have he' := hall e (by simp)
      rcases he with rfl | rfl <;> cases he'

theorem not_symbol_of_real {w : List Char} (h : w ∈ real.words) (s : Symbol) :
    w ∉ (symbol s).words := by
  intro hs
  obtain ⟨c, t, rfl, hc⟩ := head_mem h
  have hs : s.spelling = c :: t := (mem_singleton.mp hs).symm
  by_cases hp : c = '.'
  · subst hp
    obtain ⟨x, rfl, hx⟩ := symbol_after_point hs
    have hd := real_after_point h
    simp [hx] at hd
  · -- A symbol without a point starts like no numeral.
    have hmark : Head.of c ≠ .digit ∧ Head.of c ≠ .point := by
      cases s <;> cases hs <;> first | exact absurd rfl hp | decide
    simp [heads, hmark.1, hmark.2] at hc

theorem keyword_injective {k k' : Keyword} (h : k.spelling = k'.spelling) : k = k' := by
  revert h
  cases k <;> cases k' <;> decide

theorem symbol_injective {s s' : Symbol} (h : s.spelling = s'.spelling) : s = s' := by
  revert h
  cases s <;> cases s' <;> decide

/-- A word has one rule only, except for keywords, which could be names. -/
theorem rule_unique {rule rule' : LexicalRule} {w : List Char} (h : w ∈ rule.words)
    (h' : w ∈ rule'.words) (hk : rule = .name → ∀ k, w ∉ (keyword k).words)
    (hk' : rule' = .name → ∀ k, w ∉ (keyword k).words) : rule = rule' := by
  obtain ⟨c, t, rfl, hc⟩ := head_mem h
  have hc' := head_of_prefix h' List.prefix_rfl
  cases rule with
  | real =>
    cases rule' with
    | real => rfl
    | integer => exact absurd h' (not_integer_of_real h)
    | symbol s => exact absurd h' (not_symbol_of_real h s)
    | _ => grind [heads]
  | integer =>
    cases rule' with
    | integer => rfl
    | real => exact absurd h (not_integer_of_real h')
    | _ => grind [heads]
  | symbol s =>
    cases rule' with
    | symbol s' =>
      exact congrArg symbol
        (symbol_injective ((mem_singleton.mp h).symm.trans (mem_singleton.mp h')))
    | real => exact absurd h (not_symbol_of_real h' s)
    | _ => grind [heads]
  | name =>
    cases rule' with
    | name => rfl
    | keyword k => exact absurd h' (hk rfl k)
    | _ => grind [heads]
  | keyword k =>
    cases rule' with
    | keyword k' =>
      exact congrArg keyword
        (keyword_injective ((mem_singleton.mp h).symm.trans (mem_singleton.mp h')))
    | name => exact absurd h (hk' rfl k)
    | _ => grind [heads]
  | _ => cases rule' <;> grind [heads]

end LexicalRule

end MatrixScript
