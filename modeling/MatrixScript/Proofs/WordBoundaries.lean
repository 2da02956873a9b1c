import MatrixScript.Proofs.LongestMatch

/-!
# Where words end

Some characters stand in no word but at its start, strings, comments and blanks
apart (`Char.isStop`). Before one of them, or at the end of the text, a word that
spells a token is the longest there is, whatever comes behind (`Spells.longest`). So
a text can be scanned word by word; what stands between words only counts lines.
-/

namespace MatrixScript

/-! ## Words and tokens -/

inductive Spells : List Char → Token → Prop
  | real {w} : w ∈ LexicalRule.real.words → Spells w (.real (Number.readReal w))
  | int {w} : w ∈ LexicalRule.integer.words → Integer.ofDigits w < 9223372036854775808 →
      Spells w (.int (Int64.ofInt (Integer.ofDigits w)))
  | str {w} : w ∈ LexicalRule.string.words → Spells w (.str (String.ofList w))
  | name {w} : w ∈ LexicalRule.name.words → (∀ k : Keyword, w ≠ k.spelling) →
      Spells w (.name (String.ofList w))
  | keyword (k : Keyword) : Spells k.spelling (.keyword k)
  | symbol (s : Symbol) : Spells s.spelling (.symbol s)

def LexicalRule.isToken : LexicalRule → Bool
  | comment | newline | blanks => false
  | _ => true

theorem Spells.rule {w : List Char} {token : Token} (h : Spells w token) :
    ∃ rule : LexicalRule, w ∈ rule.words ∧ rule.isToken = true ∧
      (rule = .name → ∀ k, w ∉ (LexicalRule.keyword k).words) ∧
      ∀ line, rule.item? w line = some (.token ⟨token, line⟩) := by
  cases h with
  | real h => exact ⟨.real, h, rfl, by simp, fun _ => rfl⟩
  | int h hsmall => exact ⟨.integer, h, rfl, by simp, fun _ => by simp [LexicalRule.item?, hsmall]⟩
  | str h => exact ⟨.string, h, rfl, by simp, fun _ => rfl⟩
  | name h hne => exact ⟨.name, h, rfl, fun _ k hk => hne k (LexicalRule.mem_singleton.mp hk), fun _ => rfl⟩
  | keyword k => exact ⟨.keyword k, LexicalRule.mem_singleton.mpr rfl, rfl, by simp, fun _ => rfl⟩
  | symbol s => exact ⟨.symbol s, LexicalRule.mem_singleton.mpr rfl, rfl, by simp, fun _ => rfl⟩

/-! ## Characters that end words -/

/-- Characters that no word goes on with, except for strings, comments and blanks. -/
def isStop (c : Char) : Bool :=
  isBlank c || c == '\n' || c == '#' || c == ',' || c == ';' || c == ']'

theorem isStop_of_namePart {c : Char} (h : isNamePart c = true) : isStop c = false := by
  refine Bool.eq_false_iff.mpr fun hs => ?_
  simp only [isStop, isBlank, Bool.or_eq_true, beq_iff_eq, or_assoc] at hs
  rcases hs with rfl | rfl | rfl | rfl | rfl | rfl | rfl | rfl | rfl <;> cases h

theorem isStop_of_digit {c : Char} (h : c.isDigit = true) : isStop c = false :=
  isStop_of_namePart (by simp [isNamePart, h])

def Stops (rest : List Char) : Prop := ∀ c t, rest = c :: t → isStop c = true

namespace LexicalRule

theorem numeral_ne_stop {d f x : List Char} (h : Numeral d f x) : ∀ c ∈ d ++ f ++ x, isStop c = false := by
  have digits : ∀ {t}, t ∈ LexicalRule.digits → ∀ c ∈ t, isStop c = false :=
    fun ht c hc => isStop_of_digit ((mem_digits.mp ht).2 c hc)
  intro c hc
  rcases List.mem_append.mp hc with hc | hc
  · rcases List.mem_append.mp hc with hc | hc
    · exact isStop_of_digit (h.whole c hc)
    · rcases h.fraction with rfl | hf
      · cases hc
      · obtain ⟨t, ht, rfl⟩ := mem_fraction.mp hf
        rcases List.mem_cons.mp hc with rfl | hc
        · rfl
        · exact digits ht c hc
  · rcases h.exponent with rfl | hx
    · cases hc
    · obtain ⟨e, sign, t, he, hs, ht, rfl⟩ := mem_exponent.mp hx
      rcases List.mem_cons.mp hc with rfl | hc
      · rcases he with rfl | rfl <;> rfl
      · rcases List.mem_append.mp hc with hc | hc
        · rcases hs with rfl | rfl | rfl
          · cases hc
          · rw [List.mem_singleton.mp hc]; rfl
          · rw [List.mem_singleton.mp hc]; rfl
        · exact digits ht c hc

/-- A word of a rule for tokens goes on without a stop, unless it is a string. -/
theorem tail_ne_stop {rule : LexicalRule} {c : Char} {t : List Char} (h : c :: t ∈ rule.words)
    (hr : rule.isToken = true) (hs : rule ≠ .string) : ∀ d ∈ t, isStop d = false := by
  intro d hd
  cases rule with
  | real =>
    obtain ⟨_, _, _, hn, -, hw⟩ := mem_real.mp h
    exact numeral_ne_stop hn d (hw ▸ List.mem_cons_of_mem c hd)
  | integer =>
    have hall := numeral_ne_stop (mem_integer.mp h)
    simp only [List.append_nil] at hall
    exact hall d (List.mem_cons_of_mem c hd)
  | string => exact absurd rfl hs
  | name => exact isStop_of_namePart (nameParts_of_name h d (List.mem_cons_of_mem c hd))
  | keyword k =>
    have hall := nameParts_of_keyword k
    rw [← mem_singleton.mp h] at hall
    exact isStop_of_namePart (hall d (List.mem_cons_of_mem c hd))
  | symbol s =>
    have hall : s.spelling.tail.all (fun d => !isStop d) = true := by cases s <;> decide
    rw [← mem_singleton.mp h] at hall
    simpa using List.all_eq_true.mp hall d hd
  | comment | newline | blanks => cases hr

theorem eq_string_of_quote {rule : LexicalRule} (h : .quote ∈ rule.heads) : rule = string := by
  cases rule <;> first | rfl | simp [heads] at h

theorem isToken_eq_of_head {rule other : LexicalRule} {h : Head} (hr : h ∈ rule.heads)
    (ho : h ∈ other.heads) : other.isToken = rule.isToken := by
  have of_head : ∀ r : LexicalRule, h ∈ r.heads →
      r.isToken = !(h == .hash || h == .newline || h == .blank) := by
    intro r hr
    cases r <;> cases h <;> first | rfl | simp [heads] at hr
  rw [of_head rule hr, of_head other ho]

end LexicalRule

/-- A string goes on with no more than its closing quote. -/
theorem string_eq_of_prefix {v w rest : List Char} (hv : v ∈ LexicalRule.string.words)
    (hw : w ∈ LexicalRule.string.words) (h : v <+: w ++ rest) : v = w := by
  obtain ⟨s, hs, rfl⟩ := mem_string.mp hv
  obtain ⟨t, ht, rfl⟩ := mem_string.mp hw
  rw [List.cons_append, List.cons_prefix_cons] at h
  replace h := h.2
  have hquote : ('"' != '"') = false := rfl
  have hleft := (LexicalRule.takeWhile_of_stop hs hquote h).1
  rw [List.append_assoc] at hleft
  have hright := (LexicalRule.takeWhile_of_stop ht hquote (List.prefix_append (t ++ ['"']) rest)).1
  rw [List.append_assoc, hleft] at hright
  rw [hright]

/-- Before a stop, or at the end, a word that spells a token is the longest. -/
theorem Spells.longest {w rest : List Char} {token : Token} (h : Spells w token) (hrest : Stops rest) :
    ∃ rule, Longest (w ++ rest) rule w ∧ ∀ line, rule.item? w line = some (.token ⟨token, line⟩) := by
  obtain ⟨rule, hw, hr, hk, hitem⟩ := h.rule
  refine ⟨rule, ⟨hw, List.prefix_append w rest, fun other v hv hpre => ?_, hk⟩, hitem⟩
  obtain ⟨c, t, rfl, hc⟩ := LexicalRule.head_mem hw
  have hother := LexicalRule.head_of_prefix hv hpre
  by_contra hlen
  -- The longer word would go on with the stop.
  obtain ⟨u, rfl⟩ : c :: t <+: v :=
    List.prefix_of_prefix_length_le (List.prefix_append _ rest) hpre (by omega)
  obtain ⟨d, u, rfl⟩ : ∃ d u', u = d :: u' := by
    cases u with
    | nil => simp at hlen
    | cons d u => exact ⟨d, u, rfl⟩
  obtain ⟨more, hmore⟩ := (List.prefix_append_right_inj _).mp hpre
  have hstop := hrest d (u ++ more) hmore.symm
  by_cases hs : other = .string
  · subst hs
    rw [List.mem_singleton.mp hother] at hc
    obtain rfl := LexicalRule.eq_string_of_quote hc
    have heq := string_eq_of_prefix hv hw hpre
    simp at heq
  · have htoken : other.isToken = true := (LexicalRule.isToken_eq_of_head hc hother).trans hr
    rw [LexicalRule.tail_ne_stop hv htoken hs d (by simp)] at hstop
    cases hstop

/-! ## Scanning word by word -/

def itemsFrom (line : Nat) (text : List Char) : List ScanItem :=
  (scanFrom text.length line text).items

theorem itemsFrom_cons (line : Nat) (c : Char) (cs : List Char) :
    itemsFrom line (c :: cs) =
      ((Lexeme.starting c cs).item? (line + (Lexeme.starting c cs).newlines)).toList ++
        itemsFrom (line + (Lexeme.starting c cs).newlines) (Lexeme.starting c cs).rest := by
  unfold itemsFrom
  rw [List.length_cons, scanFrom]
  dsimp only
  rw [scanFrom_of_length_le (Lexeme.starting_rest_length c cs) (Nat.le_refl _)]

theorem itemsFrom_longest {rule : LexicalRule} {w rest : List Char} (h : Longest (w ++ rest) rule w)
    (line : Nat) : itemsFrom line (w ++ rest) =
      (rule.item? w (line + w.count '\n')).toList ++ itemsFrom (line + w.count '\n') rest := by
  have hrest := scanFrom_longestMatch rest.length (line + w.count '\n') rest (Nat.le_refl _)
  have hall := scanFrom_longestMatch (w ++ rest).length line (w ++ rest) (Nat.le_refl _)
  unfold itemsFrom
  rw [hall.unique (.word h hrest)]

/-- A word before a stop is scanned off as its token. -/
theorem itemsFrom_word {w rest : List Char} {token : Token} (h : Spells w token) (hrest : Stops rest)
    (line : Nat) : itemsFrom line (w ++ rest) =
      .token ⟨token, line + w.count '\n'⟩ :: itemsFrom (line + w.count '\n') rest := by
  obtain ⟨rule, hlongest, hitem⟩ := h.longest hrest
  rw [itemsFrom_longest hlongest, hitem]
  rfl

/-- A symbol of one character that goes on with nothing that follows. -/
theorem itemsFrom_symbol {c : Char} {cs : List Char} {s : Symbol}
    (h : Lexeme.starting c cs = ⟨.token (.symbol s), [c], cs⟩) (hc : c ≠ '\n') (line : Nat) :
    itemsFrom line (c :: cs) = .token ⟨.symbol s, line⟩ :: itemsFrom line cs := by
  have hlines : [c].count '\n' = 0 := by simp [hc]
  rw [itemsFrom_cons, h]
  simp only [Lexeme.newlines, hlines, Nat.add_zero]
  rfl

theorem itemsFrom_newline (line : Nat) (rest : List Char) :
    itemsFrom line ('\n' :: rest) = itemsFrom (line + 1) rest := itemsFrom_cons line '\n' rest

theorem count_newline_blanks {run : List Char} (h : ∀ c ∈ run, isBlank c = true) :
    run.count '\n' = 0 := List.count_eq_zero.mpr fun hm => by cases h _ hm

/-- The blanks that follow a blank go the same way, so one alone makes no difference. -/
theorem itemsFrom_blank {c : Char} (h : isBlank c = true) (line : Nat) (rest : List Char) :
    itemsFrom line (c :: rest) = itemsFrom line rest := by
  have run : ∀ {d : Char}, isBlank d = true → ∀ text : List Char,
      itemsFrom line (d :: text) = itemsFrom line (text.dropWhile isBlank) := by
    intro d hd text
    have hne : d ≠ '\n' := by
      rintro rfl
      cases hd
    have hlexeme : Lexeme.starting d text =
        ⟨.space, d :: text.takeWhile isBlank, text.dropWhile isBlank⟩ := by
      simp [Lexeme.starting, hne, hd]
    have hlines : (d :: text.takeWhile isBlank).count '\n' = 0 :=
      count_newline_blanks (List.forall_mem_cons.mpr ⟨hd, LexicalRule.takeWhile_all⟩)
    rw [itemsFrom_cons, hlexeme]
    simp only [Lexeme.newlines, hlines, Nat.add_zero]
    rfl
  rw [run h]
  cases rest with
  | nil => rfl
  | cons d rest =>
    by_cases hd : isBlank d = true
    · rw [run hd, List.dropWhile_cons_of_pos hd]
    · rw [List.dropWhile_cons_of_neg hd]

/-- A comment before the end of its line, or of the text, contributes nothing. -/
theorem itemsFrom_comment_end {t rest : List Char} (h : '\n' ∉ t)
    (hrest : rest = [] ∨ ∃ more, rest = '\n' :: more) (line : Nat) :
    itemsFrom line ('#' :: (t ++ rest)) = itemsFrom line rest := by
  have hall : ∀ c ∈ t, (c != '\n') = true := by
    intro c hc
    simp only [bne_iff_ne]
    rintro rfl
    exact h hc
  have htake : (t ++ rest).takeWhile (· != '\n') = t := by
    rw [List.takeWhile_append_of_pos hall]
    rcases hrest with rfl | ⟨more, rfl⟩ <;> simp
  have hdrop : (t ++ rest).dropWhile (· != '\n') = rest := by
    rw [List.dropWhile_append_of_pos hall]
    rcases hrest with rfl | ⟨more, rfl⟩ <;> simp
  have hlexeme : Lexeme.starting '#' (t ++ rest) = ⟨.space, '#' :: t, rest⟩ := by
    simp [Lexeme.starting, isBlank, htake, hdrop]
  have hlines : ('#' :: t).count '\n' = 0 := by simpa using List.count_eq_zero.mpr h
  rw [itemsFrom_cons, hlexeme]
  simp only [Lexeme.newlines, hlines, Nat.add_zero]
  rfl

theorem itemsFrom_comment {t : List Char} (h : '\n' ∉ t) (line : Nat) (rest : List Char) :
    itemsFrom line ('#' :: (t ++ '\n' :: rest)) = itemsFrom (line + 1) rest := by
  rw [itemsFrom_comment_end h (.inr ⟨rest, rfl⟩), itemsFrom_newline]

/-- A text that contributes nothing but tokens is scanned without an error. -/
theorem scan_of_items (source : String) (ts : List Located)
    (h : itemsFrom 1 source.toList = ts.map .token) :
    (scan source).errors = [] ∧ (scan source).tokens = ts := by
  have hitems : (scan source).items = ts.map .token := h
  unfold Scanned.errors Scanned.tokens
  rw [hitems, List.filterMap_map, List.filterMap_map]
  exact ⟨List.filterMap_eq_nil_iff.mpr fun _ _ => rfl, List.filterMap_some⟩

end MatrixScript
