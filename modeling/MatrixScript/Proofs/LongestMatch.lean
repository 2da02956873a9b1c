import MatrixScript.Proofs.LexicalLemmas

/-!
# Scanning is longest match

`starting_found`: the lexeme split off a text is the longest word of any rule at
its start, or a character that starts none. The stream of a source follows by
induction on its length, and no other stream comes from longest match
(`scan_longestMatch`).
-/

namespace MatrixScript

/-! ## Lexemes -/

inductive Found (text : List Char) : Lexeme → Prop
  | word (rule : LexicalRule) {l : Lexeme} : Longest text rule l.text →
      (∀ line, l.item? line = rule.item? l.text line) → l.newlines = l.text.count '\n' →
      Found text l
  | illegal {c rest} : text = c :: rest → Unmatched text → c ≠ '"' →
      Found text ⟨.illegal c, [c], rest⟩
  | unclosed {rest} : text = '"' :: rest → Unmatched text → '"' ∉ rest →
      Found text ⟨.unclosed, text, []⟩

section
open LexicalRule

theorem newline_found (cs : List Char) : Found ('\n' :: cs) ⟨.space, ['\n'], cs⟩ := by
  refine .word .newline ⟨mem_singleton.mpr rfl, ⟨cs, rfl⟩, ?_, by simp⟩ (fun _ => rfl) rfl
  intro other w hw hpre
  have hc := head_of_prefix hw hpre
  cases other with
  | newline => rw [mem_singleton.mp hw]
  | _ => simp [heads, Head.of] at hc

theorem blanks_found {c : Char} (hc : isBlank c = true) (cs : List Char) :
    Found (c :: cs) ⟨.space, c :: cs.takeWhile isBlank, cs.dropWhile isBlank⟩ := by
  have hrun : (c :: cs).takeWhile isBlank = c :: cs.takeWhile isBlank := by simp [hc]
  refine .word .blanks ⟨?_, ⟨cs.dropWhile isBlank, by simp⟩, ?_, by simp⟩ (fun _ => rfl) rfl
  · exact oneOf_mul.mpr ⟨c, hc, _, mem_many.mpr takeWhile_all, rfl⟩
  · intro other w hw hpre
    have hh := head_of_prefix hw hpre
    rw [Head.of_blank hc] at hh
    cases other with
    | blanks =>
      rw [← hrun]
      exact length_le_takeWhile (mem_some.mp hw).2 hpre
    | _ => simp [heads] at hh

theorem comment_found (cs : List Char) :
    Found ('#' :: cs) ⟨.space, '#' :: cs.takeWhile (· != '\n'), cs.dropWhile (· != '\n')⟩ := by
  refine .word .comment ⟨?_, ⟨cs.dropWhile (· != '\n'), by simp⟩, ?_, by simp⟩
    (fun _ => rfl) rfl
  · exact singleton_mul.mpr ⟨_, mem_many.mpr takeWhile_all, rfl⟩
  · intro other w hw hpre
    have hh := head_of_prefix hw hpre
    cases other with
    | comment =>
      obtain ⟨t, ht, rfl⟩ := singleton_mul.mp hw
      have hlen := length_le_takeWhile (mem_many.mp ht) (List.cons_prefix_cons.mp hpre).2
      simpa using hlen
    | _ => simp [heads, Head.of, isBlank] at hh

theorem mem_string {w : List Char} :
    w ∈ LexicalRule.string.words ↔ ∃ t, (∀ c ∈ t, (c != '"') = true) ∧ w = '"' :: (t ++ ['"']) := by
  rw [words, mul_assoc, singleton_mul]
  constructor
  · rintro ⟨_, h, rfl⟩
    obtain ⟨t, ht, q, hq, rfl⟩ := Language.mem_mul.mp h
    rw [mem_singleton.mp hq]
    exact ⟨t, mem_many.mp ht, rfl⟩
  · rintro ⟨t, ht, rfl⟩
    exact ⟨_, Language.mem_mul.mpr ⟨t, mem_many.mpr ht, _, mem_singleton.mpr rfl, rfl⟩, rfl⟩

theorem quoted_found (cs : List Char) : Found ('"' :: cs) (Lexeme.quoted cs) := by
  have only : ∀ (other : LexicalRule) (w : List Char), w ∈ other.words → w <+: '"' :: cs →
      ∃ t, (∀ c ∈ t, (c != '"') = true) ∧ w = '"' :: (t ++ ['"']) ∧ t ++ ['"'] <+: cs := by
    intro other w hw hpre
    have hh := head_of_prefix hw hpre
    cases other with
    | string =>
      obtain ⟨t, ht, rfl⟩ := mem_string.mp hw
      exact ⟨t, ht, rfl, (List.cons_prefix_cons.mp hpre).2⟩
    | _ => simp [heads, Head.of, isBlank] at hh
  have happend := Lexeme.quoted_append cs
  unfold Lexeme.quoted at happend ⊢
  dsimp only at happend ⊢
  cases hd : cs.dropWhile (· != '"') with
  | nil =>
    have hno : '"' ∉ cs := by
      intro hm
      have := List.dropWhile_eq_nil_iff.mp hd '"' hm
      simp at this
    refine .unclosed rfl ?_ hno
    intro other w hw hpre
    obtain ⟨t, -, -, hpre⟩ := only other w hw hpre
    exact hno (hpre.subset (by simp))
  | cons close rest =>
    rw [hd] at happend
    have hclose : close = '"' := by
      have := List.head?_dropWhile_not (· != '"') cs
      rw [hd] at this
      simpa using this
    subst hclose
    refine .word .string ⟨?_, ⟨rest, happend⟩, ?_, by simp⟩ (fun _ => rfl) rfl
    · exact mem_string.mpr ⟨_, takeWhile_all, rfl⟩
    · intro other w hw hpre
      obtain ⟨t, ht, rfl, hinner⟩ := only other w hw hpre
      obtain ⟨htake, -⟩ := takeWhile_of_stop ht (by simp) hinner
      rw [htake]
      simp

theorem namePart_of_start {c : Char} (h : isNameStart c = true) : isNamePart c = true := by
  simp only [isNameStart, isNamePart, Bool.or_eq_true] at h ⊢
  rcases h with h | h <;> simp [h]

theorem nameParts_of_keyword (k : Keyword) : ∀ c ∈ k.spelling, isNamePart c = true := by
  have hall : k.spelling.all isNamePart = true := by cases k <;> decide
  exact List.all_eq_true.mp hall

theorem nameParts_of_name {w : List Char} (h : w ∈ LexicalRule.name.words) :
    ∀ c ∈ w, isNamePart c = true := by
  obtain ⟨c, hc, t, ht, rfl⟩ := oneOf_mul.mp h
  rw [List.forall_mem_cons]
  exact ⟨namePart_of_start hc, mem_many.mp ht⟩

theorem word_found {c : Char} (hc : isNameStart c = true) (cs : List Char) :
    Found (c :: cs) (Lexeme.word (c :: cs)) := by
  have hlongest : ∀ (other : LexicalRule) (w : List Char), w ∈ other.words → w <+: c :: cs →
      w.length ≤ ((c :: cs).takeWhile isNamePart).length := by
    intro other w hw hpre
    have hh := head_of_prefix hw hpre
    rw [Head.of_letter hc] at hh
    cases other with
    | name => exact length_le_takeWhile (nameParts_of_name hw) hpre
    | keyword k =>
      rw [mem_singleton.mp hw] at hpre ⊢
      exact length_le_takeWhile (nameParts_of_keyword k) hpre
    | _ => simp [heads] at hh
  have hstarts : (c :: cs).takeWhile isNamePart <+: c :: cs := List.takeWhile_prefix _
  unfold Lexeme.word
  dsimp only
  cases hk : Keyword.ofSpelling? ((c :: cs).takeWhile isNamePart) with
  | some k =>
    have hs : k.spelling = (c :: cs).takeWhile isNamePart := by
      simpa using List.find?_some hk
    refine .word (.keyword k) ⟨mem_singleton.mpr hs.symm, hstarts, hlongest, by simp⟩ ?_ rfl
    exact fun _ => rfl
  | none =>
    refine .word .name ⟨?_, hstarts, hlongest, ?_⟩ (fun _ => rfl) rfl
    · refine oneOf_mul.mpr ⟨c, hc, cs.takeWhile isNamePart, mem_many.mpr takeWhile_all, ?_⟩
      simp [namePart_of_start hc]
    · intro _ k hmem
      have hnone := List.find?_eq_none.mp hk k (by cases k <;> decide)
      exact hnone (by simpa using (mem_singleton.mp hmem).symm)

theorem fit?_ofDigits (n : Nat) : Integer.fit? n =
    if n < 9223372036854775808 then some (Int64.ofInt n) else none := by
  unfold Integer.fit? Integer.bound
  by_cases h : n < 9223372036854775808
  · rw [if_pos h, if_pos (by omega)]
  · rw [if_neg h, if_neg (by omega)]

theorem numeral_parts {c : Char} {cs : List Char}
    (hc : c.isDigit = true ∨ c = '.' ∧ cs.head?.any Char.isDigit = true) :
    Numeral ((c :: cs).takeWhile Char.isDigit) (fractionPart ((c :: cs).dropWhile Char.isDigit)).1
      (exponentPart (fractionPart ((c :: cs).dropWhile Char.isDigit)).2).1 := by
  refine ⟨takeWhile_all, fractionPart_mem _, exponentPart_mem _, ?_⟩
  rcases hc with hc | ⟨rfl, hd⟩
  · simp [hc]
  · have hpoint : Char.isDigit '.' = false := rfl
    have hrun : cs.takeWhile Char.isDigit ≠ [] := by
      cases cs with
      | nil => simp at hd
      | cons d cs =>
        have hd : d.isDigit = true := by simpa using hd
        simp [hd]
    simp [hpoint, fractionPart_of_digits hrun]

theorem numeral_longest_of_start {c : Char} {cs : List Char}
    (hc : c.isDigit = true ∨ c = '.' ∧ cs.head?.any Char.isDigit = true) {other : LexicalRule}
    {w : List Char} (hw : w ∈ other.words) (hpre : w <+: c :: cs) :
    w.length ≤ (Lexeme.numeral (c :: cs)).text.length := by
  have hh := head_of_prefix hw hpre
  have hhead : Head.of c = .digit ∨ Head.of c = .point := by
    rcases hc with hc | ⟨rfl, -⟩
    · exact .inl (Head.of_digit hc)
    · exact .inr rfl
  cases other with
  | real =>
    obtain ⟨d, f, x, hn, -, rfl⟩ := mem_real.mp hw
    exact numeral_longest hn hpre
  | integer =>
    have hpre : w ++ [] ++ [] <+: c :: cs := by simpa using hpre
    have hlen := numeral_longest (mem_integer.mp hw) hpre
    simpa using hlen
  | symbol s =>
    -- A symbol that starts so has a point, and after it no digit.
    rw [mem_singleton.mp hw] at hpre
    rcases hc with hc | ⟨rfl, hd⟩
    · rw [Head.of_digit hc] at hh
      simp [heads] at hh
    · have hmem : s.spelling ∈ (LexicalRule.symbol s).words := mem_singleton.mpr rfl
      obtain ⟨e, t, hs, -⟩ := head_mem hmem
      rw [hs] at hpre
      obtain ⟨rfl, htail⟩ := List.cons_prefix_cons.mp hpre
      obtain ⟨x, rfl, hx⟩ := symbol_after_point hs
      obtain ⟨more, rfl⟩ := htail
      simp [hx] at hd
  | _ => rcases hhead with h | h <;> simp [heads, h] at hh

theorem numeral_found {c : Char} {cs : List Char}
    (hc : c.isDigit = true ∨ c = '.' ∧ cs.head?.any Char.isDigit = true) :
    Found (c :: cs) (Lexeme.numeral (c :: cs)) := by
  have hparts := numeral_parts hc
  have hlongest : ∀ other : LexicalRule, ∀ w ∈ other.words, w <+: c :: cs →
      w.length ≤ (Lexeme.numeral (c :: cs)).text.length :=
    fun _ _ hw hpre => numeral_longest_of_start hc hw hpre
  have hstarts : (Lexeme.numeral (c :: cs)).text <+: c :: cs := ⟨_, Lexeme.numeral_append (c :: cs)⟩
  rw [numeral_text] at hlongest hstarts
  unfold Lexeme.numeral
  dsimp only
  revert hparts hlongest hstarts
  generalize (c :: cs).takeWhile Char.isDigit = d
  generalize fractionPart ((c :: cs).dropWhile Char.isDigit) = fr
  obtain ⟨f, after⟩ := fr
  generalize exponentPart after = xr
  obtain ⟨x, rest⟩ := xr
  intro hparts hlongest hstarts
  dsimp only at hparts hlongest hstarts ⊢
  split
  · rename_i hint
    simp only [Bool.and_eq_true, List.isEmpty_iff] at hint
    obtain ⟨rfl, rfl⟩ := hint
    rw [List.append_nil, List.append_nil] at hlongest hstarts ⊢
    rw [fit?_ofDigits]
    have hword : Longest (c :: cs) .integer d :=
      ⟨mem_integer.mpr hparts, hstarts, hlongest, by simp⟩
    by_cases hsmall : Integer.ofDigits d < 9223372036854775808
    · rw [if_pos hsmall]
      refine .word .integer hword (fun line => ?_) rfl
      simp [LexicalRule.item?, Lexeme.item?, hsmall]
    · rw [if_neg hsmall]
      refine .word .integer hword (fun line => ?_) rfl
      simp [LexicalRule.item?, Lexeme.item?, hsmall]
  · rename_i hreal
    refine .word .real ⟨?_, hstarts, hlongest, by simp⟩ (fun _ => rfl) rfl
    refine mem_real.mpr ⟨d, f, x, hparts, ?_, rfl⟩
    rintro ⟨rfl, rfl⟩
    exact hreal rfl

theorem symbol_longest {c : Char} {cs : List Char} {s s' : Symbol}
    (h : Symbol.starting? (c :: cs) = some s) (h' : s'.spelling <+: c :: cs) :
    s'.spelling.length ≤ s.spelling.length := by
  have hsorted : Symbol.all.Pairwise fun a b => b.spelling.length ≤ a.spelling.length := by decide
  obtain ⟨-, before, after, hall, hbefore⟩ := List.find?_eq_some_iff_append.mp h
  have hmem : s' ∈ Symbol.all := by cases s' <;> decide
  rw [hall] at hmem hsorted
  rcases List.mem_append.mp hmem with hm | hm
  · have := hbefore s' hm
    rw [List.isPrefixOf_iff_prefix.mpr h'] at this
    cases this
  · rcases List.mem_cons.mp hm with rfl | hm
    · exact Nat.le_refl _
    · exact (List.pairwise_cons.mp (List.pairwise_append.mp hsorted).2.1).1 s' hm

theorem symbol_found {c : Char} {cs : List Char} (hh : Head.of c = .point ∨ Head.of c = .mark)
    (hc : ¬ (c = '.' ∧ cs.head?.any Char.isDigit = true)) :
    Found (c :: cs) (Lexeme.symbol c cs) := by
  have only : ∀ (other : LexicalRule) (w : List Char), w ∈ other.words → w <+: c :: cs →
      ∃ s : Symbol, w = s.spelling := by
    intro other w hw hpre
    have hw' := head_of_prefix hw hpre
    cases other with
    | symbol s => exact ⟨s, mem_singleton.mp hw⟩
    | real =>
      obtain ⟨e, t, rfl, -⟩ := head_mem hw
      obtain ⟨rfl, htail⟩ := List.cons_prefix_cons.mp hpre
      obtain rfl : e = '.' := by
        rcases hh with h | h
        · exact Head.eq_of_point h
        · simp [heads, h] at hw'
      have hd := real_after_point hw
      obtain ⟨more, rfl⟩ := htail
      cases t with
      | nil => simp at hd
      | cons d t => exact absurd ⟨rfl, hd⟩ hc
    | _ => rcases hh with h | h <;> simp [heads, h] at hw'
  have happend := Lexeme.symbol_append c cs
  unfold Lexeme.symbol at happend ⊢
  cases hs : Symbol.starting? (c :: cs) with
  | some s =>
    rw [hs] at happend
    refine .word (.symbol s) ⟨mem_singleton.mpr rfl, ⟨_, happend⟩, ?_, by simp⟩ (fun _ => rfl) rfl
    intro other w hw hpre
    obtain ⟨s', rfl⟩ := only other w hw hpre
    exact symbol_longest hs hpre
  | none =>
    refine .illegal rfl (fun other w hw hpre => ?_) ?_
    · obtain ⟨s', rfl⟩ := only other w hw hpre
      have hnone := List.find?_eq_none.mp hs s' (by cases s' <;> decide)
      exact hnone (List.isPrefixOf_iff_prefix.mpr hpre)
    · rintro rfl
      rcases hh with h | h <;> cases h

theorem starting_found (c : Char) (cs : List Char) : Found (c :: cs) (Lexeme.starting c cs) := by
  unfold Lexeme.starting
  split
  · rename_i h
    simp only [beq_iff_eq] at h
    subst h
    exact newline_found cs
  rename_i hnewline
  split
  · rename_i h
    exact blanks_found h cs
  rename_i hblank
  split
  · rename_i h
    simp only [beq_iff_eq] at h
    subst h
    exact comment_found cs
  rename_i hhash
  split
  · rename_i h
    simp only [beq_iff_eq] at h
    subst h
    exact quoted_found cs
  rename_i hquote
  split
  · rename_i h
    exact word_found h cs
  rename_i hname
  split
  · rename_i h
    exact numeral_found (by simpa using h)
  · rename_i h
    simp only [Bool.or_eq_true, Bool.and_eq_true, beq_iff_eq, not_or] at h
    refine symbol_found ?_ h.2
    by_cases hp : c = '.'
    · exact .inl (by rw [hp]; rfl)
    · exact .inr (by simp [Head.of, hnewline, hblank, hhash, hquote, hname, h.1, hp])

end

/-! ## Streams -/

theorem scanFrom_longestMatch : ∀ (n line : Nat) (text : List Char), text.length ≤ n →
    LongestMatch line text (scanFrom n line text) := by
  intro n
  induction n with
  | zero =>
    intro line text hn
    obtain rfl := List.eq_nil_of_length_eq_zero (Nat.le_zero.mp hn)
    exact .done
  | succ n ih =>
    intro line text hn
    cases text with
    | nil => exact .done
    | cons c cs =>
      have hfound := starting_found c cs
      have happend := Lexeme.starting_append c cs
      have hrest := Lexeme.starting_rest_length c cs
      rw [List.length_cons] at hn
      rw [scanFrom]
      revert hfound happend hrest
      generalize Lexeme.starting c cs = l
      intro hfound happend hrest
      cases hfound with
      | word rule hword hitem hlines =>
        rw [hitem, hlines, ← happend]
        rw [← happend] at hword
        exact .word hword (ih _ _ (by omega))
      | illegal htext hnone hquote =>
        cases htext
        have hline : (⟨.illegal c, [c], cs⟩ : Lexeme).newlines = 0 := by
          have hc : c ≠ '\n' := by
            rintro rfl
            exact hnone .newline ['\n'] (LexicalRule.mem_singleton.mpr rfl) ⟨cs, rfl⟩
          simp [Lexeme.newlines, hc]
        rw [hline]
        exact .illegal hnone (fun h => hquote h.1) (ih _ _ (by omega))
      | unclosed htext hnone hquote =>
        cases htext
        have hafter : ∀ m k, scanFrom m k [] = ⟨[], k⟩ := by
          intro m k
          cases m <;> rfl
        rw [hafter]
        exact .unclosed hnone hquote

theorem Longest.unique {text word word' : List Char} {rule rule' : LexicalRule}
    (h : Longest text rule word) (h' : Longest text rule' word') : rule = rule' ∧ word = word' := by
  have hlen : word.length = word'.length :=
    Nat.le_antisymm (h'.longest rule word h.member h.starts)
      (h.longest rule' word' h'.member h'.starts)
  have hword : word = word' :=
    (List.prefix_of_prefix_length_le h.starts h'.starts hlen.le).eq_of_length hlen
  subst hword
  exact ⟨LexicalRule.rule_unique h.member h'.member h.keyword h'.keyword, rfl⟩

theorem LongestMatch.unique {line : Nat} {text : List Char} {s s' : Scanned}
    (h : LongestMatch line text s) (h' : LongestMatch line text s') : s = s' := by
  induction h generalizing s' with
  | done =>
    generalize htext : ([] : List Char) = text at h'
    cases h' with
    | done => rfl
    | word hw _ =>
      obtain ⟨c, t, rfl, -⟩ := LexicalRule.head_mem hw.member
      cases htext
    | illegal _ _ _ => cases htext
    | unclosed _ _ => cases htext
  | @word line rule word rest after hw _ ih =>
    generalize htext : word ++ rest = text at hw h'
    cases h' with
    | done =>
      obtain ⟨c, t, rfl, -⟩ := LexicalRule.head_mem hw.member
      cases htext
    | word hw' hrest' =>
      obtain ⟨rfl, rfl⟩ := hw.unique hw'
      obtain rfl := List.append_cancel_left htext
      rw [ih hrest']
    | illegal hnone _ _ => exact absurd hw.starts (hnone rule word hw.member)
    | unclosed hnone _ => exact absurd hw.starts (hnone rule word hw.member)
  | @illegal line c rest after hnone hquote _ ih =>
    generalize htext : c :: rest = text at hnone h'
    cases h' with
    | done => cases htext
    | word hw' _ => exact absurd hw'.starts (hnone _ _ hw'.member)
    | illegal _ _ hrest' =>
      cases htext
      rw [ih hrest']
    | unclosed _ hquote' =>
      cases htext
      exact absurd ⟨rfl, hquote'⟩ hquote
  | @unclosed line rest hnone hquote =>
    generalize htext : '"' :: rest = text at hnone h'
    cases h' with
    | done => cases htext
    | word hw' _ => exact absurd hw'.starts (hnone _ _ hw'.member)
    | illegal _ hquote' _ =>
      cases htext
      exact absurd ⟨rfl, hquote⟩ hquote'
    | unclosed _ _ =>
      cases htext
      rfl

/-- **Longest match.** The stream of a source is the one that longest match over
the lexical rules makes of it, and there is no other. -/
theorem scan_longestMatch (source : String) (s : Scanned) :
    scan source = s ↔ LongestMatch 1 source.toList s := by
  have hscan : LongestMatch 1 source.toList (scan source) :=
    scanFrom_longestMatch _ 1 source.toList (Nat.le_refl _)
  constructor
  · rintro rfl
    exact hscan
  · exact hscan.unique

/-- Neither `1e+` nor `.` is a word, and the quote is not closed. -/
example : scanChars ['1', 'e', '+', '.', '.', '*', '"'] = ⟨[.token ⟨.int 1, 1⟩,
    .token ⟨.name "e", 1⟩, .token ⟨.symbol .plus, 1⟩, .error ⟨.illegalCharacter '.', 1⟩,
    .token ⟨.symbol .dotTimes, 1⟩, .error ⟨.illegalCharacter '"', 1⟩], 1⟩ := by decide

end MatrixScript
