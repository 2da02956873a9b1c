import MatrixScript.Proofs.WordBoundaries

/-!
# Texts cleaned of what was reported

Blanks are put for characters and numerals that scanning reports, and the text is cut
before a quote that nothing closes. Between what is left nothing new can be read: a
cleaned text has the tokens of the text, on their lines (`scan_cleaned`).
-/

namespace MatrixScript

/-- What stays of a lexeme that ends on a line, before what stays of the text after it: blanks if it
is reported, and nothing at all if the report is of a quote. -/
def Lexeme.cleaned (l : Lexeme) (line : Nat) (after : List Char) : List Char :=
  match l.item? line with
  | some (.error e) =>
    if e.fault = .illegalCharacter '"' then [] else List.replicate l.text.length ' ' ++ after
  | _ => l.text ++ after

def cleanedFrom : (budget line : Nat) → List Char → List Char
  | 0, _, _ => []
  | _ + 1, _, [] => []
  | budget + 1, line, c :: cs =>
    let lexeme := Lexeme.starting c cs
    let line := line + lexeme.newlines
    lexeme.cleaned line (cleanedFrom budget line lexeme.rest)

def cleaned (source : String) : String :=
  String.ofList (cleanedFrom source.toList.length 1 source.toList)

/-! ## Before a cleaned rest -/

def SameToBlank (rest rest' : List Char) : Prop :=
  ∃ same more, same <+: rest ∧ rest' = same ++ more ∧ (more = [] ∨ ∃ t, more = ' ' :: t)

theorem SameToBlank.append {rest rest' : List Char} (h : SameToBlank rest rest') (w : List Char) :
    SameToBlank (w ++ rest) (w ++ rest') := by
  obtain ⟨same, more, hsame, rfl, hmore⟩ := h
  exact ⟨w ++ same, more, (List.prefix_append_right_inj w).mpr hsame, by simp, hmore⟩

/-- A longest word is still the longest before a text that differs behind a blank only. -/
theorem Longest.before {rule : LexicalRule} {w rest rest' : List Char} (h : Longest (w ++ rest) rule w)
    (hrule : rule.isToken = true) (hrest : SameToBlank rest rest') : Longest (w ++ rest') rule w := by
  refine ⟨h.member, List.prefix_append w rest', fun other v hv hpre => ?_, h.keyword⟩
  obtain ⟨c, t, rfl, hc⟩ := LexicalRule.head_mem h.member
  have hother := LexicalRule.head_of_prefix hv hpre
  by_cases hstring : other = .string
  · subst hstring
    rw [List.mem_singleton.mp hother] at hc
    obtain rfl := LexicalRule.eq_string_of_quote hc
    have hsame := string_eq_of_prefix hv h.member hpre
    rw [hsame]
  · obtain ⟨same, more, hsame, rfl, hmore⟩ := hrest
    have htoken : other.isToken = true := (LexicalRule.isToken_eq_of_head hc hother).trans hrule
    have hkept : c :: t ++ same <+: c :: t ++ rest := (List.prefix_append_right_inj _).mpr hsame
    rw [← List.append_assoc] at hpre
    rcases List.prefix_or_prefix_of_prefix hpre (List.prefix_append _ more) with hv' | ⟨u, rfl⟩
    · exact h.longest other v hv (hv'.trans hkept)
    · -- The word would go on over the blank.
      have hu : u <+: more := (List.prefix_append_right_inj _).mp hpre
      cases u with
      | nil => exact h.longest other _ hv (by simpa using hkept)
      | cons d u =>
        rcases hmore with rfl | ⟨rest', rfl⟩
        · cases List.prefix_nil.mp hu
        · obtain ⟨rfl, -⟩ := List.cons_prefix_cons.mp hu
          have hstop := LexicalRule.tail_ne_stop hv htoken hstring ' ' (by simp)
          cases hstop

theorem itemsFrom_blanks {run : List Char} (h : ∀ c ∈ run, isBlank c = true) (line : Nat)
    (rest : List Char) : itemsFrom line (run ++ rest) = itemsFrom line rest := by
  induction run with
  | nil => rfl
  | cons c run ih =>
    rw [List.forall_mem_cons] at h
    rw [List.cons_append, itemsFrom_blank h.1, ih h.2]

theorem itemsFrom_spaces (n line : Nat) (rest : List Char) :
    itemsFrom line (List.replicate n ' ' ++ rest) = itemsFrom line rest := by
  refine itemsFrom_blanks (fun c hc => ?_) line rest
  rw [List.eq_of_mem_replicate hc]
  rfl

/-! ## Cleaned texts -/

theorem Lexeme.cleaned_same {l : Lexeme} (hne : l.text ≠ []) (line : Nat) {after : List Char}
    (h : SameToBlank l.rest after) : SameToBlank (l.text ++ l.rest) (l.cleaned line after) := by
  unfold cleaned
  split
  · split
    · exact ⟨[], [], List.nil_prefix, rfl, .inl rfl⟩
    · obtain ⟨d, t, ht⟩ := List.exists_cons_of_ne_nil hne
      rw [ht, List.length_cons, List.replicate_succ, List.cons_append]
      exact ⟨[], _, List.nil_prefix, rfl, .inr ⟨_, rfl⟩⟩
  · exact h.append l.text

theorem cleanedFrom_same : ∀ (n line : Nat) (text : List Char), text.length ≤ n →
    SameToBlank text (cleanedFrom n line text) := by
  intro n
  induction n with
  | zero =>
    intro line text hn
    obtain rfl := List.eq_nil_of_length_eq_zero (Nat.le_zero.mp hn)
    exact ⟨[], [], List.prefix_rfl, rfl, .inl rfl⟩
  | succ n ih =>
    intro line text hn
    cases text with
    | nil => exact ⟨[], [], List.prefix_rfl, rfl, .inl rfl⟩
    | cons c cs =>
      have hrest := Lexeme.starting_rest_length c cs
      rw [List.length_cons] at hn
      rw [cleanedFrom, ← Lexeme.starting_append c cs]
      exact Lexeme.cleaned_same (Lexeme.starting_text_ne_nil c cs) _ (ih _ _ (by omega))

/-! ## Word by word -/

theorem mem_comment {w : List Char} :
    w ∈ LexicalRule.comment.words ↔ ∃ t, '\n' ∉ t ∧ w = '#' :: t := by
  rw [LexicalRule.words, LexicalRule.singleton_mul]
  refine exists_congr fun t => and_congr_left fun _ => ?_
  rw [LexicalRule.mem_many]
  constructor
  · intro h hm
    simpa using h '\n' hm
  · intro h c hc
    simp only [bne_iff_ne]
    rintro rfl
    exact h hc

/-- A comment goes to the end of its line. -/
theorem Longest.after_comment {w rest : List Char} (h : Longest (w ++ rest) .comment w) :
    rest = [] ∨ ∃ more, rest = '\n' :: more := by
  cases rest with
  | nil => exact .inl rfl
  | cons c rest =>
    by_cases hc : c = '\n'
    · exact .inr ⟨rest, by rw [hc]⟩
    · obtain ⟨t, ht, rfl⟩ := mem_comment.mp h.member
      have hlonger : '#' :: (t ++ [c]) ∈ LexicalRule.comment.words :=
        mem_comment.mpr ⟨t ++ [c], by simp [ht, Ne.symm hc], rfl⟩
      have hlen := h.longest .comment _ hlonger (by simp)
      simp only [List.length_cons, List.length_append, List.length_nil] at hlen
      omega

theorem cleanedFrom_line_end (n line : Nat) {rest : List Char}
    (h : rest = [] ∨ ∃ more, rest = '\n' :: more) :
    cleanedFrom n line rest = [] ∨ ∃ more, cleanedFrom n line rest = '\n' :: more := by
  cases n with
  | zero => exact .inl rfl
  | succ n =>
    rcases h with rfl | ⟨more, rfl⟩
    · exact .inl rfl
    · exact .inr ⟨_, rfl⟩

/-- A word of any rule contributes before a cleaned rest what it does before the rest. -/
theorem Longest.itemsFrom_cleaned {rule : LexicalRule} {w rest : List Char} {n : Nat}
    (h : Longest (w ++ rest) rule w) (hn : rest.length ≤ n) (line : Nat) :
    itemsFrom line (w ++ cleanedFrom n (line + w.count '\n') rest) =
      (rule.item? w (line + w.count '\n')).toList ++
        itemsFrom (line + w.count '\n') (cleanedFrom n (line + w.count '\n') rest) := by
  by_cases hrule : rule.isToken = true
  · exact itemsFrom_longest (h.before hrule (cleanedFrom_same n _ rest hn)) line
  · cases rule with
    | newline =>
      rw [LexicalRule.mem_singleton.mp h.member]
      exact itemsFrom_newline line _
    | blanks =>
      have hblank := (LexicalRule.mem_some.mp h.member).2
      rw [count_newline_blanks hblank, itemsFrom_blanks hblank]
      rfl
    | comment =>
      have hend := cleanedFrom_line_end n (line + w.count '\n') h.after_comment
      obtain ⟨t, ht, rfl⟩ := mem_comment.mp h.member
      have hcount : ('#' :: t).count '\n' = 0 := by simpa using List.count_eq_zero.mpr ht
      rw [hcount] at hend ⊢
      exact itemsFrom_comment_end ht hend line
    | _ => exact absurd rfl hrule

theorem eq_integer_of_error {rule : LexicalRule} {w : List Char} {line : Nat} {e : LexicalError}
    (h : rule.item? w line = some (.error e)) : rule = .integer ∧ e.fault ≠ .illegalCharacter '"' := by
  cases rule with
  | integer =>
    simp only [LexicalRule.item?] at h
    split at h
    · cases h
    · cases h
      exact ⟨rfl, by simp⟩
  | _ => cases h

theorem count_newline_integer {w : List Char} (h : w ∈ LexicalRule.integer.words) : w.count '\n' = 0 := by
  refine List.count_eq_zero.mpr fun hm => ?_
  cases (LexicalRule.mem_digits.mp h).2 '\n' hm

theorem Unmatched.ne_newline {c : Char} {rest : List Char} (h : Unmatched (c :: rest)) : c ≠ '\n' := by
  rintro rfl
  exact h .newline ['\n'] (LexicalRule.mem_singleton.mpr rfl) ⟨rest, rfl⟩

/-- Only tokens come from a lexeme before a cleaned rest. -/
theorem Found.itemsFrom_cleaned {text : List Char} {l : Lexeme} {n : Nat} (h : Found text l)
    (happend : l.text ++ l.rest = text) (hn : l.rest.length ≤ n) (line : Nat) :
    itemsFrom line (l.cleaned (line + l.newlines) (cleanedFrom n (line + l.newlines) l.rest)) =
      (⟨(l.item? (line + l.newlines)).toList, line⟩ : Scanned).tokens.map .token ++
        itemsFrom (line + l.newlines) (cleanedFrom n (line + l.newlines) l.rest) := by
  cases h with
  | word rule hword hitem hlines =>
    subst happend
    have hkept := hword.itemsFrom_cleaned hn line
    rw [hlines, Lexeme.cleaned, hitem]
    cases hi : rule.item? l.text (line + l.text.count '\n') with
    | none =>
      rw [hi] at hkept
      exact hkept
    | some item =>
      rw [hi] at hkept
      cases item with
      | token t => exact hkept
      | error e =>
        obtain ⟨rfl, hquote⟩ := eq_integer_of_error hi
        simp only [if_neg hquote]
        rw [itemsFrom_spaces, count_newline_integer hword.member]
        rfl
  | @illegal c rest htext hnone hquote =>
    subst htext
    have hlines : (⟨.illegal c, [c], rest⟩ : Lexeme).newlines = 0 := by
      simp [Lexeme.newlines, hnone.ne_newline]
    have hfault : LexicalFault.illegalCharacter c ≠ .illegalCharacter '"' := by simpa using hquote
    rw [hlines, Lexeme.cleaned]
    simp only [Lexeme.item?, if_neg hfault]
    exact itemsFrom_spaces 1 line _
  | unclosed htext hnone hquote =>
    have hrest : cleanedFrom n line [] = [] := by
      cases n <;> rfl
    rw [show (⟨.unclosed, text, []⟩ : Lexeme).newlines = 0 from rfl, Nat.add_zero, hrest]
    rfl

theorem itemsFrom_cleanedFrom : ∀ (n line : Nat) (text : List Char), text.length ≤ n →
    itemsFrom line (cleanedFrom n line text) = (scanFrom n line text).tokens.map .token := by
  intro n
  induction n with
  | zero => exact fun _ _ _ => rfl
  | succ n ih =>
    intro line text hn
    cases text with
    | nil => rfl
    | cons c cs =>
      have hrest := Lexeme.starting_rest_length c cs
      rw [List.length_cons] at hn
      rw [cleanedFrom, (starting_found c cs).itemsFrom_cleaned (Lexeme.starting_append c cs) (by omega),
        ih _ _ (by omega), ← List.map_append, scanFrom]
      unfold Scanned.tokens
      rw [List.filterMap_append]

/-- **Lexical errors are local.** A text cleaned of all that scanning reports is scanned without
errors, into the tokens of the text on the lines they have there. -/
theorem scan_cleaned (source : String) :
    (scan (cleaned source)).errors = [] ∧ (scan (cleaned source)).tokens = (scan source).tokens := by
  refine scan_of_items _ _ ?_
  rw [cleaned, String.toList_ofList]
  exact itemsFrom_cleanedFrom _ 1 source.toList (Nat.le_refl _)

example : cleaned "a!b = 1.x + 9223372036854775808y \"z" = "a b = 1 x +                    y " := by
  decide

end MatrixScript
