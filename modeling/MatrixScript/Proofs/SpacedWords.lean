import MatrixScript.Proofs.WordBoundaries

/-!
# Words with gaps between them

Blanks, newlines and comments may stand anywhere between words, in any number. A
text of words with gaps between them is scanned back to the tokens that the words
spell, each on the line on which its word ends (`scan_spaced`).
-/

namespace MatrixScript

/-! ## Gaps -/

/-- Blanks, newlines and comments up to their newlines, in any number. -/
inductive Gap : List Char → Prop
  | nil : Gap []
  | blank {c g} : isBlank c = true → Gap g → Gap (c :: g)
  | newline {g} : Gap g → Gap ('\n' :: g)
  | comment {t g} : '\n' ∉ t → Gap g → Gap ('#' :: (t ++ '\n' :: g))

theorem Gap.stops {g : List Char} (h : Gap g) (hne : g ≠ []) (rest : List Char) : Stops (g ++ rest) := by
  intro c t hct
  cases h with
  | nil => exact absurd rfl hne
  | blank hc _ =>
    cases hct
    simp [isStop, hc]
  | newline _ => cases hct; rfl
  | comment _ _ => cases hct; rfl

/-- A gap contributes nothing but its newlines. -/
theorem itemsFrom_gap {g : List Char} (h : Gap g) : ∀ (line : Nat) (rest : List Char),
    itemsFrom line (g ++ rest) = itemsFrom (line + g.count '\n') rest := by
  induction h with
  | nil => exact fun _ _ => rfl
  | @blank c g hc _ ih =>
    intro line rest
    have hne : (c == '\n') = false := by
      refine Bool.eq_false_iff.mpr fun h => ?_
      rw [eq_of_beq h] at hc
      cases hc
    rw [List.cons_append, itemsFrom_blank hc, ih, List.count_cons, hne]
    rfl
  | newline _ ih =>
    intro line rest
    rw [List.cons_append, itemsFrom_newline, ih, List.count_cons_self]
    congr 1
    omega
  | @comment t g ht _ ih =>
    intro line rest
    rw [List.cons_append, List.append_assoc, List.cons_append, itemsFrom_comment ht, ih]
    have hcount : ('#' :: (t ++ '\n' :: g)).count '\n' = g.count '\n' + 1 := by
      simp [List.count_append, List.count_eq_zero.mpr ht]
    rw [hcount]
    congr 1
    omega

/-! ## Words -/

structure Spaced where
  word : List Char
  token : Token
  gap : List Char

namespace Spaced

def text (p : Spaced) : List Char := p.word ++ p.gap

/-- Each word spells its token, and only the last may be without a gap after it. -/
structure Fit (ps : List Spaced) : Prop where
  spells : ∀ p ∈ ps, Spells p.word p.token
  gaps : ∀ p ∈ ps, Gap p.gap
  apart : ∀ p ∈ ps.dropLast, p.gap ≠ []

def located : Nat → List Spaced → List Located
  | _, [] => []
  | line, p :: ps => ⟨p.token, line + p.word.count '\n'⟩ :: located (line + p.text.count '\n') ps

theorem Fit.tail {p : Spaced} {ps : List Spaced} (h : Fit (p :: ps)) : Fit ps where
  spells q hq := h.spells q (List.mem_cons_of_mem p hq)
  gaps q hq := h.gaps q (List.mem_cons_of_mem p hq)
  apart q hq := by
    cases ps with
    | nil => cases hq
    | cons r ps => exact h.apart q (List.mem_cons_of_mem p hq)

theorem Fit.stops {p : Spaced} {ps : List Spaced} (h : Fit (p :: ps)) :
    Stops (p.gap ++ ps.flatMap text) := by
  have hgap := h.gaps p List.mem_cons_self
  by_cases hne : p.gap = []
  · cases ps with
    | nil =>
      rw [hne]
      intro c t hct
      cases hct
    | cons q ps => exact absurd hne (h.apart p List.mem_cons_self)
  · exact hgap.stops hne _

theorem itemsFrom_flatMap : ∀ {ps : List Spaced}, Fit ps → ∀ line : Nat,
    itemsFrom line (ps.flatMap text) = (located line ps).map .token
  | [], _, _ => rfl
  | p :: ps, h, line => by
    have hspells := h.spells p List.mem_cons_self
    have hgap := h.gaps p List.mem_cons_self
    rw [List.flatMap_cons, text, List.append_assoc, itemsFrom_word hspells h.stops, itemsFrom_gap hgap,
      itemsFrom_flatMap h.tail, located, List.map_cons, text, List.count_append, Nat.add_assoc]

theorem getElem?_located : ∀ (ps : List Spaced) (line i : Nat) (hi : i < ps.length),
    (located line ps)[i]? =
      some ⟨ps[i].token, line + ((ps.take i).flatMap text ++ ps[i].word).count '\n'⟩
  | p :: ps, line, 0, _ => rfl
  | p :: ps, line, i + 1, hi => by
    rw [located, List.getElem?_cons_succ, getElem?_located ps _ i (Nat.lt_of_succ_lt_succ hi)]
    simp only [List.take_succ_cons, List.flatMap_cons, List.getElem_cons_succ, List.append_assoc,
      List.count_append, Nat.add_assoc]

theorem length_located : ∀ (ps : List Spaced) (line : Nat), (located line ps).length = ps.length
  | [], _ => rfl
  | _ :: ps, _ => congrArg (· + 1) (length_located ps _)

end Spaced

/-- **Spelling and scanning.** Words with gaps between them, and perhaps before the
first and after the last, are scanned without an error, each to its own token on the
line on which it ends. -/
theorem scan_spaced (lead : List Char) (ps : List Spaced) (hlead : Gap lead) (hps : Spaced.Fit ps) :
    let scanned := scan (String.ofList (lead ++ ps.flatMap Spaced.text))
    scanned.errors = [] ∧ scanned.tokens.length = ps.length ∧
      ∀ (i : Nat) (hi : i < ps.length), scanned.tokens[i]? = some ⟨ps[i].token,
        1 + (lead ++ (ps.take i).flatMap Spaced.text ++ ps[i].word).count '\n'⟩ := by
  have hitems : itemsFrom 1 (String.ofList (lead ++ ps.flatMap Spaced.text)).toList =
      (Spaced.located (1 + lead.count '\n') ps).map .token := by
    rw [String.toList_ofList]
    exact (itemsFrom_gap hlead 1 _).trans (Spaced.itemsFrom_flatMap hps _)
  obtain ⟨herrors, htokens⟩ := scan_of_items _ _ hitems
  dsimp only
  refine ⟨herrors, ?_, fun i hi => ?_⟩
  · rw [htokens, Spaced.length_located]
  · rw [htokens, Spaced.getElem?_located ps _ i hi]
    simp only [List.append_assoc, List.count_append, Nat.add_assoc]

/-- A comment directly after a real, a string of two lines that holds a `#`, and a
name that starts like a keyword. -/
theorem scan_spaced_mixed :
    let words : List Spaced :=
      [⟨['1', '.', '5'], .real (Number.readReal ['1', '.', '5']), ['#', 'x', '\n']⟩,
        ⟨['"', '\n', '#', '"'], .str (String.ofList ['"', '\n', '#', '"']), ['\t']⟩,
        ⟨['i', 'f'], .keyword .ifKw, [' ', '\n']⟩,
        ⟨['i', 'f', 'f'], .name (String.ofList ['i', 'f', 'f']), []⟩]
    let scanned := scan (String.ofList (['#', '\n'] ++ words.flatMap Spaced.text))
    Gap ['#', '\n'] ∧ Spaced.Fit words ∧ scanned.errors = [] ∧ scanned.tokens.length = 4 ∧
      scanned.tokens[3]? = some ⟨.name (String.ofList ['i', 'f', 'f']), 5⟩ := by
  intro words scanned
  have hlead : Gap ['#', '\n'] := .comment List.not_mem_nil .nil
  have hreal : ['1', '.', '5'] ∈ LexicalRule.real.words := by
    have hfraction : ['.', '5'] ∈ LexicalRule.fraction :=
      LexicalRule.mem_fraction.mpr ⟨['5'], LexicalRule.mem_digits.mpr (by simp), rfl⟩
    exact LexicalRule.mem_real.mpr ⟨['1'], ['.', '5'], [],
      ⟨by simp, .inr hfraction, .inl rfl, by simp⟩, by simp, rfl⟩
  have hstring : ['"', '\n', '#', '"'] ∈ LexicalRule.string.words :=
    mem_string.mpr ⟨['\n', '#'], by simp, rfl⟩
  have hname : ['i', 'f', 'f'] ∈ LexicalRule.name.words :=
    LexicalRule.oneOf_mul.mpr ⟨'i', rfl, ['f', 'f'], LexicalRule.mem_many.mpr (by simp [isNamePart]), rfl⟩
  have hwords : Spaced.Fit words := by
    refine ⟨?_, ?_, by simp [words]⟩
    · simp only [words, List.forall_mem_cons]
      exact ⟨.real hreal, .str hstring, .keyword .ifKw, .name hname fun k => by cases k <;> decide,
        by simp⟩
    · simp only [words, List.forall_mem_cons]
      exact ⟨.comment (t := ['x']) (by decide) .nil, .blank rfl .nil, .blank rfl (.newline .nil), .nil,
        by simp⟩
  obtain ⟨herrors, hlength, htokens⟩ := scan_spaced ['#', '\n'] words hlead hwords
  exact ⟨hlead, hwords, herrors, hlength, htokens 3 (by decide)⟩

end MatrixScript
