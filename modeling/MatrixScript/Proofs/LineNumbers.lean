import MatrixScript.Proofs.CleanedText

/-!
# Line numbers

The line of an item is one more than the newlines of the source up to the end of its
lexeme, and the line reached at the end is one more than all newlines. An unclosed quote
is the exception: it takes the rest of the source with it, but the newlines are counted
only up to the quote (`scan_lines`).
-/

namespace MatrixScript

def ScanItem.line : ScanItem → Nat
  | token t => t.line
  | error e => e.line

/-! ## Unclosed quotes -/

theorem starting_unclosed {cs : List Char} (h : '"' ∉ cs) :
    Lexeme.starting '"' cs = ⟨.unclosed, '"' :: cs, []⟩ := by
  have hopen : cs.dropWhile (· != '"') = [] := by
    rw [List.dropWhile_eq_nil_iff]
    intro c hc
    have hne : c ≠ '"' := fun he => h (he ▸ hc)
    simpa using hne
  show Lexeme.quoted cs = _
  unfold Lexeme.quoted
  rw [hopen]

theorem eq_quote_of_unclosed {c : Char} {cs : List Char}
    (h : (Lexeme.starting c cs).reading = .unclosed) : c = '"' ∧ '"' ∉ cs := by
  have hfound := starting_found c cs
  revert hfound h
  generalize Lexeme.starting c cs = l
  intro h hfound
  cases hfound with
  | word rule hword hitem hlines =>
    -- No rule makes an illegal character of its words.
    have herror : rule.item? l.text 0 = some (.error ⟨.illegalCharacter '"', 0⟩) := by
      rw [← hitem, Lexeme.item?, h]
    exact absurd rfl (eq_integer_of_error herror).2
  | illegal htext hnone hquote => cases h
  | unclosed htext hnone hquote =>
    cases htext
    exact ⟨rfl, hquote⟩

/-! ## Lexemes in their places -/

structure Placed where
  before : List Char
  lexeme : Lexeme
deriving DecidableEq

def placedFrom : (budget : Nat) → (before text : List Char) → List Placed
  | 0, _, _ => []
  | _ + 1, _, [] => []
  | budget + 1, before, c :: cs =>
    let lexeme := Lexeme.starting c cs
    ⟨before, lexeme⟩ :: placedFrom budget (before ++ lexeme.text) lexeme.rest

def placed (source : String) : List Placed := placedFrom source.toList.length [] source.toList

namespace Placed

/-- One more than the newlines up to the end of the lexeme, or up to a quote that nothing
closes. -/
def line (p : Placed) : Nat :=
  if p.lexeme.reading = .unclosed then 1 + p.before.count '\n'
  else 1 + (p.before ++ p.lexeme.text).count '\n'

def item? (p : Placed) : Option ScanItem := p.lexeme.item? p.line

structure In (p : Placed) (text : List Char) : Prop where
  place : p.before ++ (p.lexeme.text ++ p.lexeme.rest) = text
  found : Found (p.lexeme.text ++ p.lexeme.rest) p.lexeme
  unclosed : p.lexeme.reading = .unclosed ↔
    ∃ after, p.lexeme.text ++ p.lexeme.rest = '"' :: after ∧ '"' ∉ after

end Placed

theorem placedFrom_cons (budget : Nat) (before : List Char) (c : Char) (cs : List Char) :
    placedFrom (budget + 1) before (c :: cs) = ⟨before, Lexeme.starting c cs⟩ ::
      placedFrom budget (before ++ (Lexeme.starting c cs).text) (Lexeme.starting c cs).rest := rfl

theorem placedFrom_nil (budget : Nat) (before : List Char) : placedFrom budget before [] = [] := by
  cases budget <;> rfl

theorem starting_in (before : List Char) (c : Char) (cs : List Char) :
    (⟨before, Lexeme.starting c cs⟩ : Placed).In (before ++ c :: cs) := by
  refine ⟨?_, ?_, ?_⟩ <;> simp only [Lexeme.starting_append]
  · exact starting_found c cs
  · constructor
    · intro h
      obtain ⟨rfl, hnone⟩ := eq_quote_of_unclosed h
      exact ⟨cs, rfl, hnone⟩
    · rintro ⟨after, htext, hnone⟩
      cases htext
      rw [starting_unclosed hnone]

theorem placedFrom_in : ∀ (n : Nat) (before text : List Char),
    ∀ p ∈ placedFrom n before text, p.In (before ++ text)
  | 0, _, _, _, hp => nomatch hp
  | _ + 1, _, [], _, hp => nomatch hp
  | n + 1, before, c :: cs, p, hp => by
    rw [placedFrom_cons, List.mem_cons] at hp
    rcases hp with rfl | hp
    · exact starting_in before c cs
    · have h := placedFrom_in n _ _ p hp
      rwa [List.append_assoc, Lexeme.starting_append] at h

theorem placedFrom_texts : ∀ (n : Nat) (before text : List Char), text.length ≤ n →
    (placedFrom n before text).flatMap (·.lexeme.text) = text
  | _, before, [], _ => by rw [placedFrom_nil, List.flatMap_nil]
  | n + 1, before, c :: cs, hn => by
    have hrest := Lexeme.starting_rest_length c cs
    rw [List.length_cons] at hn
    rw [placedFrom_cons, List.flatMap_cons, placedFrom_texts n _ _ (by omega)]
    exact Lexeme.starting_append c cs

/-! ## Counting -/

theorem scanFrom_closed {c : Char} {cs : List Char} {l : Lexeme} (h : Lexeme.starting c cs = l)
    (hclosed : l.reading ≠ .unclosed) (n : Nat) (before : List Char) :
    scanFrom (n + 1) (1 + before.count '\n') (c :: cs) =
      let after := scanFrom n (1 + (before ++ l.text).count '\n') l.rest
      ⟨(Placed.item? ⟨before, l⟩).toList ++ after.items, after.line⟩ := by
  have hlines : 1 + before.count '\n' + l.newlines = 1 + (before ++ l.text).count '\n' := by
    rw [List.count_append, Nat.add_assoc]
    unfold Lexeme.newlines
    split
    · contradiction
    · rfl
  rw [scanFrom, h, hlines, Placed.item?, Placed.line, if_neg hclosed]

theorem scanFrom_unclosed {cs : List Char} (h : '"' ∉ cs) (n line : Nat) :
    scanFrom (n + 1) line ('"' :: cs) = ⟨[.error ⟨.illegalCharacter '"', line⟩], line⟩ := by
  rw [scanFrom, starting_unclosed h]
  cases n <;> rfl

theorem placedFrom_unclosed {cs : List Char} (h : '"' ∉ cs) (n : Nat) (before : List Char) :
    placedFrom (n + 1) before ('"' :: cs) = [⟨before, ⟨.unclosed, '"' :: cs, []⟩⟩] := by
  rw [placedFrom_cons, starting_unclosed h, placedFrom_nil]

/-- The items in order, and the line reached. -/
theorem scanFrom_placed : ∀ (n : Nat) (before text : List Char), text.length ≤ n →
    (scanFrom n (1 + before.count '\n') text).items =
        (placedFrom n before text).filterMap Placed.item? ∧
      ((∀ p ∈ placedFrom n before text, p.lexeme.reading ≠ .unclosed) →
        (scanFrom n (1 + before.count '\n') text).line = 1 + (before ++ text).count '\n') ∧
      ∀ p ∈ placedFrom n before text, p.lexeme.reading = .unclosed →
        (scanFrom n (1 + before.count '\n') text).line = 1 + p.before.count '\n' := by
  intro n
  induction n with
  | zero =>
    intro before text hn
    obtain rfl := List.eq_nil_of_length_eq_zero (Nat.le_zero.mp hn)
    exact ⟨rfl, fun _ => by rw [List.append_nil]; rfl, fun p hp => nomatch hp⟩
  | succ n ih =>
    intro before text hn
    cases text with
    | nil => exact ⟨rfl, fun _ => by rw [List.append_nil]; rfl, fun p hp => nomatch hp⟩
    | cons c cs =>
      have hrest := Lexeme.starting_rest_length c cs
      have happend := Lexeme.starting_append c cs
      rw [List.length_cons] at hn
      by_cases hclosed : (Lexeme.starting c cs).reading = .unclosed
      · obtain ⟨rfl, hnone⟩ := eq_quote_of_unclosed hclosed
        rw [scanFrom_unclosed hnone, placedFrom_unclosed hnone]
        refine ⟨rfl, fun h => absurd rfl (h _ List.mem_cons_self), fun p hp _ => ?_⟩
        rw [List.mem_singleton.mp hp]
      · obtain ⟨hitems, hline, hquote⟩ :=
          ih (before ++ (Lexeme.starting c cs).text) (Lexeme.starting c cs).rest (by omega)
        rw [scanFrom_closed rfl hclosed, placedFrom_cons]
        refine ⟨?_, fun h => ?_, fun p hp hp' => ?_⟩
        · dsimp only
          rw [hitems, List.filterMap_cons]
          cases Placed.item? ⟨before, Lexeme.starting c cs⟩ <;> rfl
        · rw [List.append_assoc, happend] at hline
          exact hline fun p hp => h p (List.mem_cons_of_mem _ hp)
        · rcases List.mem_cons.mp hp with rfl | hp
          · contradiction
          · exact hquote p hp hp'

/-! ## Order -/

theorem Lexeme.line_of_item {l : Lexeme} {line : Nat} {item : ScanItem}
    (h : l.item? line = some item) : item.line = line := by
  unfold Lexeme.item? at h
  split at h <;> cases h <;> rfl

/-- Lines never decrease, from the first one to the one at the end. -/
theorem scanFrom_ascends : ∀ (n line : Nat) (text : List Char),
    (line :: ((scanFrom n line text).items.map ScanItem.line ++ [(scanFrom n line text).line])).Pairwise
      (· ≤ ·)
  | 0, _, _ => by simp [scanFrom]
  | _ + 1, _, [] => by simp [scanFrom]
  | n + 1, line, c :: cs => by
    rw [scanFrom]
    dsimp only
    generalize hl : Lexeme.starting c cs = l
    have hafter := scanFrom_ascends n (line + l.newlines) l.rest
    have hstep : line ≤ line + l.newlines := Nat.le_add_right _ _
    cases hitem : l.item? (line + l.newlines) with
    | none =>
      rw [List.pairwise_cons] at hafter ⊢
      exact ⟨fun k hk => hstep.trans (hafter.1 k hk), hafter.2⟩
    | some item =>
      show (line :: item.line :: _).Pairwise (· ≤ ·)
      rw [Lexeme.line_of_item hitem]
      refine List.pairwise_cons.mpr ⟨fun k hk => ?_, hafter⟩
      rcases List.mem_cons.mp hk with rfl | hk
      · exact hstep
      · exact hstep.trans ((List.pairwise_cons.mp hafter).1 k hk)

/-- **Line numbers are newline counts.** The lexemes of a source make it up, each being what
longest match finds in its place, and the stream consists of their items. An item is on
one line more than there are newlines up to the end of its lexeme, and the last line is
one more than there are in the source. Only for a quote that is never closed they are
counted up to the quote, and that line is the last one too. Lines never decrease. -/
theorem scan_lines (source : String) :
    (placed source).flatMap (·.lexeme.text) = source.toList ∧
    (∀ p ∈ placed source, p.In source.toList) ∧
    (scan source).items = (placed source).filterMap Placed.item? ∧
    ((∀ p ∈ placed source, p.lexeme.reading ≠ .unclosed) →
      (scan source).line = 1 + source.toList.count '\n') ∧
    (∀ p ∈ placed source, p.lexeme.reading = .unclosed →
      (scan source).line = 1 + p.before.count '\n') ∧
    ((scan source).items.map ScanItem.line ++ [(scan source).line]).Pairwise (· ≤ ·) := by
  have hplaced := scanFrom_placed source.toList.length [] source.toList (Nat.le_refl _)
  obtain ⟨hitems, hline, hquote⟩ := hplaced
  refine ⟨placedFrom_texts _ _ _ (Nat.le_refl _), placedFrom_in _ _ _, hitems, hline, hquote, ?_⟩
  exact (List.pairwise_cons.mp (scanFrom_ascends source.toList.length 1 source.toList)).2

/-- A comment with a quote, a string over two lines, and a quote that nothing closes. -/
theorem scan_lines_unclosed :
    let source := "a # \"\n\"x\ny\" \"c\n"
    let quote : Placed := ⟨"a # \"\n\"x\ny\" ".toList, ⟨.unclosed, "\"c\n".toList, []⟩⟩
    quote ∈ placed source ∧ (scan source).items.map ScanItem.line = [1, 3, 3] ∧
      (scan source).line = 1 + quote.before.count '\n' := by
  intro source quote
  have hquote : quote ∈ placed source := List.mem_of_getLast? (by decide +kernel)
  have hitems : (scan source).items.map ScanItem.line = [1, 3, 3] := by decide +kernel
  obtain ⟨-, -, -, -, hline, -⟩ := scan_lines source
  exact ⟨hquote, hitems, hline quote hquote rfl⟩

end MatrixScript
