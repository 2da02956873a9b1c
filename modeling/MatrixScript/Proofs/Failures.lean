import MatrixScript.Proofs.StatementReading
import Mathlib.Data.List.Basic

/-!
# Failures of parsers

Where a parser fails, the tokens that it has passed are the beginning of something
that the grammar derives, and it has looked at nothing behind the token that stopped
it: with anything else behind that token it fails alike (`Fails`). Each parser is
compared with itself at a larger budget, since more tokens need a larger one
(`Follows`); the comparison goes through sequences from the front to the back.
-/

namespace MatrixScript

/-! ## Errors of parsers -/

namespace Parser

variable {α β : Type}

theorem bind_of_error {p : Parser α} {ts rest : List Located} {e : SyntaxError}
    (h : p ts = .error e rest) (next : α → Parser β) : (p >>= next) ts = .error e rest := by
  show EStateM.bind p next ts = _
  unfold EStateM.bind
  rw [h]

theorem bind_eq_error {p : Parser α} {next : α → Parser β} {ts rest : List Located} {e : SyntaxError} :
    (p >>= next) ts = .error e rest ↔
      p ts = .error e rest ∨ ∃ a mid, p ts = .ok a mid ∧ next a mid = .error e rest := by
  cases hp : p ts with
  | ok a mid =>
    rw [bind_of_ok hp]
    refine ⟨fun h => .inr ⟨a, mid, rfl, h⟩, ?_⟩
    rintro (h | ⟨_, _, h, hnext⟩)
    · cases h
    · cases h
      exact hnext
  | error e' mid =>
    rw [bind_of_error hp]
    constructor
    · intro h
      cases h
      exact .inl rfl
    · rintro (h | ⟨_, _, h, _⟩)
      · cases h
        rfl
      · cases h

@[simp] theorem pure_ne_error {a : α} {ts rest : List Located} {e : SyntaxError} :
    ¬ (pure a : Parser α) ts = .error e rest := by
  show ¬ EStateM.Result.ok a ts = .error e rest
  simp

end Parser

/-! ## Beginnings of what can be completed -/

/-- The tokens can be completed to some of a kind. -/
def Viable (P : List Located → Prop) (pre : List Located) : Prop := ∃ us, P (pre ++ us)

section
variable {P Q : List Located → Prop} {pre : List Located}

theorem viable_self (h : P pre) : Viable P pre := ⟨[], by rwa [List.append_nil]⟩

theorem Viable.of_append {us : List Located} (h : Viable P (pre ++ us)) : Viable P pre := by
  obtain ⟨vs, hp⟩ := h
  exact ⟨us ++ vs, by rwa [← List.append_assoc]⟩

theorem Viable.bind (h : Viable P pre) {used : List Located} (hPQ : ∀ us, P us → Viable Q (used ++ us)) :
    Viable Q (used ++ pre) := by
  obtain ⟨us, hp⟩ := h
  have hq := hPQ _ hp
  rw [← List.append_assoc] at hq
  exact hq.of_append

theorem Viable.map (h : Viable P pre) {used : List Located} (hPQ : ∀ us, P us → Q (used ++ us)) :
    Viable Q (used ++ pre) := h.bind fun us hp => viable_self (hPQ us hp)

end

/-! ## Empty pairs of brackets -/

def EndsOpen (ts : List Located) : Prop := ∃ line, ts.getLast? = some ⟨.symbol .leftBracket, line⟩

section
variable {us ts : List Located} {found : Located}

theorem EndsOpen.of_append (h : EndsOpen (ts ++ us)) (hne : us ≠ []) : EndsOpen us := by
  rwa [EndsOpen, List.getLast?_append_of_ne_nil _ hne] at h

theorem EndsOpen.of_cons (h : EndsOpen (found :: ts)) (hopen : found.token ≠ .symbol .leftBracket) :
    EndsOpen ts := by
  cases ts with
  | nil =>
    obtain ⟨line, h⟩ := h
    cases h
    exact absurd rfl hopen
  | cons next ts => exact @EndsOpen.of_append (next :: ts) [found] h (by simp)

theorem EndsOpen.behind (h : EndsOpen (ts ++ found :: us)) (hopen : found.token ≠ .symbol .leftBracket) :
    EndsOpen us := (h.of_append (by simp)).of_cons hopen

theorem not_endsOpen_nil : ¬ EndsOpen [] := by
  rintro ⟨line, h⟩
  cases h

/-- The line with which a token is reported that stops a parser: its own, but that of
the bracket directly before it where the two are an empty pair of brackets. -/
def reportLine (pre : List Located) (found : Located) : Nat :=
  match pre.getLast?, found.token with
  | some ⟨.symbol .leftBracket, line⟩, .symbol .rightBracket => line
  | _, _ => found.line

theorem reportLine_append {pre : List Located} (h : pre ≠ []) :
    reportLine (us ++ pre) found = reportLine pre found := by
  unfold reportLine
  rw [List.getLast?_append_of_ne_nil _ h]

theorem reportLine_of_apart {pre : List Located}
    (h : ¬ (EndsOpen pre ∧ found.token = .symbol .rightBracket)) :
    reportLine pre found = found.line := by
  unfold reportLine
  split
  · rename_i line hlast hf
    exact absurd ⟨⟨line, hlast⟩, hf⟩ h
  · rfl

end

/-! ## Failures -/

/-- A failure on some tokens: either they end after tokens in `V`, or after these
comes a token that stops the parser, whatever is behind it. -/
inductive Fails {α : Type} (p : Parser α) (n : Nat) (V : List Located → Prop) :
    List Located → SyntaxError → List Located → Prop
  | ends {pre rest} : V pre → Fails p n V pre .endOfInput rest
  | stuck {pre found reported rest} : V pre → reported = ⟨found.token, reportLine pre found⟩ →
      (∀ more, (pre ++ found :: more).length < n →
        p (pre ++ found :: more) = .error (.unexpectedToken reported) more) →
      Fails p n V (pre ++ found :: rest) (.unexpectedToken reported) rest

def Follows {α : Type} (p p' : Parser α) (n : Nat) (V : List Located → Prop) (ts : List Located) :
    Prop := ∀ e rest, p ts = .error e rest → Fails p' n V ts e rest

namespace Follows

variable {α β : Type} {n n' : Nat} {V V' : List Located → Prop} {ts : List Located}

section
variable {p p' q q' : Parser α}

/-- After some tokens both parsers go on as two others, the second on all tokens
that start in the same way. No pair of brackets may close in between. -/
theorem after (h : Follows q q' n V ts) (used : List Located) (hp : p (used ++ ts) = q ts)
    (hp' : ∀ more, more.head? = ts.head? → (used ++ more).length < n' → p' (used ++ more) = q' more)
    (hn : n' ≤ n + used.length) (hV : ∀ pre, V pre → V' (used ++ pre))
    (hapart : ¬ (EndsOpen used ∧ Starts (· = .symbol .rightBracket) ts)) :
    Follows p p' n' V' (used ++ ts) := by
  intro e rest he
  rw [hp] at he
  cases h e rest he with
  | ends hv => exact .ends (hV _ hv)
  | @stuck pre found reported _ hv hr hq =>
    have sameLine : reportLine (used ++ pre) found = reportLine pre found := by
      cases pre with
      | nil =>
        rw [List.append_nil]
        exact reportLine_of_apart hapart
      | cons first pre => exact reportLine_append (by simp)
    rw [← List.append_assoc]
    refine .stuck (hV _ hv) (sameLine ▸ hr) fun more hlen => ?_
    rw [List.append_assoc] at hlen ⊢
    have same : (pre ++ found :: more).head? = (pre ++ found :: rest).head? := by
      cases pre <;> rfl
    rw [hp' _ same hlen]
    rw [List.length_append] at hlen
    exact hq more (by omega)

theorem mono (h : Follows p p' n V ts) (hn : n' ≤ n) (hV : ∀ pre, V pre → V' pre) :
    Follows p p' n' V' ts :=
  h.after [] rfl (fun _ _ _ => rfl) hn hV fun hclose => not_endsOpen_nil hclose.1

theorem congr (h : Follows q q' n V ts) (hp : p ts = q ts)
    (hp' : ∀ more, more.head? = ts.head? → more.length < n → p' more = q' more) :
    Follows p p' n V ts :=
  h.after [] hp hp' (Nat.le_refl n) (fun _ => id) fun hclose => not_endsOpen_nil hclose.1

/-- The first token tells what the parsers do on all of them. -/
theorem lookahead {found : Located} (h : Follows q q' n V (found :: ts))
    (hp : p (found :: ts) = q (found :: ts)) (hp' : ∀ more, p' (found :: more) = q' (found :: more)) :
    Follows p p' n V (found :: ts) := by
  refine h.congr hp fun more hhead _ => ?_
  cases more with
  | nil => cases hhead
  | cons first more =>
    cases hhead
    exact hp' more

theorem cons {found : Located} (hopen : found.token ≠ .symbol .leftBracket)
    (h : Follows q q' (n - 1) (fun pre => V (found :: pre)) ts) (hp : p (found :: ts) = q ts)
    (hp' : ∀ more, (found :: more).length < n → p' (found :: more) = q' more) :
    Follows p p' n V (found :: ts) :=
  h.after [found] hp (fun more _ hlen => hp' more hlen) (by simp; omega) (fun _ => id)
    fun hclose => not_endsOpen_nil (hclose.1.of_cons hopen)

/-- A bracket is opened that does not close at once. -/
theorem opened {line : Nat} (hclose : ¬ Starts (· = .symbol .rightBracket) ts)
    (h : Follows q q' (n - 1) (fun pre => V (⟨.symbol .leftBracket, line⟩ :: pre)) ts)
    (hp : p (⟨.symbol .leftBracket, line⟩ :: ts) = q ts)
    (hp' : ∀ more, p' (⟨.symbol .leftBracket, line⟩ :: more) = q' more) :
    Follows p p' n V (⟨.symbol .leftBracket, line⟩ :: ts) :=
  h.after [⟨.symbol .leftBracket, line⟩] hp (fun more _ _ => hp' more) (by simp; omega) (fun _ => id)
    fun hboth => hclose hboth.2

/-- The parsers stop at the first token. -/
theorem stuck {found : Located} (hV : V []) (hp : p (found :: ts) = .error (.unexpectedToken found) ts)
    (hp' : ∀ more, p' (found :: more) = .error (.unexpectedToken found) more) :
    Follows p p' n V (found :: ts) := by
  intro e rest he
  rw [hp] at he
  cases he
  exact @Fails.stuck _ p' n V [] found found ts hV rfl fun more _ => hp' more

/-- The parsers stop where brackets close at once, and report the line of the first. -/
theorem stuckAtPair {opened close : Nat} (hV : V [⟨.symbol .leftBracket, opened⟩])
    (hp : p (⟨.symbol .leftBracket, opened⟩ :: ⟨.symbol .rightBracket, close⟩ :: ts) =
      .error (.unexpectedToken ⟨.symbol .rightBracket, opened⟩) ts)
    (hp' : ∀ more, p' (⟨.symbol .leftBracket, opened⟩ :: ⟨.symbol .rightBracket, close⟩ :: more) =
      .error (.unexpectedToken ⟨.symbol .rightBracket, opened⟩) more) :
    Follows p p' n V (⟨.symbol .leftBracket, opened⟩ :: ⟨.symbol .rightBracket, close⟩ :: ts) := by
  intro e rest he
  rw [hp] at he
  cases he
  exact @Fails.stuck _ p' n V [⟨.symbol .leftBracket, opened⟩] ⟨.symbol .rightBracket, close⟩ _ ts hV
    rfl fun more _ => hp' more

theorem ends (hV : V []) {rest : List Located} (hp : p [] = .error .endOfInput rest) :
    Follows p p' n V [] := by
  intro e rest he
  rw [hp] at he
  cases he
  exact .ends hV

theorem of_ok {a : α} {rest : List Located} (hp : p ts = .ok a rest) : Follows p p' n V ts := by
  intro e rest he
  rw [hp] at he
  cases he

end

theorem pure (a : α) {p' : Parser α} : Follows (Pure.pure a) p' n V ts := of_ok rfl

theorem bind {p p' : Parser α} {next next' : α → Parser β} (h : Follows p p' n' V' ts)
    (hn : n ≤ n') (hV : ∀ pre, V' pre → V pre)
    (hnext : ∀ a mid, p ts = .ok a mid → ∃ used, ts = used ++ mid ∧ ¬ EndsOpen used ∧
      (∀ more, more.head? = mid.head? → (used ++ more).length < n → p' (used ++ more) = .ok a more) ∧
      Follows (next a) (next' a) (n - used.length) (fun pre => V (used ++ pre)) mid) :
    Follows (p >>= next) (p' >>= next') n V ts := by
  intro e rest he
  rcases Parser.bind_eq_error.mp he with he | ⟨a, mid, ha, hlater⟩
  · cases h e rest he with
    | ends hv => exact .ends (hV _ hv)
    | stuck hv hr hp =>
      exact .stuck (hV _ hv) hr fun more hlen =>
        Parser.bind_of_error (hp more (Nat.lt_of_lt_of_le hlen hn)) next'
  · obtain ⟨used, rfl, hclosed, hok, hfollows⟩ := hnext a mid ha
    have hp' : ∀ more, more.head? = mid.head? → (used ++ more).length < n →
        (p' >>= next') (used ++ more) = next' a more :=
      fun more hhead hlen => Parser.bind_of_ok (hok more hhead hlen) next'
    have hall : Follows (p >>= next) (p' >>= next') n V (used ++ mid) :=
      hfollows.after used (Parser.bind_of_ok ha next) hp' (by omega) (fun _ => id)
        fun hboth => hclosed hboth.1
    exact hall e rest he

theorem map {p p' : Parser α} (h : Follows p p' n V ts) (f : α → β) :
    Follows (p >>= fun a => Pure.pure (f a)) (p' >>= fun a => Pure.pure (f a)) n V ts := by
  intro e rest he
  rcases Parser.bind_eq_error.mp he with he | ⟨a, mid, -, hpure⟩
  · cases h e rest he with
    | ends hv => exact .ends hv
    | stuck hv hr hp => exact .stuck hv hr fun more hlen => Parser.bind_of_error (hp more hlen) _
  · exact absurd hpure Parser.pure_ne_error

theorem next {after after' : Located → Parser β} (hV : V [])
    (hafter : ∀ found rest, ts = found :: rest →
      Follows (Parser.next >>= after) (Parser.next >>= after') n V (found :: rest)) :
    Follows (Parser.next >>= after) (Parser.next >>= after') n V ts := by
  cases ts with
  | nil => exact ends hV rfl
  | cons found ts => exact hafter found ts rfl

/-- A closing symbol that comes at once is taken. -/
theorem orClose {closing : Symbol} {p p' : Parser α} (h : Follows p p' n V ts) (a : α) :
    Follows (do
      if (← Parser.peek?).any (·.token = .symbol closing) then
        Parser.skip
        return a
      else p) (do
      if (← Parser.peek?).any (·.token = .symbol closing) then
        Parser.skip
        return a
      else p') n V ts := by
  by_cases hc : ts.head?.any (·.token = .symbol closing) = true
  · intro e rest he
    rw [Parser.peek?_bind, if_pos hc] at he
    cases he
  · refine h.congr ?_ fun more hhead _ => ?_
    · rw [Parser.peek?_bind, if_neg hc]
    · rw [Parser.peek?_bind, hhead, if_neg hc]

theorem identifier {after after' : String → Parser β} (hV : V [])
    (hafter : ∀ spelling line rest, ts = ⟨.name spelling, line⟩ :: rest →
      Follows (after spelling) (after' spelling) (n - 1)
        (fun pre => V (⟨.name spelling, line⟩ :: pre)) rest) :
    Follows (Parser.identifier >>= after) (Parser.identifier >>= after') n V ts := by
  cases ts with
  | nil => exact ends hV rfl
  | cons found ts =>
    obtain ⟨token, line⟩ := found
    cases token with
    | name spelling =>
      exact (hafter spelling line ts rfl).cons (by simp) (Parser.identifier_bind _ _ _ _) fun more _ =>
        Parser.identifier_bind _ _ _ _
    | _ => exact stuck hV rfl fun _ => rfl

theorem expect {symbol : Symbol} {after after' : Unit → Parser β} (hopen : symbol ≠ .leftBracket)
    (hV : V [])
    (hafter : ∀ line rest, ts = ⟨.symbol symbol, line⟩ :: rest →
      Follows (after ()) (after' ()) (n - 1) (fun pre => V (⟨.symbol symbol, line⟩ :: pre)) rest) :
    Follows (Parser.expect symbol >>= after) (Parser.expect symbol >>= after') n V ts := by
  cases ts with
  | nil => exact ends hV rfl
  | cons found ts =>
    obtain ⟨token, line⟩ := found
    by_cases hf : token = .symbol symbol
    · subst hf
      exact (hafter line ts rfl).cons (fun h => hopen (Token.symbol.inj h)) (Parser.expect_bind _ _ _ _)
        fun more _ => Parser.expect_bind _ _ _ _
    · have stops : ∀ {next : Unit → Parser β} more,
          (Parser.expect symbol >>= next) (⟨token, line⟩ :: more) =
            .error (.unexpectedToken ⟨token, line⟩) more := by
        intro next more
        refine Parser.bind_of_error ?_ next
        unfold Parser.expect
        rw [Parser.next_bind, if_neg hf]
        rfl
      exact stuck hV (stops ts) stops

end Follows

/-! ## Parsers at two budgets -/

def Spelt {α : Type} (G : List Located → α → List Located → Prop) (us : List Located) : Prop :=
  ∃ a, G us a []

def LooksAhead {α : Type} (G : List Located → α → List Located → Prop) : Prop :=
  ∀ used a rest more, G used a rest → more.head? = rest.head? → G used a more

/-- Two parsers, for fewer than `m` and fewer than `m'` tokens, that read what a
grammar derives; the second fails where the first does. -/
structure Settled {α : Type} (G : List Located → α → List Located → Prop) (p p' : Parser α)
    (m m' : Nat) : Prop where
  ahead : LooksAhead G
  closed : ∀ used a rest, G used a rest → ¬ EndsOpen used
  reads : ∀ ts, ts.length < m → ReadsBefore p G ts
  reads' : ∀ ts, ts.length < m' → ReadsBefore p' G ts
  fails : ∀ ts, ts.length < m → Follows p p' m' (Viable (Spelt G)) ts

theorem Settled.bind {α β : Type} {G : List Located → α → List Located → Prop} {p p' : Parser α}
    {m m' n : Nat} (h : Settled G p p' m m') {next next' : α → Parser β} {V : List Located → Prop}
    {ts : List Located} (hm : ts.length < m) (hn : n ≤ m') (hV : ∀ pre, Viable (Spelt G) pre → V pre)
    (hnext : ∀ used a mid, ts = used ++ mid → G used a mid →
      Follows (next a) (next' a) (n - used.length) (fun pre => V (used ++ pre)) mid) :
    Follows (p >>= next) (p' >>= next') n V ts := by
  refine (h.fails ts hm).bind hn hV fun a mid ha => ?_
  obtain ⟨used, rfl, hd⟩ := (h.reads ts hm a mid).mp ha
  refine ⟨used, rfl, h.closed used a mid hd, fun more hhead hlen => ?_, hnext used a mid rfl hd⟩
  exact (h.reads' _ (Nat.lt_of_lt_of_le hlen hn) a more).mpr
    ⟨used, rfl, h.ahead _ _ _ _ hd hhead⟩

end MatrixScript
