import MatrixScript.Parser.Expression
import MatrixScript.Proofs.GrammarLemmas

/-!
# Exact parsers

A parser is exact on some tokens (`Reads`) if it takes off their front what the
grammar derives, and stops where no token goes on with it. Chains and lists are
exact if the parsers they repeat are: both directions go by the budget, and a
loop with budget `n` is exact on up to `n` tokens.
-/

namespace MatrixScript

/-! ## Parsers that succeed -/

namespace Parser

variable {α β : Type}

theorem bind_of_ok {p : Parser α} {ts mid : List Located} {a : α} (h : p ts = .ok a mid)
    (next : α → Parser β) : (p >>= next) ts = next a mid := by
  show EStateM.bind p next ts = _
  unfold EStateM.bind
  rw [h]

@[simp] theorem peek?_bind (next : Option Located → Parser β) (ts : List Located) :
    (peek? >>= next) ts = next ts.head? ts := rfl

@[simp] theorem skip_bind (next : Unit → Parser β) (ts : List Located) :
    (skip >>= next) ts = next () ts.tail := rfl

@[simp] theorem next_bind (after : Located → Parser β) (found : Located) (ts : List Located) :
    (next >>= after) (found :: ts) = after found ts := rfl

theorem bind_eq_ok {p : Parser α} {next : α → Parser β} {ts rest : List Located} {b : β} :
    (p >>= next) ts = .ok b rest ↔ ∃ a mid, p ts = .ok a mid ∧ next a mid = .ok b rest := by
  constructor
  · intro h
    cases hp : p ts with
    | ok a mid =>
      rw [bind_of_ok hp] at h
      exact ⟨a, mid, rfl, h⟩
    | error e mid =>
      have : (p >>= next) ts = .error e mid := by
        show EStateM.bind p next ts = _
        unfold EStateM.bind
        rw [hp]
      rw [this] at h
      cases h
  · rintro ⟨a, mid, hp, h⟩
    rw [bind_of_ok hp, h]

@[simp] theorem pure_eq_ok {a b : α} {ts rest : List Located} :
    (pure a : Parser α) ts = .ok b rest ↔ a = b ∧ ts = rest := by
  show EStateM.Result.ok a ts = .ok b rest ↔ _
  simp

@[simp] theorem throw_eq_ok {e : SyntaxError} {b : α} {ts rest : List Located} :
    ¬ (throw e : Parser α) ts = .ok b rest := by
  show ¬ EStateM.Result.error e ts = .ok b rest
  simp

@[simp] theorem next_eq_ok {ts rest : List Located} {found : Located} :
    next ts = .ok found rest ↔ ts = found :: rest := by
  cases ts <;> simp [next]

@[simp] theorem expect_eq_ok {symbol : Symbol} {ts rest : List Located} {u : Unit} :
    expect symbol ts = .ok u rest ↔ ∃ line, ts = ⟨.symbol symbol, line⟩ :: rest := by
  unfold expect
  rw [bind_eq_ok]
  constructor
  · rintro ⟨⟨token, line⟩, mid, hn, h⟩
    rw [next_eq_ok] at hn
    split at h
    · rename_i ht
      rw [pure_eq_ok] at h
      exact ⟨line, by rw [hn, ← h.2, ← ht]⟩
    · simp at h
  · rintro ⟨line, rfl⟩
    exact ⟨_, _, next_eq_ok.mpr rfl, by simp⟩

@[simp] theorem identifier_eq_ok {spelling : String} {ts rest : List Located} :
    identifier ts = .ok spelling rest ↔ ∃ line, ts = ⟨.name spelling, line⟩ :: rest := by
  unfold identifier
  rw [bind_eq_ok]
  constructor
  · rintro ⟨⟨token, line⟩, mid, hn, h⟩
    rw [next_eq_ok] at hn
    cases token with
    | name found =>
      rw [pure_eq_ok] at h
      exact ⟨line, by rw [hn, ← h.2, ← h.1]⟩
    | _ => simp at h
  · rintro ⟨line, rfl⟩
    exact ⟨_, _, next_eq_ok.mpr rfl, by simp⟩

@[simp] theorem expect_bind (symbol : Symbol) (line : Nat) (after : Unit → Parser β)
    (ts : List Located) : (expect symbol >>= after) (⟨.symbol symbol, line⟩ :: ts) = after () ts :=
  bind_of_ok (expect_eq_ok.mpr ⟨line, rfl⟩) after

@[simp] theorem identifier_bind (spelling : String) (line : Nat) (after : String → Parser β)
    (ts : List Located) : (identifier >>= after) (⟨.name spelling, line⟩ :: ts) = after spelling ts :=
  bind_of_ok (identifier_eq_ok.mpr ⟨line, rfl⟩) after

end Parser

/-! ## Reading what the grammar derives -/

theorem starts_token {token : Token} {ts : List Located} :
    Starts (· = token) ts ↔ ∃ line rest, ts = ⟨token, line⟩ :: rest := by
  constructor
  · intro h
    cases ts with
    | nil => cases h
    | cons found ts => exact ⟨found.line, ts, by rw [← show found.token = token from h]⟩
  · rintro ⟨line, rest, rfl⟩
    rfl

/-- On these tokens a parser takes off the front what a grammar derives, where no
token of a kind follows. -/
def Reads {α : Type} (p : Parser α) (G : List Located → α → Prop) (K : Token → Prop)
    (ts : List Located) : Prop :=
  ∀ a rest, p ts = .ok a rest ↔ ∃ used, ts = used ++ rest ∧ G used a ∧ ¬ Starts K rest

theorem joined_stops {level : Level} {left e : Expr} {ts rest : List Located}
    (hs : ¬ Starts level.Continues ts) :
    (EStateM.Result.ok left ts : EStateM.Result SyntaxError _ _) = .ok e rest ↔
      ∃ used, ts = used ++ rest ∧ Joined level left used e ∧ ¬ Starts level.Continues rest := by
  constructor
  · intro h
    cases h
    exact ⟨[], rfl, .nil, hs⟩
  · rintro ⟨used, rfl, hj, -⟩
    cases hj with
    | nil => rfl
    | cons hj _ =>
      obtain ⟨found, us, rfl, hm⟩ := hj.starts
      exact absurd (Level.continues_iff.mpr (.inl hm)) hs

theorem Joined.first {level : Level} {a e : Expr} {found : Located} {ts used rest : List Located}
    (h : Joined level a used e) (hused : found :: ts = used ++ rest)
    (hj : found.token ∈ level.joints) (hend : ¬ Starts level.Continues rest) :
    ∃ us b vs, found :: ts = us ++ (vs ++ rest) ∧ Joins level a us b ∧ Joined level b vs e := by
  cases h with
  | nil =>
    rw [List.nil_append] at hused
    subst hused
    exact absurd (Level.continues_iff.mpr (.inl hj)) hend
  | @cons _ us b vs _ hf hs => exact ⟨us, b, vs, by rw [hused, List.append_assoc], hf, hs⟩

theorem logicalOp?_iff {token : Token} {op : BinaryOp} :
    token.logicalOp? = some op ↔ (token, op) ∈ Level.logical.operators := by
  cases token with
  | keyword k => cases k <;> simp [Token.logicalOp?, Level.operators, eq_comm]
  | _ => simp [Token.logicalOp?, Level.operators]

theorem relationalOp?_iff {token : Token} {op : BinaryOp} :
    token.relationalOp? = some op ↔ (token, op) ∈ Level.relational.operators := by
  cases token with
  | symbol s => cases s <;> simp [Token.relationalOp?, Level.operators, eq_comm]
  | _ => simp [Token.relationalOp?, Level.operators]

theorem additiveOp?_iff {token : Token} {op : BinaryOp} :
    token.additiveOp? = some op ↔ (token, op) ∈ Level.additive.operators := by
  cases token with
  | symbol s => cases s <;> simp [Token.additiveOp?, Level.operators, eq_comm]
  | _ => simp [Token.additiveOp?, Level.operators]

theorem multiplicativeOp?_iff {token : Token} {op : BinaryOp} :
    token.multiplicativeOp? = some op ↔ (token, op) ∈ Level.multiplicative.operators := by
  cases token with
  | symbol s => cases s <;> simp [Token.multiplicativeOp?, Level.operators, eq_comm]
  | _ => simp [Token.multiplicativeOp?, Level.operators]

/-! ## Chains -/

/-- An operand of the next level, and then what a chain of the level goes on with. -/
theorem growing_reads {level tighter : Level} {operand : Parser Expr} {onward : Expr → Parser Expr}
    (hc : level.isChain = true) (ht : level.tighter? = some tighter) {ts : List Located}
    (hoperand : Reads operand (Derives tighter) tighter.Continues ts)
    (honward : ∀ left mid, mid.length < ts.length → ¬ Starts tighter.Continues mid →
      Reads (onward left) (Joined level left) level.Continues mid) :
    Reads (operand >>= onward) (Derives level) level.Continues ts := by
  intro e rest
  rw [Parser.bind_eq_ok]
  constructor
  · rintro ⟨left, mid, hleft, hrest⟩
    obtain ⟨us, hs, hd, hmid⟩ := (hoperand left mid).mp hleft
    obtain ⟨vs, rfl, hj, hend⟩ := (honward left mid (hd.shorter hs) hmid e rest).mp hrest
    exact ⟨us ++ vs, by rw [hs, List.append_assoc],
      (derives_iff_joined hc ht).mpr ⟨us, left, vs, rfl, hd, hj⟩, hend⟩
  · rintro ⟨used, hs, hd, hend⟩
    obtain ⟨us, left, vs, rfl, hleft, hj⟩ := (derives_iff_joined hc ht).mp hd
    rw [List.append_assoc] at hs
    have hmid := hj.not_starts ht hend
    exact ⟨left, vs ++ rest, (hoperand left _).mpr ⟨us, hs, hleft, hmid⟩,
      (honward left _ (hleft.shorter hs) hmid e rest).mpr ⟨vs, rfl, hj, hend⟩⟩

section
variable {operator? : Token → Option BinaryOp} {operand : Parser Expr}

theorem chainFrom_nil (b : Nat) (left : Expr) :
    Parser.chainFrom operator? operand b left [] = .ok left [] := by
  cases b <;> rfl

theorem chainFrom_operator {found : Located} {op : BinaryOp} (h : operator? found.token = some op)
    (b : Nat) (left : Expr) (ts : List Located) :
    Parser.chainFrom operator? operand (b + 1) left (found :: ts) =
      (operand >>= fun right =>
        Parser.chainFrom operator? operand b (.binary op left right found.line)) ts := by
  rw [Parser.chainFrom, Parser.peek?_bind]
  dsimp only [List.head?_cons]
  rw [h]
  rfl

theorem chainFrom_other {found : Located} (h : operator? found.token = none) (b : Nat) (left : Expr)
    (ts : List Located) :
    Parser.chainFrom operator? operand (b + 1) left (found :: ts) = .ok left (found :: ts) := by
  rw [Parser.chainFrom, Parser.peek?_bind]
  dsimp only [List.head?_cons]
  rw [h]
  rfl

variable {level tighter : Level} {m : Nat}
  (hop : ∀ {token op}, operator? token = some op ↔ (token, op) ∈ level.operators)
  (hjoints : level.joints = level.operators.map Prod.fst) (ht : level.tighter? = some tighter)
  (hoperand : ∀ ts, ts.length ≤ m → Reads operand (Derives tighter) tighter.Continues ts)
include hop hjoints ht

theorem not_starts_chain {found : Located} {ts : List Located} (hn : operator? found.token = none)
    (hs : ¬ Starts tighter.Continues (found :: ts)) : ¬ Starts level.Continues (found :: ts) := by
  intro h
  rcases Level.continues_iff.mp h with hm | ⟨t, ht', hc⟩
  · rw [hjoints] at hm
    obtain ⟨⟨token, op⟩, hmem, heq⟩ := List.mem_map.mp hm
    have heq : token = found.token := heq
    rw [heq] at hmem
    rw [hop.mpr hmem] at hn
    cases hn
  · rw [ht] at ht'
    cases ht'
    exact hs hc

include hoperand

theorem chainFrom_reads : ∀ (b : Nat) (left : Expr) (ts : List Located), ts.length ≤ b →
    ts.length ≤ m → ¬ Starts tighter.Continues ts →
    Reads (Parser.chainFrom operator? operand b left) (Joined level left) level.Continues ts := by
  intro b
  induction b with
  | zero =>
    intro left ts hb _ _ e rest
    obtain rfl := List.eq_nil_of_length_eq_zero (Nat.le_zero.mp hb)
    rw [chainFrom_nil]
    exact joined_stops id
  | succ b ih =>
    intro left ts hb hm hs e rest
    cases ts with
    | nil =>
      rw [chainFrom_nil]
      exact joined_stops id
    | cons found ts =>
      cases hf : operator? found.token with
      | none =>
        rw [chainFrom_other hf]
        exact joined_stops (not_starts_chain hop hjoints ht hf hs)
      | some op =>
        -- No derivation may stop before an operator, since that would go on with it.
        rw [chainFrom_operator hf, Parser.bind_eq_ok]
        have hlen : ts.length ≤ m := Nat.le_of_succ_le hm
        constructor
        · rintro ⟨right, mid, hright, hrest⟩
          obtain ⟨us, rfl, hd, hmid⟩ := (hoperand ts hlen right mid).mp hright
          rw [List.length_append] at hlen
          rw [List.length_cons, List.length_append] at hb
          obtain ⟨vs, rfl, hj, hend⟩ := (ih _ mid (by omega) (by omega) hmid e rest).mp hrest
          refine ⟨found :: us ++ vs, by simp, .cons (.operation (hop.mp hf) ht hd) hj, hend⟩
        · rintro ⟨used, hused, hj, hend⟩
          obtain ⟨us, b', vs, hused, hj, hjs⟩ := hj.first hused (mem_joints_of_operator (hop.mp hf)) hend
          cases hj with
          | @operation _ _ token op' right _ b' line hm' ht' hd =>
            rw [ht] at ht'
            cases ht'
            rw [List.cons_append, List.cons.injEq] at hused
            obtain ⟨rfl, rfl⟩ := hused
            rw [hop.mpr hm'] at hf
            cases hf
            have hmid := hjs.not_starts ht hend
            refine ⟨b', vs ++ rest, (hoperand _ hlen _ _).mpr ⟨right, rfl, hd, hmid⟩, ?_⟩
            rw [List.length_append] at hlen
            rw [List.length_cons, List.length_append] at hb
            exact (ih _ _ (by omega) (by omega) hmid e rest).mpr ⟨vs, rfl, hjs, hend⟩
          | transpose => cases hop.mp hf
          | subscript _ => cases hop.mp hf

theorem chain_reads {ts : List Located} (hm : ts.length ≤ m) (hc : level.isChain = true) :
    Reads (Parser.chain operator? operand m) (Derives level) level.Continues ts := by
  refine growing_reads hc ht (hoperand ts hm) ?_
  intro left mid hlen hmid
  have hlen : mid.length ≤ m := Nat.le_of_lt (Nat.lt_of_lt_of_le hlen hm)
  exact chainFrom_reads hop hjoints ht hoperand m left mid hlen hlen hmid

end

/-! ## Lists -/

section
variable {expression : Parser Expr} {m : Nat}
  (hexp : ∀ ts, ts.length < m → Reads expression (Derives .range) Level.range.Continues ts)
include hexp

/-- An expression before a token that goes on with none. -/
theorem expression_before {ts rest : List Located} {e : Expr} {found : Located}
    (hd : Derives .range ts e) (hf : found.token.jointOf? = none)
    (hm : (ts ++ found :: rest).length < m) :
    expression (ts ++ found :: rest) = .ok e (found :: rest) :=
  (hexp _ hm _ _).mpr ⟨ts, rfl, hd, Level.not_continues_of_jointOf? hf _⟩

theorem itemsUntil_reads {closing : Symbol} (hclosing : (Token.symbol closing).jointOf? = none)
    (hne : closing ≠ .comma) : ∀ (b : Nat) (ts : List Located), ts.length ≤ b → ts.length < m →
    ∀ es rest, Parser.itemsUntil closing expression b ts = .ok es rest ↔
      ∃ is close, ts = is ++ ⟨.symbol closing, close⟩ :: rest ∧ DerivesItems is es := by
  intro b
  induction b with
  | zero =>
    intro ts hb _ es rest
    obtain rfl := List.eq_nil_of_length_eq_zero (Nat.le_zero.mp hb)
    simp [Parser.itemsUntil]
  | succ b ih =>
    intro ts hb hm es rest
    rw [Parser.itemsUntil, Parser.bind_eq_ok]
    constructor
    · rintro ⟨e, mid, he, h⟩
      obtain ⟨us, rfl, hd, -⟩ := (hexp ts hm e mid).mp he
      cases mid with
      | nil => cases h
      | cons found mid =>
        rw [Parser.next_bind] at h
        rw [List.length_append, List.length_cons] at hb hm
        obtain ⟨token, line⟩ := found
        split at h
        · rename_i hc
          rw [Parser.bind_eq_ok] at h
          obtain ⟨es', mid', hi, h⟩ := h
          rw [Parser.pure_eq_ok] at h
          obtain ⟨rfl, rfl⟩ := h
          obtain ⟨is, close, rfl, hes⟩ := (ih mid (by omega) (by omega) _ _).mp hi
          have hc : token = .symbol .comma := hc
          subst hc
          exact ⟨us ++ ⟨.symbol .comma, line⟩ :: is, close, by simp, .comma hd hes⟩
        · split at h
          · rename_i hc
            rw [Parser.pure_eq_ok] at h
            obtain ⟨rfl, rfl⟩ := h
            have hc : token = .symbol closing := hc
            subst hc
            exact ⟨us, line, rfl, .last hd⟩
          · simp at h
    · rintro ⟨is, close, rfl, hes⟩
      cases hes with
      | last hd =>
        refine ⟨_, _, expression_before hexp hd hclosing hm, ?_⟩
        rw [Parser.next_bind, if_neg (by simp [hne]), if_pos rfl, Parser.pure_eq_ok]
        exact ⟨rfl, rfl⟩
      | @comma us e line is es hd hes =>
        rw [List.append_assoc, List.cons_append] at hb hm ⊢
        refine ⟨_, _, expression_before hexp hd rfl hm, ?_⟩
        rw [List.length_append, List.length_cons] at hb hm
        rw [Parser.next_bind, if_pos rfl, Parser.bind_eq_ok]
        exact ⟨es, rest, (ih _ (by omega) (by omega) _ _).mpr ⟨is, close, rfl, hes⟩, by simp⟩

theorem listUntil_reads {closing : Symbol} (hclosing : (Token.symbol closing).jointOf? = none)
    (hopens : (Token.symbol closing).opens = false) (hne : closing ≠ .comma) {b : Nat}
    {ts : List Located} (hb : ts.length ≤ b) (hm : ts.length < m) {es : List Expr}
    {rest : List Located} :
    Parser.listUntil closing expression b ts = .ok es rest ↔
      (es = [] ∧ ∃ close, ts = ⟨.symbol closing, close⟩ :: rest) ∨
        ∃ is close, ts = is ++ ⟨.symbol closing, close⟩ :: rest ∧ DerivesItems is es := by
  unfold Parser.listUntil
  rw [Parser.peek?_bind]
  by_cases hc : ts.head?.any (·.token = .symbol closing) = true
  · rw [if_pos hc]
    cases ts with
    | nil => cases hc
    | cons found ts =>
      obtain ⟨token, line⟩ := found
      have ht : token = .symbol closing := by simpa using hc
      subst ht
      rw [Parser.skip_bind, Parser.pure_eq_ok]
      constructor
      · rintro ⟨rfl, rfl⟩
        exact .inl ⟨rfl, line, rfl⟩
      · rintro (⟨rfl, close, h⟩ | ⟨is, close, h, hes⟩)
        · cases h
          exact ⟨rfl, rfl⟩
        · obtain ⟨found, is, rfl, ho⟩ := derivesItems_starts hes
          cases h
          rw [hopens] at ho
          cases ho
  · rw [if_neg hc, itemsUntil_reads hexp hclosing hne b ts hb hm]
    constructor
    · exact .inr
    · rintro (⟨rfl, close, rfl⟩ | h)
      · exact absurd (by simp) hc
      · exact h

theorem rows_reads : ∀ (b : Nat) (ts : List Located), ts.length ≤ b → ts.length < m →
    ∀ row later rest, Parser.rows expression b ts = .ok (row, later) rest ↔
      ∃ is close, ts = is ++ ⟨.symbol .rightBracket, close⟩ :: rest ∧ DerivesRows is (row :: later) := by
  intro b
  induction b with
  | zero =>
    intro ts hb _ row later rest
    obtain rfl := List.eq_nil_of_length_eq_zero (Nat.le_zero.mp hb)
    simp [Parser.rows]
  | succ b ih =>
    intro ts hb hm row later rest
    rw [Parser.rows, Parser.bind_eq_ok]
    constructor
    · rintro ⟨e, mid, he, h⟩
      obtain ⟨us, rfl, hd, -⟩ := (hexp ts hm e mid).mp he
      cases mid with
      | nil => cases h
      | cons found mid =>
        rw [Parser.next_bind] at h
        rw [List.length_append, List.length_cons] at hb hm
        obtain ⟨token, line⟩ := found
        dsimp only at h
        split at h
        · rw [Parser.bind_eq_ok] at h
          obtain ⟨⟨row', later'⟩, mid', hr, h⟩ := h
          rw [Parser.pure_eq_ok] at h
          obtain ⟨h, rfl⟩ := h
          cases h
          obtain ⟨is, close, rfl, hrows⟩ := (ih mid (by omega) (by omega) _ _ _).mp hr
          exact ⟨us ++ ⟨.symbol .comma, line⟩ :: is, close, by simp, hrows.comma hd⟩
        · rw [Parser.bind_eq_ok] at h
          obtain ⟨⟨row', later'⟩, mid', hr, h⟩ := h
          rw [Parser.pure_eq_ok] at h
          obtain ⟨h, rfl⟩ := h
          cases h
          obtain ⟨is, close, rfl, hrows⟩ := (ih mid (by omega) (by omega) _ _ _).mp hr
          exact ⟨us ++ ⟨.symbol .semicolon, line⟩ :: is, close, by simp, .semicolon (.last hd) hrows⟩
        · rw [Parser.pure_eq_ok] at h
          obtain ⟨h, rfl⟩ := h
          cases h
          exact ⟨us, line, rfl, .last (.last hd)⟩
        · simp at h
    · rintro ⟨is, close, rfl, hrows⟩
      obtain ⟨us, e, hd, ⟨rfl, rfl, rfl⟩ | ⟨line, vs, row', rfl, rfl, hr⟩ |
        ⟨line, vs, row', rows', rfl, rfl, rfl, hr⟩⟩ := hrows.first
      · refine ⟨_, _, expression_before hexp hd rfl hm, ?_⟩
        simp
      · rw [List.append_assoc, List.cons_append] at hb hm ⊢
        refine ⟨_, _, expression_before hexp hd rfl hm, ?_⟩
        rw [List.length_append, List.length_cons] at hb hm
        rw [Parser.next_bind, Parser.bind_eq_ok]
        exact ⟨_, _, (ih _ (by omega) (by omega) _ _ _).mpr ⟨vs, close, rfl, hr⟩, by simp⟩
      · rw [List.append_assoc, List.cons_append] at hb hm ⊢
        refine ⟨_, _, expression_before hexp hd rfl hm, ?_⟩
        rw [List.length_append, List.length_cons] at hb hm
        rw [Parser.next_bind, Parser.bind_eq_ok]
        exact ⟨_, _, (ih _ (by omega) (by omega) _ _ _).mpr ⟨vs, close, rfl, hr⟩, by simp⟩

theorem bracket_reads {b line : Nat} {ts : List Located} (hb : ts.length ≤ b) (hm : ts.length < m)
    {e : Expr} {rest : List Located} : Parser.bracket expression b line ts = .ok e rest ↔
      (e = .vector ⟨[], line⟩ ∧ ∃ close, ts = ⟨.symbol .rightBracket, close⟩ :: rest) ∨
        ∃ is close row later, ts = is ++ ⟨.symbol .rightBracket, close⟩ :: rest ∧
          DerivesRows is (row :: later) ∧ e = .ofBracket row later line := by
  unfold Parser.bracket
  rw [Parser.peek?_bind]
  by_cases hc : ts.head?.any (·.token = .symbol .rightBracket) = true
  · rw [if_pos hc]
    cases ts with
    | nil => cases hc
    | cons found ts =>
      obtain ⟨token, l⟩ := found
      have ht : token = .symbol .rightBracket := by simpa using hc
      subst ht
      rw [Parser.skip_bind, Parser.pure_eq_ok]
      constructor
      · rintro ⟨rfl, rfl⟩
        exact .inl ⟨rfl, l, rfl⟩
      · rintro (⟨rfl, close, h⟩ | ⟨is, close, row, later, h, hrows, -⟩)
        · cases h
          exact ⟨rfl, rfl⟩
        · obtain ⟨found, is, rfl, ho⟩ := derivesRows_starts hrows
          cases h
          cases ho
  · rw [if_neg hc, Parser.bind_eq_ok]
    constructor
    · rintro ⟨⟨row, later⟩, mid, hr, h⟩
      rw [Parser.pure_eq_ok] at h
      obtain ⟨rfl, rfl⟩ := h
      obtain ⟨is, close, rfl, hrows⟩ := (rows_reads hexp b ts hb hm _ _ _).mp hr
      exact .inr ⟨is, close, row, later, rfl, hrows, rfl⟩
    · rintro (⟨rfl, close, rfl⟩ | ⟨is, close, row, later, rfl, hrows, rfl⟩)
      · exact absurd (by simp) hc
      · exact ⟨(row, later), rest, (rows_reads hexp b _ hb hm _ _ _).mpr ⟨is, close, rfl, hrows⟩,
          by simp⟩

end

end MatrixScript
