import MatrixScript.Proofs.Grammar

/-!
# Facts about the grammar

What one token of lookahead needs: the tokens that an expression can start with,
and those by which it goes on, are told apart from all that can stand after it. A
left-associative derivation is turned around into one that starts at its leftmost
operand (`derives_iff_joined`).
-/

namespace MatrixScript

/-! ## Looser levels -/

theorem Derives.loosen {level looser : Level} {ts : List Located} {e : Expr}
    (h : Derives level ts e) (hr : looser.rank ≤ level.rank) : Derives looser ts e := by
  by_cases hl : looser.rank = level.rank
  · have : looser = level := by cases looser <;> cases level <;> first | rfl | cases hl
    rwa [this]
  · cases ht : looser.tighter? with
    | none =>
      have htop : looser.rank = 7 := by cases looser <;> first | rfl | cases ht
      have hmost : level.rank ≤ 7 := by cases level <;> decide
      omega
    | some tighter =>
      have hnext : tighter.rank = looser.rank + 1 := by cases looser <;> cases ht <;> rfl
      exact .tighten ht (h.loosen (by omega))
termination_by level.rank - looser.rank
decreasing_by omega

theorem derives_range {level : Level} {ts : List Located} {e : Expr} (h : Derives level ts e) :
    Derives .range ts e := h.loosen (Nat.zero_le _)

/-! ## Tokens that go on -/

theorem Level.rank_of_tighter {level tighter : Level} (h : level.tighter? = some tighter) :
    level.rank ≤ tighter.rank := by
  cases level <;> cases h <;> decide

theorem Level.continues_iff {level : Level} {token : Token} :
    level.Continues token ↔
      token ∈ level.joints ∨ ∃ tighter, level.tighter? = some tighter ∧ tighter.Continues token := by
  constructor
  · rintro ⟨l, hr, hm⟩
    by_cases hl : l = level
    · exact .inl (hl ▸ hm)
    · refine .inr ?_
      cases level <;> cases l <;>
        first | exact absurd rfl hl | exact ⟨_, rfl, _, by decide, hm⟩ | exact absurd hr (by decide)
  · rintro (hm | ⟨tighter, ht, l, hr, hm⟩)
    · exact ⟨level, Nat.le_refl _, hm⟩
    · exact ⟨l, Nat.le_trans (rank_of_tighter ht) hr, hm⟩

theorem Level.continues_of_tighter {level tighter : Level} (h : level.tighter? = some tighter)
    {token : Token} (ht : tighter.Continues token) : level.Continues token :=
  continues_iff.mpr (.inr ⟨tighter, h, ht⟩)

def Token.jointOf? : Token → Option Level
  | .symbol .colon => some .range
  | .keyword .and | .keyword .or | .keyword .xor => some .logical
  | .symbol .equal | .symbol .notEqual | .symbol .greater | .symbol .greaterEqual | .symbol .less
  | .symbol .lessEqual => some .relational
  | .symbol .plus | .symbol .minus | .symbol .dotPlus | .symbol .dotMinus => some .additive
  | .symbol .times | .symbol .divide | .symbol .dotTimes | .symbol .dotDivide => some .multiplicative
  | .symbol .transpose | .symbol .leftBracket => some .suffixed
  | _ => none

theorem Level.jointOf?_of_mem {level : Level} {token : Token} (h : token ∈ level.joints) :
    token.jointOf? = some level := by
  cases level <;>
    simp only [joints, operators, List.map_cons, List.map_nil, List.mem_cons, List.not_mem_nil,
      or_false] at h
  case range => subst h; rfl
  case logical => rcases h with rfl | rfl | rfl <;> rfl
  case relational => rcases h with rfl | rfl | rfl | rfl | rfl | rfl <;> rfl
  case additive => rcases h with rfl | rfl | rfl | rfl <;> rfl
  case multiplicative => rcases h with rfl | rfl | rfl | rfl <;> rfl
  case suffixed => rcases h with rfl | rfl <;> rfl

theorem Level.not_continues_of_jointOf? {token : Token} (h : token.jointOf? = none) (level : Level) :
    ¬ level.Continues token := by
  rintro ⟨l, -, hm⟩
  rw [jointOf?_of_mem hm] at h
  cases h

/-- A joint goes on with expressions of its own level, not with its operands. -/
theorem Level.not_continues_joint {level tighter : Level} (h : level.tighter? = some tighter)
    {token : Token} (hm : token ∈ level.joints) : ¬ tighter.Continues token := by
  rintro ⟨l, hr, hl⟩
  have hsame : some l = some level := (jointOf?_of_mem hl).symm.trans (jointOf?_of_mem hm)
  cases hsame
  cases level <;> cases h <;> exact absurd hr (by decide)

/-! ## Tokens that start an expression -/

def Token.opens : Token → Bool
  | .int _ | .real _ | .str _ | .name _ => true
  | .symbol .leftParen | .symbol .leftBracket | .symbol .minus => true
  | .keyword .print | .keyword .eye | .keyword .zeros | .keyword .ones => true
  | _ => false

theorem derives_starts {level : Level} {ts : List Located} {e : Expr} (h : Derives level ts e) :
    ∃ found rest, ts = found :: rest ∧ found.token.opens = true ∧
      (Level.suffixed.rank ≤ level.rank → found.token ≠ .symbol .minus) := by
  match h with
  | .tighten ht hd =>
    obtain ⟨found, rest, hs, ho, hm⟩ := derives_starts hd
    exact ⟨found, rest, hs, ho, fun hr => hm (Nat.le_trans hr (Level.rank_of_tighter ht))⟩
  | .bounds hl _ =>
    obtain ⟨found, rest, hs, ho, -⟩ := derives_starts hl
    exact ⟨found, _, by rw [hs]; rfl, ho, fun hr => absurd hr (by decide)⟩
  | .operation hm _ hl _ =>
    obtain ⟨found, rest, hs, ho, hn⟩ := derives_starts hl
    exact ⟨found, _, by rw [hs]; rfl, ho, hn⟩
  | .negate _ => exact ⟨_, _, rfl, rfl, fun hr => absurd hr (by decide)⟩
  | .transpose hd =>
    obtain ⟨found, rest, hs, ho, hn⟩ := derives_starts hd
    exact ⟨found, _, by rw [hs]; rfl, ho, hn⟩
  | .subscript hd _ =>
    obtain ⟨found, rest, hs, ho, hn⟩ := derives_starts hd
    exact ⟨found, _, by rw [hs]; rfl, ho, hn⟩
  | .int => exact ⟨_, _, rfl, rfl, by simp⟩
  | .real => exact ⟨_, _, rfl, rfl, by simp⟩
  | .str => exact ⟨_, _, rfl, rfl, by simp⟩
  | .name => exact ⟨_, _, rfl, rfl, by simp⟩
  | .paren _ => exact ⟨_, _, rfl, rfl, by simp⟩
  | .emptyVector => exact ⟨_, _, rfl, rfl, by simp⟩
  | .vector _ _ => exact ⟨_, _, rfl, rfl, by simp⟩
  | .vectors _ => exact ⟨_, _, rfl, rfl, by simp⟩
  | .matrix _ _ => exact ⟨_, _, rfl, rfl, by simp⟩
  | .printNothing => exact ⟨_, _, rfl, rfl, by simp⟩
  | .print _ => exact ⟨_, _, rfl, rfl, by simp⟩
  | .sized hk _ =>
    refine ⟨_, _, rfl, ?_, by simp⟩
    simp only [List.mem_cons, Prod.mk.injEq, List.not_mem_nil, or_false] at hk
    rcases hk with ⟨rfl, -⟩ | ⟨rfl, -⟩ | ⟨rfl, -⟩ <;> rfl

theorem Derives.shorter {level : Level} {ts us rest : List Located} {e : Expr}
    (h : Derives level us e) (hs : ts = us ++ rest) : rest.length < ts.length := by
  obtain ⟨found, us, rfl, -⟩ := derives_starts h
  rw [hs, List.length_append, List.length_cons]
  omega

theorem derivesItems_starts {ts : List Located} {es : List Expr} (h : DerivesItems ts es) :
    ∃ found rest, ts = found :: rest ∧ found.token.opens = true := by
  cases h with
  | last hd =>
    obtain ⟨found, rest, hs, ho, -⟩ := derives_starts hd
    exact ⟨found, rest, hs, ho⟩
  | comma hd _ =>
    obtain ⟨found, rest, hs, ho, -⟩ := derives_starts hd
    exact ⟨found, _, by rw [hs]; rfl, ho⟩

theorem derivesRows_starts {ts : List Located} {rows : List (List Expr)} (h : DerivesRows ts rows) :
    ∃ found rest, ts = found :: rest ∧ found.token.opens = true := by
  cases h with
  | last hi => exact derivesItems_starts hi
  | semicolon hi _ =>
    obtain ⟨found, rest, hs, ho⟩ := derivesItems_starts hi
    exact ⟨found, _, by rw [hs]; rfl, ho⟩

theorem DerivesRows.comma {ts us : List Located} {e : Expr} {line : Nat} {row : List Expr}
    {rows : List (List Expr)} (hd : Derives .range ts e) (h : DerivesRows us (row :: rows)) :
    DerivesRows (ts ++ ⟨.symbol .comma, line⟩ :: us) ((e :: row) :: rows) := by
  cases h with
  | last hi => exact .last (.comma hd hi)
  | semicolon hi hr =>
    rw [← List.cons_append, ← List.append_assoc]
    exact .semicolon (.comma hd hi) hr

theorem DerivesRows.first {ts : List Located} {row : List Expr} {rows : List (List Expr)}
    (h : DerivesRows ts (row :: rows)) :
    ∃ us e, Derives .range us e ∧
      ((ts = us ∧ row = [e] ∧ rows = []) ∨
        (∃ line vs row', ts = us ++ ⟨.symbol .comma, line⟩ :: vs ∧ row = e :: row' ∧
          DerivesRows vs (row' :: rows)) ∨
        ∃ line vs row' rows', ts = us ++ ⟨.symbol .semicolon, line⟩ :: vs ∧ row = [e] ∧
          rows = row' :: rows' ∧ DerivesRows vs (row' :: rows')) := by
  cases h with
  | last hi =>
    cases hi with
    | last hd => exact ⟨_, _, hd, .inl ⟨rfl, rfl, rfl⟩⟩
    | comma hd hi => exact ⟨_, _, hd, .inr (.inl ⟨_, _, _, rfl, rfl, .last hi⟩)⟩
  | semicolon hi hr =>
    cases hi with
    | last hd =>
      obtain ⟨row', rows', rfl⟩ : ∃ row' rows', rows = row' :: rows' := by
        cases hr <;> exact ⟨_, _, rfl⟩
      exact ⟨_, _, hd, .inr (.inr ⟨_, _, row', rows', rfl, rfl, rfl, hr⟩)⟩
    | comma hd hi =>
      rw [List.append_assoc, List.cons_append]
      exact ⟨_, _, hd, .inr (.inl ⟨_, _, _, rfl, rfl, .semicolon hi hr⟩)⟩

/-! ## Chains from the left -/

inductive Joins : Level → Expr → List Located → Expr → Prop
  | operation {level tighter token op right a b line} : (token, op) ∈ level.operators →
      level.tighter? = some tighter → Derives tighter right b →
      Joins level a (⟨token, line⟩ :: right) (.binary op a b line)
  | transpose {a line} : Joins .suffixed a [⟨.symbol .transpose, line⟩] (.unary .transpose a line)
  | subscript {indices a es line close} : DerivesItems indices es →
      Joins .suffixed a (⟨.symbol .leftBracket, line⟩ :: (indices ++ [⟨.symbol .rightBracket, close⟩]))
        (.binary .subscript a (.vector ⟨es, line⟩) line)

inductive Joined (level : Level) : Expr → List Located → Expr → Prop
  | nil {a} : Joined level a [] a
  | cons {a us b vs e} : Joins level a us b → Joined level b vs e → Joined level a (us ++ vs) e

section
variable {level tighter : Level}

theorem mem_joints_of_operator {token : Token} {op : BinaryOp} (h : (token, op) ∈ level.operators) :
    token ∈ level.joints := by
  have hm : token ∈ level.operators.map Prod.fst := List.mem_map.mpr ⟨_, h, rfl⟩
  cases level with
  | range => cases h
  | suffixed => cases h
  | _ => exact hm

theorem Joins.starts {a b : Expr} {us : List Located} (h : Joins level a us b) :
    ∃ found rest, us = found :: rest ∧ found.token ∈ level.joints := by
  cases h with
  | operation hm _ _ => exact ⟨_, _, rfl, mem_joints_of_operator hm⟩
  | transpose => exact ⟨_, _, rfl, by simp [Level.joints]⟩
  | subscript _ => exact ⟨_, _, rfl, by simp [Level.joints]⟩

theorem Joined.snoc {a b c : Expr} {us vs : List Located} (h : Joined level a us b)
    (hj : Joins level b vs c) : Joined level a (us ++ vs) c := by
  induction h with
  | nil => simpa using Joined.cons hj .nil
  | cons hf _ ih => rw [List.append_assoc]; exact .cons hf (ih hj)

theorem derives_of_joins {ts us : List Located} {a b : Expr} (ha : Derives level ts a)
    (h : Joins level a us b) : Derives level (ts ++ us) b := by
  cases h with
  | operation hm ht hr => exact .operation hm ht ha hr
  | transpose => exact .transpose ha
  | subscript hi => exact .subscript ha hi

theorem derives_of_joined {a e : Expr} {us : List Located} (h : Joined level a us e) :
    ∀ {ts : List Located}, Derives level ts a → Derives level (ts ++ us) e := by
  induction h with
  | nil => intro ts ha; simpa using ha
  | cons hj _ ih =>
    intro ts ha
    rw [← List.append_assoc]
    exact ih (derives_of_joins ha hj)

/-- The levels whose expressions grow to the right only. -/
def Level.isChain : Level → Bool
  | range | unary | primary => false
  | _ => true

theorem joined_of_derives {level tighter : Level} {ts : List Located} {e : Expr}
    (h : Derives level ts e) (hc : level.isChain = true) (ht : level.tighter? = some tighter) :
    ∃ us a vs, ts = us ++ vs ∧ Derives tighter us a ∧ Joined level a vs e := by
  match h with
  | .tighten ht' hd =>
    rw [ht] at ht'
    cases ht'
    exact ⟨_, _, [], by simp, hd, .nil⟩
  | .operation hm ht' hl hr =>
    obtain ⟨us, a, vs, hs, ha, hj⟩ := joined_of_derives hl hc ht
    exact ⟨us, a, _, by rw [hs, List.append_assoc], ha, hj.snoc (.operation hm ht' hr)⟩
  | .transpose hd =>
    obtain ⟨us, a, vs, hs, ha, hj⟩ := joined_of_derives hd hc ht
    exact ⟨us, a, _, by rw [hs, List.append_assoc], ha, hj.snoc .transpose⟩
  | .subscript hd hi =>
    obtain ⟨us, a, vs, hs, ha, hj⟩ := joined_of_derives hd hc ht
    exact ⟨us, a, _, by rw [hs, List.append_assoc], ha, hj.snoc (.subscript hi)⟩

theorem derives_iff_joined (hc : level.isChain = true) (ht : level.tighter? = some tighter)
    {ts : List Located} {e : Expr} : Derives level ts e ↔
      ∃ us a vs, ts = us ++ vs ∧ Derives tighter us a ∧ Joined level a vs e := by
  constructor
  · exact fun h => joined_of_derives h hc ht
  · rintro ⟨us, a, vs, rfl, ha, hj⟩
    exact derives_of_joined hj (.tighten ht ha)

/-- Between the operands of a chain, or after it, nothing goes on with an operand. -/
theorem Joined.not_starts {a e : Expr} {us rest : List Located} (h : Joined level a us e)
    (ht : level.tighter? = some tighter) (hrest : ¬ Starts level.Continues rest) :
    ¬ Starts tighter.Continues (us ++ rest) := by
  cases h with
  | nil =>
    cases rest with
    | nil => exact id
    | cons found rest => exact fun hs => hrest (Level.continues_of_tighter ht hs)
  | cons hj _ =>
    obtain ⟨found, us, rfl, hm⟩ := hj.starts
    exact Level.not_continues_joint ht hm

end

end MatrixScript
