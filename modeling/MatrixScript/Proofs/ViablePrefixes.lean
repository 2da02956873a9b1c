import MatrixScript.Proofs.Failures

/-!
# Viable prefixes of expressions

The parsers of expressions fail only where the tokens before are the beginning of an
expression of their level, and at the first token that cannot go on with it
(`expression_settled`).
-/

namespace MatrixScript

/-! ## Spellings of the levels -/

def Level.Before (level : Level) (used : List Located) (e : Expr) (rest : List Located) : Prop :=
  Derives level used e ∧ ¬ Starts level.Continues rest

theorem starts_congr {K : Token → Prop} {ts us : List Located} (h : ts.head? = us.head?) :
    Starts K ts ↔ Starts K us := by
  cases ts <;> cases us <;> cases h <;> exact Iff.rfl

theorem Level.looksAhead (level : Level) : LooksAhead level.Before :=
  fun _ _ _ _ ⟨hd, hs⟩ hhead => ⟨hd, fun h => hs ((starts_congr hhead).mp h)⟩

theorem operator_opens_nothing {level : Level} {token : Token} {op : BinaryOp}
    (h : (token, op) ∈ level.operators) : token ≠ .symbol .leftBracket := by
  rintro rfl
  have hjoint := Level.jointOf?_of_mem (mem_joints_of_operator h)
  cases hjoint
  cases h

/-- No expression ends in an opening bracket. -/
theorem derives_closed {level : Level} {us : List Located} {e : Expr} (h : Derives level us e) :
    ¬ EndsOpen us := by
  match h with
  | .tighten _ hd => exact derives_closed hd
  | .bounds _ hd => exact fun hopen => derives_closed hd (hopen.behind (by simp))
  | .operation hm _ _ hd =>
    exact fun hopen => derives_closed hd (hopen.behind (operator_opens_nothing hm))
  | .negate hd => exact fun hopen => derives_closed hd (hopen.of_cons (by simp))
  | .transpose _ | .subscript _ _ | .paren _ | .emptyVector | .vector _ _ | .vectors _ | .matrix _ _
  | .printNothing | .print _ | .sized _ _ | .int | .real | .str | .name =>
    rintro ⟨line, hlast⟩
    simp [List.getLast?_cons, List.getLast?_append] at hlast

theorem spelt_of_derives {level : Level} {us : List Located} {e : Expr} (h : Derives level us e) :
    Spelt level.Before us := ⟨e, h, id⟩

theorem spelt_tighten {level tighter : Level} (ht : level.tighter? = some tighter)
    {us : List Located} (h : Spelt tighter.Before us) : Spelt level.Before us := by
  obtain ⟨e, hd, -⟩ := h
  exact spelt_of_derives (.tighten ht hd)

theorem viable_tighten {level tighter : Level} (ht : level.tighter? = some tighter)
    {pre : List Located} : Viable (Spelt tighter.Before) pre → Viable (Spelt level.Before) pre :=
  fun ⟨us, h⟩ => ⟨us, spelt_tighten ht h⟩

/-- There are expressions of every level. -/
theorem spelt_one (level : Level) : Spelt level.Before [⟨.int 1, 0⟩] := by
  have primary : Spelt Level.primary.Before [⟨.int 1, 0⟩] := spelt_of_derives .int
  have suffixed : Spelt Level.suffixed.Before _ := spelt_tighten rfl primary
  have unary : Spelt Level.unary.Before _ := spelt_tighten rfl suffixed
  have multiplicative : Spelt Level.multiplicative.Before _ := spelt_tighten rfl unary
  have additive : Spelt Level.additive.Before _ := spelt_tighten rfl multiplicative
  have relational : Spelt Level.relational.Before _ := spelt_tighten rfl additive
  have logical : Spelt Level.logical.Before _ := spelt_tighten rfl relational
  have range : Spelt Level.range.Before _ := spelt_tighten rfl logical
  cases level <;> assumption

theorem viable_level (level : Level) : Viable (Spelt level.Before) [] := ⟨_, spelt_one level⟩

def Prolongs (level : Level) (a : Expr) (us : List Located) : Prop := ∃ e, Joined level a us e

theorem Joins.prolongs {level : Level} {a b : Expr} {us : List Located} (h : Joins level a us b) :
    Prolongs level a us := ⟨b, Joined.snoc .nil h⟩

theorem Joins.viable {level : Level} {a b : Expr} {us pre : List Located} (h : Joins level a us b)
    (hv : Viable (Prolongs level b) pre) : Viable (Prolongs level a) (us ++ pre) :=
  hv.map fun _ ⟨e, hj⟩ => ⟨e, .cons h hj⟩

/-! ## Lists -/

def Closed (closing : Symbol) (P : List Located → Prop) (us : List Located) : Prop :=
  ∃ is close, us = is ++ [⟨.symbol closing, close⟩] ∧ P is

section
variable {closing : Symbol} {P Q : List Located → Prop} {pre us : List Located}

theorem viable_closed (h : Viable P pre) (hPQ : ∀ us, P us → Q us) : Viable (Closed closing Q) pre := by
  obtain ⟨us, hp⟩ := h
  exact ⟨us ++ [⟨.symbol closing, 0⟩], pre ++ us, 0, by rw [List.append_assoc], hPQ _ hp⟩

theorem viable_close (h : P us) : Viable (Closed closing P) us := ⟨[⟨.symbol closing, 0⟩], us, 0, rfl, h⟩

theorem spelt_items (h : Spelt Level.range.Before us) : ∃ es, DerivesItems us es := by
  obtain ⟨e, hd, -⟩ := h
  exact ⟨[e], .last hd⟩

theorem Viable.closed_map {used : List Located} (h : Viable (Closed closing P) pre)
    (hPQ : ∀ is, P is → Q (used ++ is)) : Viable (Closed closing Q) (used ++ pre) := by
  refine h.map ?_
  rintro us ⟨is, close, rfl, hp⟩
  exact ⟨used ++ is, close, by rw [List.append_assoc], hPQ is hp⟩

theorem Viable.closed_cons {used : List Located} {found : Located}
    (h : Viable (Closed closing P) pre) (hPQ : ∀ is, P is → Q (used ++ found :: is)) :
    Viable (Closed closing Q) (used ++ found :: pre) := by
  rw [List.append_cons]
  refine h.closed_map fun is hp => ?_
  rw [← List.append_cons]
  exact hPQ is hp

end

section
variable {expression expression' : Parser Expr} {m m' : Nat}
  (h : Settled Level.range.Before expression expression' m m')
include h

theorem enclosed_follows {β : Type} (closing : Symbol) (f : Expr → β) {ts : List Located}
    (hm : ts.length < m) {n : Nat} (hn : n ≤ m') (hopen : closing ≠ .leftBracket) :
    Follows (do
      let inner ← expression
      Parser.expect closing
      return f inner : Parser β) (do
      let inner ← expression'
      Parser.expect closing
      return f inner : Parser β) n (Viable (Closed closing (Spelt Level.range.Before))) ts := by
  refine h.bind hm hn (fun _ hv => viable_closed hv fun _ => id) fun used a mid _ hd => ?_
  refine .expect hopen ?_ fun _ _ _ => .pure _
  rw [List.append_nil]
  exact viable_close (spelt_of_derives hd.1)

theorem itemsUntil_follows {closing : Symbol} :
    ∀ (b b' n : Nat), b ≤ b' → n ≤ b' + 1 → n ≤ m' → ∀ ts : List Located, ts.length ≤ b →
    ts.length < m → Follows (Parser.itemsUntil closing expression b)
      (Parser.itemsUntil closing expression' b') n
      (Viable (Closed closing fun us => ∃ es, DerivesItems us es)) ts := by
  intro b
  induction b with
  | zero =>
    intro b' n _ _ _ ts hb _
    obtain rfl := List.eq_nil_of_length_eq_zero (Nat.le_zero.mp hb)
    exact .ends (viable_closed (viable_level .range) fun _ => spelt_items) rfl
  | succ b ih =>
    intro b' n hbb hn hnm ts hb hm
    obtain ⟨c, rfl⟩ : ∃ c, b' = c + 1 := ⟨b' - 1, by omega⟩
    rw [Parser.itemsUntil, Parser.itemsUntil]
    refine h.bind hm hnm (fun _ hv => viable_closed hv fun _ => spelt_items) fun used a mid hs hd => ?_
    have closes : Viable (Closed closing fun us => ∃ es, DerivesItems us es) (used ++ []) := by
      rw [List.append_nil]
      exact viable_close ⟨_, .last hd.1⟩
    refine .next closes fun found mid' hmid => ?_
    obtain ⟨token, line⟩ := found
    by_cases hc : token = .symbol .comma
    · subst hc
      have hlen := hd.1.shorter hs
      rw [hmid, List.length_cons] at hlen
      have hrest := ih c (n - used.length - 1) (by omega) (by omega) (by omega) mid' (by omega) (by omega)
      refine .cons (by simp) (.map (hrest.mono (Nat.le_refl _) fun pre hv => ?_) _) rfl fun _ _ => rfl
      refine hv.closed_cons ?_
      rintro is ⟨es, hes⟩
      exact ⟨_, .comma hd.1 hes⟩
    · by_cases hcl : token = .symbol closing
      · have closed : (Parser.next >>= fun separator =>
            if separator.token = .symbol .comma then
              Parser.itemsUntil closing expression b >>= fun es => pure (a :: es)
            else if separator.token = .symbol closing then pure [a]
            else throw (.unexpectedToken separator)) (⟨token, line⟩ :: mid') = .ok [a] mid' := by
          rw [Parser.next_bind, if_neg hc, if_pos hcl]
          rfl
        exact .of_ok closed
      · have stops : ∀ {p : Parser (List Expr)} more, (Parser.next >>= fun separator =>
            if separator.token = .symbol .comma then p
            else if separator.token = .symbol closing then pure [a]
            else throw (.unexpectedToken separator)) (⟨token, line⟩ :: more) =
            .error (.unexpectedToken ⟨token, line⟩) more := by
          intro p more
          rw [Parser.next_bind, if_neg hc, if_neg hcl]
          rfl
        exact .stuck closes (stops mid') stops

theorem listUntil_follows {closing : Symbol} {b b' n : Nat} (hbb : b ≤ b') (hn : n ≤ b' + 1)
    (hnm : n ≤ m') {ts : List Located} (hb : ts.length ≤ b) (hm : ts.length < m) :
    Follows (Parser.listUntil closing expression b) (Parser.listUntil closing expression' b') n
      (Viable (Closed closing fun us => ∃ es, DerivesItems us es)) ts :=
  (itemsUntil_follows h b b' n hbb hn hnm ts hb hm).orClose []

theorem rows_follows :
    ∀ (b b' n : Nat), b ≤ b' → n ≤ b' + 1 → n ≤ m' → ∀ ts : List Located, ts.length ≤ b →
    ts.length < m → Follows (Parser.rows expression b) (Parser.rows expression' b') n
      (Viable (Closed .rightBracket fun us => ∃ row later, DerivesRows us (row :: later))) ts := by
  have last : ∀ us, Spelt Level.range.Before us → ∃ row later, DerivesRows us (row :: later) := by
    rintro us ⟨e, hd, -⟩
    exact ⟨[e], [], .last (.last hd)⟩
  intro b
  induction b with
  | zero =>
    intro b' n _ _ _ ts hb _
    obtain rfl := List.eq_nil_of_length_eq_zero (Nat.le_zero.mp hb)
    exact .ends (viable_closed (viable_level .range) last) rfl
  | succ b ih =>
    intro b' n hbb hn hnm ts hb hm
    obtain ⟨c, rfl⟩ : ∃ c, b' = c + 1 := ⟨b' - 1, by omega⟩
    rw [Parser.rows, Parser.rows]
    refine h.bind hm hnm (fun _ hv => viable_closed hv last) fun used a mid hs hd => ?_
    have closes : Viable (Closed .rightBracket fun us => ∃ row later, DerivesRows us (row :: later))
        (used ++ []) := by
      rw [List.append_nil]
      exact viable_close ⟨_, _, .last (.last hd.1)⟩
    refine .next closes fun found mid' hmid => ?_
    obtain ⟨token, line⟩ := found
    have hlen := hd.1.shorter hs
    rw [hmid, List.length_cons] at hlen
    have hrest := ih c (n - used.length - 1) (by omega) (by omega) (by omega) mid' (by omega) (by omega)
    cases token with
    | symbol s =>
      cases s with
      | comma =>
        refine .cons (by simp) (.map (hrest.mono (Nat.le_refl _) fun pre hv => ?_) _) rfl fun _ _ => rfl
        refine hv.closed_cons ?_
        rintro is ⟨row, later, hrows⟩
        exact ⟨_, _, hrows.comma hd.1⟩
      | semicolon =>
        refine .cons (by simp) (.map (hrest.mono (Nat.le_refl _) fun pre hv => ?_) _) rfl fun _ _ => rfl
        refine hv.closed_cons ?_
        rintro is ⟨row, later, hrows⟩
        exact ⟨_, _, .semicolon (.last hd.1) hrows⟩
      | rightBracket => exact .of_ok rfl
      | _ => exact .stuck closes rfl fun _ => rfl
    | _ => exact .stuck closes rfl fun _ => rfl

/-! ## Primary expressions and suffixes -/

theorem bracket_follows {b b' n : Nat} (hbb : b ≤ b') (hn : n ≤ b' + 1) (hnm : n ≤ m') (line : Nat)
    {ts : List Located} (hb : ts.length ≤ b) (hm : ts.length < m) :
    Follows (Parser.bracket expression b line) (Parser.bracket expression' b' line) n
      (Viable (Closed .rightBracket fun us => ∃ row later, DerivesRows us (row :: later))) ts :=
  ((rows_follows h b b' n hbb hn hnm ts hb hm).map fun r => Expr.ofBracket r.1 r.2 line).orClose _

theorem sizedCall_follows {keyword : Keyword} {function : Sized}
    (hk : (keyword, function) ∈ [(Keyword.eye, Sized.eye), (.zeros, .zeros), (.ones, .ones)])
    (line : Nat) {n : Nat} (hn : n ≤ m' + 1) {ts : List Located} (hm : ts.length ≤ m) :
    Follows (Parser.sizedCall expression function line) (Parser.sizedCall expression' function line) n
      (fun pre => Viable (Spelt Level.primary.Before) (⟨.keyword keyword, line⟩ :: pre)) ts := by
  have call : ∀ opened pre, Viable (Closed .rightParen (Spelt Level.range.Before)) pre →
      Viable (Spelt Level.primary.Before)
        (⟨.keyword keyword, line⟩ :: ⟨.symbol .leftParen, opened⟩ :: pre) := by
    intro opened pre hv
    refine @Viable.map _ _ pre hv [_, _] ?_
    rintro us ⟨is, close, rfl, a, hd, -⟩
    exact spelt_of_derives (.sized hk hd)
  refine .expect (by simp) (call 0 [] (viable_closed (viable_level .range) fun _ => id)).of_append
    fun opened rest hs => ?_
  subst hs
  exact (enclosed_follows h .rightParen _ hm (by omega) (by simp)).mono (Nat.le_refl _) (call opened)

theorem primary_follows {b b' n : Nat} (hbb : b ≤ b') (hn : n ≤ b' + 2) (hnm : n ≤ m' + 1)
    {ts : List Located} (hb : ts.length ≤ b + 1) (hm : ts.length ≤ m) :
    Follows (Parser.primary expression b) (Parser.primary expression' b') n
      (Viable (Spelt Level.primary.Before)) ts := by
  have empty : Viable (Spelt Level.primary.Before) [] := viable_level .primary
  refine .next empty fun found ts' hs => ?_
  subst hs
  obtain ⟨token, line⟩ := found
  have hlen : ts'.length < m := hm
  have hlb : ts'.length ≤ b := Nat.le_of_succ_le_succ hb
  cases token with
  | int value => exact .of_ok rfl
  | real value => exact .of_ok rfl
  | str literal => exact .of_ok rfl
  | name spelling => exact .of_ok rfl
  | keyword k =>
    cases k with
    | eye | zeros | ones =>
      exact .cons (by simp) (sizedCall_follows h (by simp) line (by omega) (by omega)) rfl fun _ _ => rfl
    | print =>
      have call : ∀ opened pre, Viable (Closed .rightParen fun us => ∃ es, DerivesItems us es) pre →
          Viable (Spelt Level.primary.Before)
            (⟨.keyword .print, line⟩ :: ⟨.symbol .leftParen, opened⟩ :: pre) := by
        intro opened pre hv
        refine @Viable.map _ _ pre hv [_, _] ?_
        rintro us ⟨is, close, rfl, es, hes⟩
        exact spelt_of_derives (.print hes)
      have named : Viable (Spelt Level.primary.Before) [⟨.keyword .print, line⟩] :=
        (call 0 [] (viable_closed (viable_level .range) fun _ => spelt_items)).of_append
      refine .cons (by simp) (.expect (by simp) named fun opened rest hs => ?_) rfl fun _ _ => rfl
      subst hs
      have list : Follows (Parser.listUntil .rightParen expression b)
          (Parser.listUntil .rightParen expression' b') (n - 1 - 1) _ rest :=
        listUntil_follows h hbb (by omega) (by omega) (Nat.le_of_succ_le hlb) (Nat.lt_of_succ_lt hlen)
      exact .map (list.mono (Nat.le_refl _) (call opened)) _
    | _ => exact .stuck empty rfl fun _ => rfl
  | symbol s =>
    cases s with
    | leftParen =>
      have inner := enclosed_follows h .rightParen id hlen (show n - 1 ≤ m' by omega) (by simp)
      refine .cons (by simp) (inner.mono (Nat.le_refl _) fun pre hv => ?_) rfl fun _ _ => rfl
      refine @Viable.map _ _ pre hv [_] ?_
      rintro us ⟨is, close, rfl, a, hd, -⟩
      exact spelt_of_derives (.paren hd)
    | leftBracket =>
      by_cases hclose : Starts (· = .symbol .rightBracket) ts'
      · obtain ⟨close, mid, rfl⟩ := starts_token.mp hclose
        exact .of_ok rfl
      have inner := bracket_follows h hbb (show n - 1 ≤ b' + 1 by omega) (by omega) line hlb hlen
      refine .opened hclose (inner.mono (Nat.le_refl _) fun pre hv => ?_) rfl fun _ => rfl
      refine @Viable.map _ _ pre hv [_] ?_
      rintro us ⟨is, close, rfl, row, later, hrows⟩
      exact spelt_of_derives (derives_ofBracket hrows line close)
    | _ => exact .stuck empty rfl fun _ => rfl
  | skipped s => exact .stuck empty rfl fun _ => rfl

theorem suffixes_follows : ∀ (b b' n : Nat), b ≤ b' → n ≤ b' + 1 → n ≤ m' + 1 →
    ∀ (operand : Expr) (ts : List Located), ts.length ≤ b → ts.length ≤ m →
    Follows (Parser.suffixes expression b operand) (Parser.suffixes expression' b' operand) n
      (Viable (Prolongs .suffixed operand)) ts := by
  intro b
  induction b with
  | zero =>
    intro b' n _ _ _ operand ts hb _
    obtain rfl := List.eq_nil_of_length_eq_zero (Nat.le_zero.mp hb)
    exact .of_ok (suffixes_nil 0 operand)
  | succ b ih =>
    intro b' n hbb hn hnm operand ts hb hm
    obtain ⟨c, rfl⟩ : ∃ c, b' = c + 1 := ⟨b' - 1, by omega⟩
    cases ts with
    | nil => exact .of_ok (suffixes_nil _ operand)
    | cons found ts =>
      obtain ⟨token, line⟩ := found
      rw [List.length_cons] at hb hm
      by_cases hj : token ∈ Level.suffixed.joints
      · have hsplit : token = .symbol .transpose ∨ token = .symbol .leftBracket := by
          simpa [Level.joints] using hj
        rcases hsplit with rfl | rfl
        · have later := ih c (n - 1) (by omega) (by omega) (by omega) (.unary .transpose operand line) ts
            (by omega) (by omega)
          refine .cons (by simp) (later.mono (Nat.le_refl _) ?_) rfl fun _ _ => rfl
          exact fun pre hv => Joins.transpose.viable hv
        · have subscript : ∀ pre, Viable (Closed .rightBracket fun us => ∃ es, DerivesItems us es) pre →
              Viable (Prolongs .suffixed operand) (⟨.symbol .leftBracket, line⟩ :: pre) := by
            intro pre hv
            refine @Viable.map _ _ pre hv [_] ?_
            rintro us ⟨is, close, rfl, es, hes⟩
            exact (Joins.subscript hes).prolongs
          by_cases hc : Starts (· = .symbol .rightBracket) ts
          · -- A subscript without an index is found out at its closing bracket.
            obtain ⟨close, mid, rfl⟩ := starts_token.mp hc
            exact .stuckAtPair (subscript [] (viable_closed (viable_level .range) fun _ => spelt_items)) rfl
              fun _ => rfl
          · refine .opened hc ?_ (suffixes_subscript b operand line ts) fun more =>
              suffixes_subscript c operand line more
            have list : Follows (Parser.listUntil .rightBracket expression b)
                (Parser.listUntil .rightBracket expression' c) (n - 1) _ ts :=
              listUntil_follows h (by omega) (by omega) (by omega) (by omega) (by omega)
            refine list.bind (Nat.le_refl _) subscript fun indices mid hl => ?_
            rcases (listUntil_reads h.reads rfl rfl (by simp) (by omega) (by omega)).mp hl with
              ⟨rfl, close, rfl⟩ | ⟨is, close, rfl, hi⟩
            · exact absurd rfl hc
            · have hne : ¬ indices.isEmpty = true := by cases hi <;> simp
              rw [List.length_append, List.length_cons] at hb hm
              refine ⟨is ++ [⟨.symbol .rightBracket, close⟩], by simp, ?_, fun more _ hlen => ?_, ?_⟩
              · rintro ⟨_, hlast⟩
                simp at hlast
              · exact (listUntil_reads h.reads' rfl rfl (by simp) (by omega) (by omega)).mpr
                  (.inr ⟨is, close, by simp, hi⟩)
              · rw [if_neg hne, if_neg hne, List.length_append, List.length_singleton]
                have later := ih c (n - 1 - (is.length + 1)) (by omega) (by omega) (by omega)
                  (.binary .subscript operand (.vector ⟨indices, line⟩) line) mid (by omega) (by omega)
                exact later.mono (Nat.le_refl _) fun pre hv => (Joins.subscript hi).viable hv
      · exact .of_ok (suffixes_other hj b operand ts)

end

/-! ## Chains -/

/-- An operand of the next level, and then what a chain of the level goes on with. -/
theorem growing_follows {level tighter : Level} (hc : level.isChain = true)
    (ht : level.tighter? = some tighter) {operand operand' : Parser Expr}
    {onward onward' : Expr → Parser Expr} {m m' : Nat} (h : Settled tighter.Before operand operand' m m')
    {ts : List Located} (hm : ts.length < m)
    (honward : ∀ left mid, mid.length < ts.length → ∀ n ≤ m' - 1,
      Follows (onward left) (onward' left) n (Viable (Prolongs level left)) mid) :
    Follows (operand >>= onward) (operand' >>= onward') m' (Viable (Spelt level.Before)) ts := by
  refine h.bind hm (Nat.le_refl _) (fun _ => viable_tighten ht) fun used left mid hs hd => ?_
  have hlen := hd.1.shorter hs
  have hpos : 0 < used.length := by
    rw [hs, List.length_append] at hlen
    omega
  refine (honward left mid hlen _ (by omega)).mono (Nat.le_refl _) fun pre hv => hv.map ?_
  rintro us ⟨e, hj⟩
  exact spelt_of_derives ((derives_iff_joined hc ht).mpr ⟨used, left, us, rfl, hd.1, hj⟩)

section
variable {operator? : Token → Option BinaryOp} {operand operand' : Parser Expr} {level tighter : Level}
  {m m' : Nat} (hop : ∀ {token op}, operator? token = some op ↔ (token, op) ∈ level.operators)
  (ht : level.tighter? = some tighter)
  (h : Settled tighter.Before operand operand' (m + 1) (m' + 1))
include hop ht h

theorem chainFrom_follows : ∀ (b b' n : Nat), b ≤ b' → n ≤ b' + 1 → n ≤ m' + 1 →
    ∀ (left : Expr) (ts : List Located), ts.length ≤ b → ts.length ≤ m →
    Follows (Parser.chainFrom operator? operand b left) (Parser.chainFrom operator? operand' b' left) n
      (Viable (Prolongs level left)) ts := by
  intro b
  induction b with
  | zero =>
    intro b' n _ _ _ left ts hb _
    obtain rfl := List.eq_nil_of_length_eq_zero (Nat.le_zero.mp hb)
    exact .of_ok (chainFrom_nil 0 left)
  | succ b ih =>
    intro b' n hbb hn hnm left ts hb hm
    obtain ⟨c, rfl⟩ : ∃ c, b' = c + 1 := ⟨b' - 1, by omega⟩
    cases ts with
    | nil => exact .of_ok (chainFrom_nil _ left)
    | cons found ts =>
      rw [List.length_cons] at hb hm
      cases hf : operator? found.token with
      | none => exact .of_ok (chainFrom_other hf b left ts)
      | some op =>
        obtain ⟨token, line⟩ := found
        have joins : ∀ {us b}, Derives tighter us b →
            Joins level left (⟨token, line⟩ :: us) (.binary op left b line) :=
          fun hd => .operation (hop.mp hf) ht hd
        refine .cons (operator_opens_nothing (hop.mp hf)) ?_ (chainFrom_operator hf b left ts) fun more _ =>
          chainFrom_operator hf c left more
        refine h.bind (by omega) (by omega) ?_ fun used right mid hs hd => ?_
        · rintro pre ⟨us, e, hd, -⟩
          exact ⟨us, (joins hd).prolongs⟩
        · have hlen := hd.1.shorter hs
          have later := ih c (n - 1 - used.length) (by omega) (by omega) (by omega)
            (.binary op left right line) mid (by omega) (by omega)
          exact later.mono (Nat.le_refl _) fun pre hv => (joins hd.1).viable hv

theorem chain_settled (hjoints : level.joints = level.operators.map Prod.fst)
    (hc : level.isChain = true) (hmm : m ≤ m') :
    Settled level.Before (Parser.chain operator? operand m) (Parser.chain operator? operand' m')
      (m + 1) (m' + 1) where
  ahead := level.looksAhead
  closed _ _ _ hd := derives_closed hd.1
  reads _ hts := chain_reads hop hjoints ht (fun ts hts => h.reads ts (Nat.lt_succ_of_le hts))
    (Nat.le_of_lt_succ hts) hc
  reads' _ hts := chain_reads hop hjoints ht (fun ts hts => h.reads' ts (Nat.lt_succ_of_le hts))
    (Nat.le_of_lt_succ hts) hc
  fails _ hts := growing_follows hc ht h hts fun left mid hlen n hn =>
    chainFrom_follows hop ht h m m' n hmm (by omega) (by omega) left mid (by omega) (by omega)

end

/-! ## Expressions of each level -/

section
variable {expression expression' : Parser Expr} {m m' : Nat}
  (h : Settled Level.range.Before expression expression' m m')
include h

section
variable {b b' k k' : Nat} (hbb : b ≤ b') (hb : k ≤ b + 2) (hm : k ≤ m + 1) (hb' : k' ≤ b' + 2)
  (hm' : k' ≤ m' + 1)
include hbb hb hm hb' hm'

theorem primary_settled : Settled Level.primary.Before (Parser.primary expression b)
    (Parser.primary expression' b') k k' where
  ahead := Level.looksAhead _
  closed _ _ _ hd := derives_closed hd.1
  reads _ hts := primary_reads h.reads (by omega) (by omega)
  reads' _ hts := primary_reads h.reads' (by omega) (by omega)
  fails _ hts := primary_follows h hbb hb' hm' (by omega) (by omega)

theorem suffixed_settled : Settled Level.suffixed.Before (Parser.suffixed expression b)
    (Parser.suffixed expression' b') k k' where
  ahead := Level.looksAhead _
  closed _ _ _ hd := derives_closed hd.1
  reads _ hts := suffixed_reads h.reads (by omega) (by omega)
  reads' _ hts := suffixed_reads h.reads' (by omega) (by omega)
  fails _ hts := growing_follows rfl rfl (primary_settled h hbb hb hm hb' hm') hts
    fun operand mid hlen n hn => suffixes_follows h b b' n hbb (by omega) (by omega) operand mid
      (by omega) (by omega)

end

theorem unary_follows : ∀ (b b' n : Nat), b ≤ b' → n ≤ b' + 1 → n ≤ m' + 1 → ∀ ts : List Located,
    ts.length ≤ b → ts.length ≤ m → Follows (Parser.unary expression b) (Parser.unary expression' b') n
      (Viable (Spelt Level.unary.Before)) ts := by
  intro b
  induction b with
  | zero =>
    intro b' n _ _ _ ts hb _
    obtain rfl := List.eq_nil_of_length_eq_zero (Nat.le_zero.mp hb)
    exact .ends (viable_level .unary) rfl
  | succ b ih =>
    intro b' n hbb hn hnm ts hb hm
    obtain ⟨c, rfl⟩ : ∃ c, b' = c + 1 := ⟨b' - 1, by omega⟩
    by_cases hs : Starts (· = .symbol .minus) ts
    · obtain ⟨line, ts, rfl⟩ := starts_token.mp hs
      rw [List.length_cons] at hb hm
      have inner := ih c (n - 1) (by omega) (by omega) (by omega) ts (by omega) (by omega)
      refine .cons (by simp) (.map (inner.mono (Nat.le_refl _) fun pre hv => ?_) _) (unary_minus b line ts)
        fun more _ => unary_minus c line more
      refine @Viable.map _ _ pre hv [_] ?_
      rintro us ⟨a, hd, -⟩
      exact spelt_of_derives (.negate hd)
    · have inner : Settled Level.suffixed.Before (Parser.suffixed expression b)
          (Parser.suffixed expression' c) (ts.length + 1) n :=
        suffixed_settled h (by omega) (by omega) (by omega) (by omega) (by omega)
      refine ((inner.fails ts (Nat.lt_succ_self _)).mono (Nat.le_refl _) fun _ => viable_tighten rfl).congr
        (unary_other hs b) fun more hhead _ => ?_
      exact unary_other (fun hm => hs ((starts_congr hhead).mp hm)) c

variable (hmm : m ≤ m')
include hmm

theorem unary_settled : Settled Level.unary.Before (Parser.unary expression m)
    (Parser.unary expression' m') (m + 1) (m' + 1) where
  ahead := Level.looksAhead _
  closed _ _ _ hd := derives_closed hd.1
  reads ts hts := unary_reads h.reads m ts (by omega) (by omega)
  reads' ts hts := unary_reads h.reads' m' ts (by omega) (by omega)
  fails ts hts := unary_follows h m m' (m' + 1) hmm (by omega) (by omega) ts (by omega) (by omega)

theorem logical_settled : Settled Level.logical.Before (Parser.logical expression m)
    (Parser.logical expression' m') (m + 1) (m' + 1) := by
  have multiplicative := chain_settled multiplicativeOp?_iff rfl (unary_settled h hmm) rfl rfl hmm
  have additive := chain_settled additiveOp?_iff rfl multiplicative rfl rfl hmm
  have relational := chain_settled relationalOp?_iff rfl additive rfl rfl hmm
  exact chain_settled logicalOp?_iff rfl relational rfl rfl hmm

theorem range_follows {ts : List Located} (hts : ts.length ≤ m) :
    Follows (Parser.range expression m) (Parser.range expression' m') (m' + 1)
      (Viable (Spelt Level.range.Before)) ts := by
  have bound := logical_settled h hmm
  refine bound.bind (by omega) (Nat.le_refl _) (fun _ => viable_tighten rfl) fun used start mid hs hd => ?_
  by_cases hc : Starts (· = .symbol .colon) mid
  · obtain ⟨line, mid, rfl⟩ := starts_token.mp hc
    have hlen := hd.1.shorter hs
    rw [List.length_cons] at hlen
    refine .cons (by simp) (bound.bind ?_ ?_ ?_ fun used' stop mid' hs' hd' => ?_) rfl fun _ _ => rfl
    · omega
    · omega
    · rintro pre ⟨us, b, hd', -⟩
      exact ⟨us, spelt_of_derives (by simpa using Derives.bounds hd.1 hd')⟩
    · have spelt : Spelt Level.range.Before (used ++ ⟨.symbol .colon, line⟩ :: (used' ++ [])) := by
        rw [List.append_nil]
        exact spelt_of_derives (.bounds hd.1 hd'.1)
      cases mid' with
      | nil => exact .of_ok rfl
      | cons found mid' =>
        obtain ⟨token, again⟩ := found
        cases token with
        | symbol s =>
          cases s with
          -- Two bounds are all: the second colon is misplaced.
          | colon => exact .stuck (viable_self spelt) rfl fun _ => rfl
          | _ => exact .of_ok rfl
        | _ => exact .of_ok rfl
  · cases mid with
    | nil => exact .of_ok rfl
    | cons found mid =>
      obtain ⟨token, line⟩ := found
      cases token with
      | symbol s => cases s <;> first | exact .of_ok rfl | exact absurd rfl hc
      | _ => exact .of_ok rfl

theorem range_settled : Settled Level.range.Before (Parser.range expression m)
    (Parser.range expression' m') (m + 1) (m' + 1) where
  ahead := Level.looksAhead _
  closed _ _ _ hd := derives_closed hd.1
  reads _ hts := range_reads h.reads (Nat.le_of_lt_succ hts)
  reads' _ hts := range_reads h.reads' (Nat.le_of_lt_succ hts)
  fails _ hts := range_follows h hmm (Nat.le_of_lt_succ hts)

end

theorem expression_settled : ∀ n n' : Nat, n ≤ n' → Settled Level.range.Before (Parser.expression n)
    (Parser.expression n') (n + 1) (n' + 1) := by
  intro n
  induction n with
  | zero =>
    intro n' _
    refine ⟨Level.looksAhead _, fun _ _ _ hd => derives_closed hd.1, expression_reads 0,
      expression_reads n', fun ts hts => ?_⟩
    obtain rfl := List.eq_nil_of_length_eq_zero (Nat.lt_one_iff.mp hts)
    exact .ends (viable_level .range) rfl
  | succ n ih =>
    intro n' hn
    obtain ⟨c, rfl⟩ : ∃ c, n' = c + 1 := ⟨n' - 1, by omega⟩
    exact range_settled (ih c (by omega)) hn

end MatrixScript
