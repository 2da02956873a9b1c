import MatrixScript.Proofs.ReadingLemmas

/-!
# Reading expressions by the grammar

The parser of each level takes off the front of the tokens what the grammar
derives at that level (`level_reads`). A level is exact on up to `n` tokens if the
parser for what stands in brackets is exact on fewer.
-/

namespace MatrixScript

/-! ## Bracket literals -/

theorem row?_eq_some {e : Expr} {row : Row} : e.row? = some row ↔ e = .vector row := by
  cases e <;> simp [Expr.row?]

theorem mapM_row?_map (rows : List Row) : (rows.map Expr.vector).mapM Expr.row? = some rows := by
  induction rows with
  | nil => rfl
  | cons row rows ih => rw [List.map_cons, List.mapM_cons, ih]; rfl

theorem eq_map_of_mapM_row? {es : List Expr} :
    ∀ {rows : List Row}, es.mapM Expr.row? = some rows → es = rows.map .vector := by
  induction es with
  | nil => intro rows h; cases h; rfl
  | cons e es ih =>
    intro rows h
    rw [List.mapM_cons] at h
    simp only [Option.bind_eq_bind, Option.bind_eq_some_iff, Option.pure_def, Option.some.injEq] at h
    obtain ⟨row, hrow, rows, hrows, rfl⟩ := h
    rw [row?_eq_some.mp hrow, ih hrows, List.map_cons]

theorem exists_of_mapM_row? {es : List Expr} (h : es.mapM Expr.row? = none) :
    ∃ e ∈ es, e.row? = none := by
  induction es with
  | nil => cases h
  | cons e es ih =>
    rw [List.mapM_cons] at h
    cases he : e.row? with
    | none => exact ⟨e, by simp, he⟩
    | some row =>
      cases hes : es.mapM Expr.row? with
      | none =>
        obtain ⟨e', hm, hn⟩ := ih hes
        exact ⟨e', by simp [hm], hn⟩
      | some rows => rw [he, hes] at h; cases h

theorem derives_ofBracket {is : List Located} {row : List Expr} {later : List (List Expr)}
    (h : DerivesRows is (row :: later)) (line close : Nat) :
    Derives .primary (⟨.symbol .leftBracket, line⟩ :: (is ++ [⟨.symbol .rightBracket, close⟩]))
      (.ofBracket row later line) := by
  cases later with
  | nil =>
    have hi : DerivesItems is row := by
      cases h with
      | last hi => exact hi
      | semicolon _ hr => cases hr
    unfold Expr.ofBracket
    rw [if_pos (by rfl)]
    cases hv : row.mapM Expr.row? with
    | none => exact .vector hi (exists_of_mapM_row? hv)
    | some vectors =>
      rw [eq_map_of_mapM_row? hv] at hi
      exact .vectors hi
  | cons second later => exact .matrix h (by simp)

theorem ofBracket_of_row {row : List Expr} (h : ∃ e ∈ row, e.row? = none) (line : Nat) :
    Expr.ofBracket row [] line = .vector ⟨row, line⟩ := by
  unfold Expr.ofBracket
  cases hv : row.mapM Expr.row? with
  | none => rfl
  | some vectors =>
    obtain ⟨e, he, hn⟩ := h
    rw [eq_map_of_mapM_row? hv] at he
    obtain ⟨row, -, rfl⟩ := List.mem_map.mp he
    cases hn

theorem ofBracket_of_vectors (rows : List Row) (line : Nat) :
    Expr.ofBracket (rows.map .vector) [] line = .matrix rows line := by
  unfold Expr.ofBracket
  rw [mapM_row?_map]
  rfl

/-! ## Primary expressions -/

theorem not_starts_primary (rest : List Located) : ¬ Starts Level.primary.Continues rest := by
  cases rest with
  | nil => exact id
  | cons found rest =>
    rintro ⟨l, hr, hm⟩
    cases l <;> first | exact absurd hr (by decide) | cases hm

section
variable {expression : Parser Expr} {m : Nat}
  (hexp : ∀ ts, ts.length < m → Reads expression (Derives .range) Level.range.Continues ts)
include hexp

theorem enclosed_reads {β : Type} {closing : Symbol} (hclosing : (Token.symbol closing).jointOf? = none)
    (f : Expr → β) {ts : List Located} (hm : ts.length < m) {b : β} {rest : List Located} :
    (do
      let inner ← expression
      Parser.expect closing
      return f inner : Parser β) ts = .ok b rest ↔
      ∃ is close a, ts = is ++ ⟨.symbol closing, close⟩ :: rest ∧ Derives .range is a ∧ b = f a := by
  rw [Parser.bind_eq_ok]
  constructor
  · rintro ⟨a, mid, ha, h⟩
    obtain ⟨is, rfl, hd, -⟩ := (hexp ts hm a mid).mp ha
    rw [Parser.bind_eq_ok] at h
    obtain ⟨_, mid', hc, h⟩ := h
    obtain ⟨close, rfl⟩ := Parser.expect_eq_ok.mp hc
    rw [Parser.pure_eq_ok] at h
    obtain ⟨rfl, rfl⟩ := h
    exact ⟨is, close, a, rfl, hd, rfl⟩
  · rintro ⟨is, close, a, rfl, hd, rfl⟩
    refine ⟨_, _, expression_before hexp hd hclosing hm, ?_⟩
    rw [Parser.bind_eq_ok]
    exact ⟨(), rest, Parser.expect_eq_ok.mpr ⟨close, rfl⟩, by simp⟩

theorem sizedCall_reads (function : Sized) (line : Nat) {ts : List Located} (hm : ts.length ≤ m)
    {e : Expr} {rest : List Located} :
    Parser.sizedCall expression function line ts = .ok e rest ↔
      ∃ opened is close a, ts = ⟨.symbol .leftParen, opened⟩ ::
          (is ++ ⟨.symbol .rightParen, close⟩ :: rest) ∧
        Derives .range is a ∧ e = .call (.sized function) [a] line := by
  unfold Parser.sizedCall
  rw [Parser.bind_eq_ok]
  constructor
  · rintro ⟨_, mid, ho, h⟩
    obtain ⟨opened, rfl⟩ := Parser.expect_eq_ok.mp ho
    obtain ⟨is, close, a, rfl, hd, rfl⟩ := (enclosed_reads hexp rfl _ hm).mp h
    exact ⟨opened, is, close, a, rfl, hd, rfl⟩
  · rintro ⟨opened, is, close, a, rfl, hd, rfl⟩
    refine ⟨(), _, Parser.expect_eq_ok.mpr ⟨opened, rfl⟩, ?_⟩
    exact (enclosed_reads hexp rfl _ hm).mpr ⟨is, close, a, rfl, hd, rfl⟩

theorem printCall_reads (line : Nat) {b : Nat} {ts : List Located} (hb : ts.length ≤ b + 1)
    (hm : ts.length ≤ m) {e : Expr} {rest : List Located} :
    (do
      Parser.expect .leftParen
      let arguments ← Parser.listUntil .rightParen expression b
      return .call .print arguments line : Parser Expr) ts = .ok e rest ↔
      ∃ opened close, (e = .call .print [] line ∧
          ts = ⟨.symbol .leftParen, opened⟩ :: ⟨.symbol .rightParen, close⟩ :: rest) ∨
        ∃ is es, ts = ⟨.symbol .leftParen, opened⟩ :: (is ++ ⟨.symbol .rightParen, close⟩ :: rest) ∧
          DerivesItems is es ∧ e = .call .print es line := by
  rw [Parser.bind_eq_ok]
  constructor
  · rintro ⟨_, mid, ho, h⟩
    obtain ⟨opened, rfl⟩ := Parser.expect_eq_ok.mp ho
    rw [Parser.bind_eq_ok] at h
    obtain ⟨es, mid', hl, h⟩ := h
    rw [Parser.pure_eq_ok] at h
    obtain ⟨rfl, rfl⟩ := h
    have hlen : mid.length < m := hm
    rcases (listUntil_reads hexp rfl rfl (by simp) (Nat.le_of_succ_le_succ hb) hlen).mp hl with
      ⟨rfl, close, rfl⟩ | ⟨is, close, rfl, hi⟩
    · exact ⟨opened, close, .inl ⟨rfl, rfl⟩⟩
    · exact ⟨opened, close, .inr ⟨is, es, rfl, hi, rfl⟩⟩
  · rintro ⟨opened, close, ⟨rfl, rfl⟩ | ⟨is, es, rfl, hi, rfl⟩⟩
    · refine ⟨(), _, Parser.expect_eq_ok.mpr ⟨opened, rfl⟩, ?_⟩
      rw [Parser.bind_eq_ok]
      refine ⟨[], rest, ?_, by simp⟩
      refine (listUntil_reads hexp rfl rfl (by simp) (Nat.le_of_succ_le_succ hb) hm).mpr ?_
      exact .inl ⟨rfl, close, rfl⟩
    · refine ⟨(), _, Parser.expect_eq_ok.mpr ⟨opened, rfl⟩, ?_⟩
      rw [Parser.bind_eq_ok]
      refine ⟨es, rest, ?_, by simp⟩
      refine (listUntil_reads hexp rfl rfl (by simp) (Nat.le_of_succ_le_succ hb) hm).mpr ?_
      exact .inr ⟨is, close, rfl, hi⟩

theorem primary_sound {b : Nat} {ts : List Located} (hb : ts.length ≤ b + 1) (hm : ts.length ≤ m)
    {e : Expr} {rest : List Located} (h : Parser.primary expression b ts = .ok e rest) :
    ∃ used, ts = used ++ rest ∧ Derives .primary used e := by
  unfold Parser.primary at h
  cases ts with
  | nil => cases h
  | cons found ts =>
    obtain ⟨token, line⟩ := found
    rw [Parser.next_bind] at h
    have hlen : ts.length < m := hm
    have hlb : ts.length ≤ b := Nat.le_of_succ_le_succ hb
    have sized : ∀ {keyword function}, Parser.sizedCall expression function line ts = .ok e rest →
        (keyword, function) ∈ [(Keyword.eye, Sized.eye), (.zeros, .zeros), (.ones, .ones)] →
        ∃ used, (⟨.keyword keyword, line⟩ :: ts : List Located) = used ++ rest ∧
          Derives .primary used e := by
      intro keyword function hs hk
      obtain ⟨opened, is, close, a, rfl, hd, rfl⟩ :=
        (sizedCall_reads hexp function line (Nat.le_of_lt hlen)).mp hs
      exact ⟨⟨.keyword keyword, line⟩ :: ⟨.symbol .leftParen, opened⟩ ::
        (is ++ [⟨.symbol .rightParen, close⟩]), by simp, .sized hk hd⟩
    cases token with
    | int value =>
      obtain ⟨rfl, rfl⟩ := Parser.pure_eq_ok.mp h
      exact ⟨[_], rfl, .int⟩
    | real value =>
      obtain ⟨rfl, rfl⟩ := Parser.pure_eq_ok.mp h
      exact ⟨[_], rfl, .real⟩
    | str literal =>
      obtain ⟨rfl, rfl⟩ := Parser.pure_eq_ok.mp h
      exact ⟨[_], rfl, .str⟩
    | name spelling =>
      obtain ⟨rfl, rfl⟩ := Parser.pure_eq_ok.mp h
      exact ⟨[_], rfl, .name⟩
    | keyword k =>
      cases k with
      | eye => exact sized h (by simp)
      | zeros => exact sized h (by simp)
      | ones => exact sized h (by simp)
      | print =>
        obtain ⟨opened, close, ⟨rfl, rfl⟩ | ⟨is, es, rfl, hi, rfl⟩⟩ :=
          (printCall_reads hexp line (Nat.le_succ_of_le hlb) (Nat.le_of_lt hlen)).mp h
        · exact ⟨[_, _, _], rfl, .printNothing⟩
        · exact ⟨⟨.keyword .print, line⟩ :: ⟨.symbol .leftParen, opened⟩ ::
            (is ++ [⟨.symbol .rightParen, close⟩]), by simp, .print hi⟩
      | _ => simp at h
    | symbol s =>
      cases s with
      | leftParen =>
        obtain ⟨is, close, a, rfl, hd, rfl⟩ := (enclosed_reads hexp rfl id hlen).mp h
        exact ⟨⟨.symbol .leftParen, line⟩ :: (is ++ [⟨.symbol .rightParen, close⟩]), by simp, .paren hd⟩
      | leftBracket =>
        rcases (bracket_reads hexp hlb hlen).mp h with
          ⟨rfl, close, rfl⟩ | ⟨is, close, row, later, rfl, hrows, rfl⟩
        · exact ⟨[_, _], rfl, .emptyVector⟩
        · exact ⟨⟨.symbol .leftBracket, line⟩ :: (is ++ [⟨.symbol .rightBracket, close⟩]), by simp,
            derives_ofBracket hrows line close⟩
      | _ => simp at h
    | skipped s => simp at h

theorem primary_complete {b : Nat} {used rest : List Located} {e : Expr}
    (h : Derives .primary used e) (hb : (used ++ rest).length ≤ b + 1)
    (hm : (used ++ rest).length ≤ m) : Parser.primary expression b (used ++ rest) = .ok e rest := by
  have literal : ∀ {is : List Located} {row : List Expr} {later : List (List Expr)} {line close : Nat},
      DerivesRows is (row :: later) →
      (is ++ ([⟨.symbol .rightBracket, close⟩] : List Located) ++ rest).length ≤ b →
      (is ++ ([⟨.symbol .rightBracket, close⟩] : List Located) ++ rest).length < m →
      Parser.bracket expression b line (is ++ [⟨.symbol .rightBracket, close⟩] ++ rest) =
        .ok (.ofBracket row later line) rest := by
    intro is row later line close hrows hb hm
    refine (bracket_reads hexp hb hm).mpr (.inr ⟨is, close, row, later, ?_, hrows, rfl⟩)
    simp
  unfold Parser.primary
  cases h with
  | tighten ht _ => cases ht
  | operation hm' _ _ _ => cases hm'
  | int => rfl
  | real => rfl
  | str => rfl
  | name => rfl
  | @paren is _ line close hd =>
    refine (enclosed_reads hexp rfl id hm).mpr ⟨is, close, e, by simp, hd, rfl⟩
  | @emptyVector line close =>
    exact (bracket_reads hexp (Nat.le_of_succ_le_succ hb) hm).mpr (.inl ⟨rfl, close, rfl⟩)
  | @vector is es line close hi hn =>
    rw [← ofBracket_of_row hn line]
    exact literal (.last hi) (Nat.le_of_succ_le_succ hb) hm
  | @vectors is rows line close hi =>
    rw [← ofBracket_of_vectors rows line]
    exact literal (.last hi) (Nat.le_of_succ_le_succ hb) hm
  | @matrix is rows line close hrows hlen =>
    match rows, hlen with
    | row :: second :: later, _ => exact literal hrows (Nat.le_of_succ_le_succ hb) hm
  | @printNothing line opened close =>
    exact (printCall_reads hexp line (Nat.le_of_lt hb) (Nat.le_of_lt hm)).mpr
      ⟨opened, close, .inl ⟨rfl, rfl⟩⟩
  | @print is es line opened close hi =>
    exact (printCall_reads hexp line (Nat.le_of_lt hb) (Nat.le_of_lt hm)).mpr
      ⟨opened, close, .inr ⟨is, es, by simp, hi, rfl⟩⟩
  | @sized keyword function is a line opened close hk hd =>
    have call : Parser.sizedCall expression function line
        (⟨.symbol .leftParen, opened⟩ :: (is ++ [⟨.symbol .rightParen, close⟩]) ++ rest) =
        .ok (.call (.sized function) [a] line) rest :=
      (sizedCall_reads hexp function line (Nat.le_of_lt hm)).mpr
        ⟨opened, is, close, a, by simp, hd, rfl⟩
    simp only [List.mem_cons, Prod.mk.injEq, List.not_mem_nil, or_false] at hk
    rcases hk with ⟨rfl, rfl⟩ | ⟨rfl, rfl⟩ | ⟨rfl, rfl⟩ <;> exact call

theorem primary_reads {b : Nat} {ts : List Located} (hb : ts.length ≤ b + 1) (hm : ts.length ≤ m) :
    Reads (Parser.primary expression b) (Derives .primary) Level.primary.Continues ts := by
  intro e rest
  constructor
  · intro h
    obtain ⟨used, hu, hd⟩ := primary_sound hexp hb hm h
    exact ⟨used, hu, hd, not_starts_primary rest⟩
  · rintro ⟨used, rfl, hd, -⟩
    exact primary_complete hexp hd hb hm

end

/-! ## Suffixes -/

section
variable {expression : Parser Expr}

theorem suffixes_nil (b : Nat) (operand : Expr) :
    Parser.suffixes expression b operand [] = .ok operand [] := by
  cases b <;> rfl

theorem suffixes_transpose (b : Nat) (operand : Expr) (line : Nat) (ts : List Located) :
    Parser.suffixes expression (b + 1) operand (⟨.symbol .transpose, line⟩ :: ts) =
      Parser.suffixes expression b (.unary .transpose operand line) ts := rfl

theorem suffixes_subscript (b : Nat) (operand : Expr) (line : Nat) (ts : List Located) :
    Parser.suffixes expression (b + 1) operand (⟨.symbol .leftBracket, line⟩ :: ts) =
      (Parser.listUntil .rightBracket expression b >>= fun indices =>
        if indices.isEmpty then throw (.unexpectedToken ⟨.symbol .rightBracket, line⟩)
        else Parser.suffixes expression b (.binary .subscript operand (.vector ⟨indices, line⟩) line))
        ts := rfl

theorem suffixes_other {found : Located} (h : found.token ∉ Level.suffixed.joints) (b : Nat)
    (operand : Expr) (ts : List Located) :
    Parser.suffixes expression (b + 1) operand (found :: ts) = .ok operand (found :: ts) := by
  obtain ⟨token, line⟩ := found
  cases token with
  | symbol s => cases s <;> first | rfl | exact absurd (by simp [Level.joints]) h
  | _ => rfl

theorem not_starts_suffixed {found : Located} {ts : List Located}
    (h : found.token ∉ Level.suffixed.joints) : ¬ Starts Level.suffixed.Continues (found :: ts) := by
  intro hs
  rcases Level.continues_iff.mp hs with hm | ⟨tighter, ht, hc⟩
  · exact h hm
  · cases ht
    exact not_starts_primary (found :: ts) hc

variable {m : Nat}
  (hexp : ∀ ts, ts.length < m → Reads expression (Derives .range) Level.range.Continues ts)
include hexp

theorem suffixes_reads : ∀ (b : Nat) (operand : Expr) (ts : List Located), ts.length ≤ b →
    ts.length ≤ m →
    Reads (Parser.suffixes expression b operand) (Joined .suffixed operand) Level.suffixed.Continues
      ts := by
  intro b
  induction b with
  | zero =>
    intro operand ts hb _ e rest
    obtain rfl := List.eq_nil_of_length_eq_zero (Nat.le_zero.mp hb)
    rw [suffixes_nil]
    exact joined_stops id
  | succ b ih =>
    intro operand ts hb hm e rest
    cases ts with
    | nil =>
      rw [suffixes_nil]
      exact joined_stops id
    | cons found ts =>
      obtain ⟨token, line⟩ := found
      rw [List.length_cons] at hb hm
      have hb : ts.length ≤ b := Nat.le_of_succ_le_succ hb
      by_cases hj : token ∈ Level.suffixed.joints
      · have hsplit : token = .symbol .transpose ∨ token = .symbol .leftBracket := by
          simpa [Level.joints] using hj
        rcases hsplit with rfl | rfl
        · rw [suffixes_transpose, ih _ ts hb (Nat.le_of_succ_le hm)]
          constructor
          · rintro ⟨us, rfl, hs, hend⟩
            exact ⟨_ :: us, rfl, .cons .transpose hs, hend⟩
          · rintro ⟨used, hused, hs, hend⟩
            obtain ⟨us, b', vs, hused, hf, hs⟩ := hs.first hused hj hend
            cases hf with
            | operation hop _ _ => cases hop
            | transpose =>
              cases hused
              exact ⟨vs, rfl, hs, hend⟩
            | subscript _ => cases hused
        · rw [suffixes_subscript, Parser.bind_eq_ok]
          constructor
          · rintro ⟨indices, mid, hl, h⟩
            rcases (listUntil_reads hexp rfl rfl (by simp) hb hm).mp hl with
              ⟨rfl, close, rfl⟩ | ⟨is, close, rfl, hi⟩
            · cases h
            · rw [if_neg (by cases hi <;> simp)] at h
              rw [List.length_append, List.length_cons] at hb hm
              obtain ⟨us, rfl, hs, hend⟩ := (ih _ mid (by omega) (by omega) e rest).mp h
              refine ⟨⟨.symbol .leftBracket, line⟩ :: (is ++ [⟨.symbol .rightBracket, close⟩]) ++ us,
                by simp, .cons (.subscript hi) hs, hend⟩
          · rintro ⟨used, hused, hs, hend⟩
            -- A bracket after an operand is always a subscript.
            obtain ⟨us, b', vs, hused, hf, hs⟩ := hs.first hused hj hend
            cases hf with
            | operation hop _ _ => cases hop
            | transpose => cases hused
            | @subscript is _ es _ close hi =>
              simp only [List.cons_append, List.append_assoc, List.nil_append, List.cons.injEq,
                Located.mk.injEq, true_and] at hused
              obtain ⟨rfl, rfl⟩ := hused
              refine ⟨es, vs ++ rest, (listUntil_reads hexp rfl rfl (by simp) hb hm).mpr
                (.inr ⟨is, close, rfl, hi⟩), ?_⟩
              rw [if_neg (by cases hi <;> simp)]
              rw [List.length_append, List.length_cons] at hb hm
              exact (ih _ _ (by omega) (by omega) e rest).mpr ⟨vs, rfl, hs, hend⟩
      · rw [suffixes_other hj]
        exact joined_stops (not_starts_suffixed hj)

theorem suffixed_reads {b : Nat} {ts : List Located} (hb : ts.length ≤ b + 1) (hm : ts.length ≤ m) :
    Reads (Parser.suffixed expression b) (Derives .suffixed) Level.suffixed.Continues ts := by
  refine growing_reads rfl rfl (primary_reads hexp hb hm) ?_
  intro operand mid hlen _
  exact suffixes_reads hexp b operand mid (by omega) (by omega)

end

/-! ## Negation and ranges -/

theorem Level.unary_continues : Level.unary.Continues = Level.suffixed.Continues := by
  funext token
  refine propext ⟨?_, continues_of_tighter rfl⟩
  intro h
  rcases continues_iff.mp h with hm | ⟨tighter, ht, hc⟩
  · cases hm
  · cases ht
    exact hc

theorem derives_unary_iff {ts : List Located} {e : Expr} : Derives .unary ts e ↔
    Derives .suffixed ts e ∨ ∃ line us a, ts = ⟨.symbol .minus, line⟩ :: us ∧ Derives .unary us a ∧
      e = .unary .negate a line := by
  constructor
  · intro h
    cases h with
    | tighten ht hd =>
      cases ht
      exact .inl hd
    | operation hm _ _ _ => cases hm
    | negate hd => exact .inr ⟨_, _, _, rfl, hd, rfl⟩
  · rintro (hd | ⟨line, us, a, rfl, hd, rfl⟩)
    · exact .tighten rfl hd
    · exact .negate hd

theorem derives_range_iff {ts : List Located} {e : Expr} : Derives .range ts e ↔
    Derives .logical ts e ∨ ∃ start line stop a b, ts = start ++ ⟨.symbol .colon, line⟩ :: stop ∧
      Derives .logical start a ∧ Derives .logical stop b ∧ e = .binary .range a b line := by
  constructor
  · intro h
    cases h with
    | tighten ht hd =>
      cases ht
      exact .inl hd
    | bounds ha hb => exact .inr ⟨_, _, _, _, _, rfl, ha, hb, rfl⟩
    | operation hm _ _ _ => cases hm
  · rintro (hd | ⟨start, line, stop, a, b, rfl, ha, hb, rfl⟩)
    · exact .tighten rfl hd
    · exact .bounds ha hb

theorem reads_nil {level : Level} {p : Parser Expr} {e : SyntaxError} (hp : p [] = .error e []) :
    Reads p (Derives level) level.Continues [] := by
  intro a rest
  rw [hp]
  constructor
  · intro h
    cases h
  · rintro ⟨used, hused, hd, -⟩
    obtain ⟨found, us, rfl, -⟩ := derives_starts hd
    cases hused

section
variable {expression : Parser Expr}

theorem unary_minus (b line : Nat) (ts : List Located) :
    Parser.unary expression (b + 1) (⟨.symbol .minus, line⟩ :: ts) =
      (Parser.unary expression b >>= fun a => pure (.unary .negate a line)) ts := rfl

theorem unary_other {ts : List Located} (h : ¬ Starts (· = .symbol .minus) ts) (b : Nat) :
    Parser.unary expression (b + 1) ts = Parser.suffixed expression b ts := by
  cases ts with
  | nil => rfl
  | cons found ts =>
    obtain ⟨token, line⟩ := found
    cases token with
    | symbol s => cases s <;> first | rfl | exact absurd rfl h
    | _ => rfl

variable {m : Nat}
  (hexp : ∀ ts, ts.length < m → Reads expression (Derives .range) Level.range.Continues ts)
include hexp

theorem unary_reads : ∀ (b : Nat) (ts : List Located), ts.length ≤ b → ts.length ≤ m →
    Reads (Parser.unary expression b) (Derives .unary) Level.unary.Continues ts := by
  intro b
  induction b with
  | zero =>
    intro ts hb _
    obtain rfl := List.eq_nil_of_length_eq_zero (Nat.le_zero.mp hb)
    exact reads_nil rfl
  | succ b ih =>
    intro ts hb hm e rest
    by_cases hs : Starts (· = .symbol .minus) ts
    · cases ts with
      | nil => cases hs
      | cons found ts =>
        obtain ⟨token, line⟩ := found
        have : token = .symbol .minus := hs
        subst this
        have hread := ih ts (Nat.le_of_succ_le_succ hb) (Nat.le_of_succ_le hm)
        rw [unary_minus, Parser.bind_eq_ok]
        constructor
        · rintro ⟨a, mid, ha, h⟩
          obtain ⟨rfl, rfl⟩ := Parser.pure_eq_ok.mp h
          obtain ⟨us, rfl, hd, hend⟩ := (hread a mid).mp ha
          exact ⟨⟨.symbol .minus, line⟩ :: us, rfl, .negate hd, hend⟩
        · rintro ⟨used, hused, hd, hend⟩
          rcases derives_unary_iff.mp hd with hd | ⟨line', us, a, rfl, ha, rfl⟩
          · obtain ⟨found, us, rfl, -, hne⟩ := derives_starts hd
            cases hused
            exact absurd rfl (hne (Nat.le_refl _))
          · cases hused
            exact ⟨a, rest, (hread a rest).mpr ⟨us, rfl, ha, hend⟩, by simp⟩
    · rw [unary_other hs, suffixed_reads hexp hb hm e rest, Level.unary_continues]
      constructor
      · rintro ⟨used, hused, hd, hend⟩
        exact ⟨used, hused, .tighten rfl hd, hend⟩
      · rintro ⟨used, hused, hd, hend⟩
        rcases derives_unary_iff.mp hd with hd | ⟨line, us, a, rfl, -, -⟩
        · exact ⟨used, hused, hd, hend⟩
        · rw [hused] at hs
          exact absurd rfl hs

theorem multiplicative_reads (ts : List Located) (hm : ts.length ≤ m) :
    Reads (Parser.multiplicative expression m) (Derives .multiplicative)
      Level.multiplicative.Continues ts :=
  chain_reads multiplicativeOp?_iff rfl rfl (fun ts hm => unary_reads hexp m ts hm hm) hm rfl

theorem additive_reads (ts : List Located) (hm : ts.length ≤ m) :
    Reads (Parser.additive expression m) (Derives .additive) Level.additive.Continues ts :=
  chain_reads additiveOp?_iff rfl rfl (multiplicative_reads hexp) hm rfl

theorem relational_reads (ts : List Located) (hm : ts.length ≤ m) :
    Reads (Parser.relational expression m) (Derives .relational) Level.relational.Continues ts :=
  chain_reads relationalOp?_iff rfl rfl (additive_reads hexp) hm rfl

theorem logical_reads (ts : List Located) (hm : ts.length ≤ m) :
    Reads (Parser.logical expression m) (Derives .logical) Level.logical.Continues ts :=
  chain_reads logicalOp?_iff rfl rfl (relational_reads hexp) hm rfl

end

/-- After a logical expression only a colon goes on with a range. -/
theorem not_starts_range {ts : List Located} (hs : ¬ Starts Level.logical.Continues ts)
    (hc : ¬ Starts (· = .symbol .colon) ts) : ¬ Starts Level.range.Continues ts := by
  cases ts with
  | nil => exact id
  | cons found ts =>
    intro h
    rcases Level.continues_iff.mp h with hm | ⟨tighter, ht, h⟩
    · exact hc (List.mem_singleton.mp hm)
    · cases ht
      exact hs h

theorem not_starts_logical {ts : List Located} (h : ¬ Starts Level.range.Continues ts) :
    ¬ Starts Level.logical.Continues ts ∧ ¬ Starts (· = .symbol .colon) ts := by
  cases ts with
  | nil => exact ⟨id, id⟩
  | cons found ts =>
    refine ⟨fun hs => h (Level.continues_of_tighter rfl hs), ?_⟩
    intro hc
    have hc : found.token = .symbol .colon := hc
    exact h (Level.continues_iff.mpr (.inl (by simp [hc, Level.joints])))

section
variable {expression : Parser Expr} {b : Nat}

theorem range_stops {ts mid : List Located} {start : Expr}
    (h : Parser.logical expression b ts = .ok start mid) (hc : ¬ Starts (· = .symbol .colon) mid) :
    Parser.range expression b ts = .ok start mid := by
  unfold Parser.range
  rw [Parser.bind_of_ok h]
  cases mid with
  | nil => rfl
  | cons found mid =>
    obtain ⟨token, line⟩ := found
    cases token with
    | symbol s => cases s <;> first | rfl | exact absurd rfl hc
    | _ => rfl

theorem range_bounds {ts mid rest : List Located} {start stop : Expr} {line : Nat}
    (h : Parser.logical expression b ts = .ok start (⟨.symbol .colon, line⟩ :: mid))
    (hstop : Parser.logical expression b mid = .ok stop rest)
    (hc : ¬ Starts (· = .symbol .colon) rest) :
    Parser.range expression b ts = .ok (.binary .range start stop line) rest := by
  unfold Parser.range
  rw [Parser.bind_of_ok h]
  refine (Parser.bind_of_ok hstop _).trans ?_
  cases rest with
  | nil => rfl
  | cons found rest =>
    obtain ⟨token, line⟩ := found
    cases token with
    | symbol s => cases s <;> first | rfl | exact absurd rfl hc
    | _ => rfl

theorem range_eq_ok {ts rest : List Located} {e : Expr} :
    Parser.range expression b ts = .ok e rest ↔ ¬ Starts (· = .symbol .colon) rest ∧
      (Parser.logical expression b ts = .ok e rest ∨
        ∃ start line mid stop,
          Parser.logical expression b ts = .ok start (⟨.symbol .colon, line⟩ :: mid) ∧
          Parser.logical expression b mid = .ok stop rest ∧ e = .binary .range start stop line) := by
  constructor
  · intro hr
    have h := hr
    unfold Parser.range at h
    rw [Parser.bind_eq_ok] at h
    obtain ⟨start, mid, hstart, h⟩ := h
    by_cases hc : Starts (· = .symbol .colon) mid
    · obtain ⟨line, mid, rfl⟩ := starts_token.mp hc
      replace h : (Parser.logical expression b >>= _) mid = .ok e rest := h
      obtain ⟨stop, mid', hstop, h⟩ := Parser.bind_eq_ok.mp h
      by_cases hc' : Starts (· = .symbol .colon) mid'
      · obtain ⟨again, mid', rfl⟩ := starts_token.mp hc'
        cases h
      · rw [range_bounds hstart hstop hc'] at hr
        cases hr
        exact ⟨hc', .inr ⟨start, line, mid, stop, hstart, hstop, rfl⟩⟩
    · rw [range_stops hstart hc] at hr
      cases hr
      exact ⟨hc, .inl hstart⟩
  · rintro ⟨hc, h | ⟨start, line, mid, stop, hstart, hstop, rfl⟩⟩
    · exact range_stops h hc
    · exact range_bounds hstart hstop hc

theorem range_reads
    (hexp : ∀ ts, ts.length < b → Reads expression (Derives .range) Level.range.Continues ts)
    {ts : List Located} (hb : ts.length ≤ b) :
    Reads (Parser.range expression b) (Derives .range) Level.range.Continues ts := by
  intro e rest
  rw [range_eq_ok]
  constructor
  · rintro ⟨hc, h | ⟨start, line, mid, stop, hstart, hstop, rfl⟩⟩
    · obtain ⟨us, rfl, hd, hend⟩ := (logical_reads hexp ts hb e rest).mp h
      exact ⟨us, rfl, .tighten rfl hd, not_starts_range hend hc⟩
    · obtain ⟨us, rfl, ha, -⟩ := (logical_reads hexp ts hb start _).mp hstart
      rw [List.length_append, List.length_cons] at hb
      obtain ⟨vs, rfl, hd, hend⟩ := (logical_reads hexp mid (by omega) stop rest).mp hstop
      exact ⟨us ++ ⟨.symbol .colon, line⟩ :: vs, by simp, .bounds ha hd, not_starts_range hend hc⟩
  · rintro ⟨used, rfl, hd, hend⟩
    obtain ⟨hl, hc⟩ := not_starts_logical hend
    refine ⟨hc, ?_⟩
    rcases derives_range_iff.mp hd with hd | ⟨us, line, vs, a, c, rfl, ha, hc', rfl⟩
    · exact .inl ((logical_reads hexp _ hb e rest).mpr ⟨used, rfl, hd, hl⟩)
    · rw [List.append_assoc, List.cons_append] at hb ⊢
      -- The colon between the bounds ends the first of them.
      have hcolon : ¬ Level.logical.Continues (.symbol .colon) :=
        @Level.not_continues_joint .range .logical rfl _ (List.mem_singleton.mpr rfl)
      refine .inr ⟨a, line, vs ++ rest, c, ?_, ?_, rfl⟩
      · exact (logical_reads hexp _ hb a _).mpr ⟨us, rfl, ha, hcolon⟩
      · rw [List.length_append, List.length_cons] at hb
        exact (logical_reads hexp _ (by omega) c rest).mpr ⟨vs, rfl, hc', hl⟩

end

/-! ## Expressions of each level -/

theorem expression_reads (n : Nat) : ∀ ts : List Located, ts.length < n + 1 →
    Reads (Parser.expression n) (Derives .range) Level.range.Continues ts := by
  induction n with
  | zero =>
    intro ts hn
    obtain rfl := List.eq_nil_of_length_eq_zero (Nat.lt_one_iff.mp hn)
    exact reads_nil rfl
  | succ n ih =>
    intro ts hn
    exact range_reads ih (Nat.le_of_lt_succ hn)

def Level.parser (level : Level) (n : Nat) : Parser Expr :=
  match level with
  | range => Parser.range (Parser.expression n) n
  | logical => Parser.logical (Parser.expression n) n
  | relational => Parser.relational (Parser.expression n) n
  | additive => Parser.additive (Parser.expression n) n
  | multiplicative => Parser.multiplicative (Parser.expression n) n
  | unary => Parser.unary (Parser.expression n) n
  | suffixed => Parser.suffixed (Parser.expression n) n
  | primary => Parser.primary (Parser.expression n) n

theorem level_reads (level : Level) (ts : List Located) :
    Reads (level.parser ts.length) (Derives level) level.Continues ts := by
  have hexp : ∀ us, us.length < ts.length →
      Reads (Parser.expression ts.length) (Derives .range) Level.range.Continues us :=
    fun us hu => expression_reads ts.length us (Nat.lt_succ_of_lt hu)
  have hle := Nat.le_refl ts.length
  cases level with
  | range => exact range_reads hexp hle
  | logical => exact logical_reads hexp ts hle
  | relational => exact relational_reads hexp ts hle
  | additive => exact additive_reads hexp ts hle
  | multiplicative => exact multiplicative_reads hexp ts hle
  | unary => exact unary_reads hexp ts.length ts hle hle
  | suffixed => exact suffixed_reads hexp (Nat.le_succ _) hle
  | primary => exact primary_reads hexp (Nat.le_succ _) hle

end MatrixScript
