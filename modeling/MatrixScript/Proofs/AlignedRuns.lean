import MatrixScript.Proofs.Alignment

/-!
# Runs of aligned programs

Checking a program does not keep all its operations from operands of different
shapes: a transposed vector has the type of a matrix of one row and is still a
vector. It does so where the operations are aligned. The values then have the
axes that checking finds, but for some of length one, and no run stops because
shapes do not match (`program_aligned`). This is for programs without `zeros` and
without subscripts: checking knows another shape of the one than it has, and only
the base of the other.
-/

namespace MatrixScript

/-! ## Types found by checking -/

section
variable {table : Table} {type : ArrayType}

theorem checkValue_result (e : Expr) : (e.checkValue table).result = e.type? table := by
  unfold Expr.checkValue Typing.need Expr.type?
  rw [Report.result_bind]
  cases (e.check table).result <;> rfl

theorem binary_type? {op : BinaryOp} (hop : op ≠ .subscript) {left right : Expr} {line : Nat}
    (h : (Expr.binary op left right line).type? table = some type) :
    ∃ leftType rightType, left.type? table = some leftType ∧ right.type? table = some rightType ∧
      (op.type leftType rightType line).result = some type := by
  have hrange : op ≠ .range := by
    rintro rfl
    unfold Expr.type? Expr.check at h
    cases h
  rw [Expr.type?, check_operation ⟨hrange, hop⟩, Report.result_bind, Report.result_bind,
    checkValue_result, checkValue_result] at h
  cases hl : left.type? table with
  | none => rw [hl] at h; cases h
  | some leftType =>
    cases hr : right.type? table with
    | none => rw [hl, hr] at h; cases h
    | some rightType =>
      rw [hl, hr] at h
      refine ⟨leftType, rightType, rfl, rfl, ?_⟩
      rw [Report.result_bind, Report.result_pure] at h
      cases ht : (op.type leftType rightType line).result with
      | none => rw [ht] at h; cases h
      | some found => rw [ht] at h; exact h

theorem unary_type? {op : UnaryOp} {operand : Expr} {line : Nat}
    (h : (Expr.unary op operand line).type? table = some type) :
    ∃ found, operand.type? table = some found ∧
      type = if op = .transpose then found.transpose else found := by
  unfold Expr.type? Expr.check at h
  have hfound : (Typing.need operand.line (operand.check table)).result = operand.type? table :=
    checkValue_result operand
  rw [Report.result_bind, hfound] at h
  cases hf : operand.type? table with
  | none => rw [hf] at h; cases h
  | some found =>
    rw [hf] at h
    refine ⟨found, rfl, ?_⟩
    cases op <;> (cases h; rfl)

theorem checkAll_cons (e : Expr) (es : List Expr) : (checkAll table (e :: es)).result =
    (e.type? table).bind fun type => (checkAll table es).result.map (type :: ·) := by
  rw [← checkValue_result, checkAll]
  rfl

/-- A vector has a type for no elements, or as many elements as they are of one type. -/
theorem vector_type? {elements : List Expr} {line : Nat}
    (h : (Expr.vector ⟨elements, line⟩).type? table = some type) :
    (checkAll table elements).result = some [] ∧ type = ⟨.real, [0]⟩ ∨
      ∃ n found, (checkAll table elements).result = some (List.replicate (n + 1) found) ∧
        type = ⟨found.base, (n + 1) :: found.shape⟩ := by
  unfold Expr.type? at h
  rw [Expr.check, Report.result_bind] at h
  cases hc : (checkAll table elements).result with
  | none => rw [hc] at h; cases h
  | some types =>
    rw [hc] at h
    cases types with
    | nil => cases h; exact .inl ⟨rfl, rfl⟩
    | cons first others =>
      dsimp only [vectorType] at h
      split at h
      · rename_i hall
        cases h
        have hrep : others = List.replicate others.length first :=
          List.eq_replicate_iff.mpr ⟨rfl, by simpa using hall⟩
        exact .inr ⟨others.length, first, by rw [List.replicate_succ, ← hrep], rfl⟩
      · cases h

theorem matrix_type? {rows : List Row} {line : Nat}
    (h : (Expr.matrix rows line).type? table = some type) :
    (checkRows table rows .start).result.valid = true ∧ ∃ base,
      type = ⟨base, [rows.length, (checkRows table rows .start).result.width.getD 0]⟩ := by
  unfold Expr.type? at h
  rw [Expr.check, Report.result_bind, Report.result_pure, RowsSummary.typing] at h
  split at h
  · rename_i hv
    cases h
    exact ⟨hv, _, rfl⟩
  · cases h

/-- A row above others that are all of one width has that width, too, and consists of scalars. -/
theorem checkRows_cons (hs : table.Shaped) {elements : List Expr} {line : Nat} {rows : List Row}
    {s : RowsSummary} (h : (checkRows table (⟨elements, line⟩ :: rows) s).result.valid = true) :
    ∃ base s', (checkRows table (⟨elements, line⟩ :: rows) s).result =
        (checkRows table rows s').result ∧
      (checkAll table elements).result =
        some (List.replicate ((checkRows table rows s').result.width.getD 0) (.scalar base)) := by
  have below : ∃ s', s' = (s.add (checkAll table elements).result line).result ∧
      (checkRows table (⟨elements, line⟩ :: rows) s).result = (checkRows table rows s').result :=
    ⟨_, rfl, by rw [checkRows]; rfl⟩
  obtain ⟨s', hs', hr⟩ := below
  rw [hr] at h
  obtain ⟨hvalid, -, hkeep, -⟩ := (checkRows_rules hs rows s').valid h
  cases hc : (checkAll table elements).result with
  | none =>
    rw [hs', hc] at hvalid
    cases hvalid
  | some types =>
    rw [hc] at hs'
    rcases s.add_rules types line with ⟨hv, -⟩ | ⟨s'', ha, -, -, hfits⟩
    · rw [hs', hv] at hvalid
      cases hvalid
    · rw [ha] at hs'
      subst hs'
      exact ⟨_, s', hr, congrArg some (hfits.eq_replicate hkeep)⟩

theorem sized_type? {function : Sized} {arguments : List Expr} {line : Nat}
    (h : (Expr.call (.sized function) arguments line).type? table = some type) :
    ∃ size argLine n, arguments = [.int size argLine] ∧ Integer.toSize? size = some n ∧
      type = ⟨.real, [n, n]⟩ := by
  unfold Expr.type? at h
  rw [Expr.check] at h
  cases hsize : sizeArgument? arguments with
  | none => rw [hsize] at h; cases h
  | some n =>
    rw [hsize] at h
    cases h
    unfold sizeArgument? at hsize
    split at hsize
    · exact ⟨_, _, n, rfl, hsize, rfl⟩
    · cases hsize

theorem Reports.of_result {α : Type} {ok : α → Prop} {r : Report (Option α)} (h : Reports ok r)
    {a : α} (hr : r.result = some a) : ok a := by
  cases h with
  | found ha => cases hr; exact ha
  | failed _ => cases hr

end

/-! ## The discipline -/

def Fault.isMismatch : Fault → Bool
  | atLine _ cause => cause.isMismatch
  | output _ => false

def Stop.isMismatch : Stop → Bool
  | fault f => f.isMismatch
  | outOfFuel => false

def Discipline.aligned (anywhere : Bool) : Discipline where
  toCondition := Condition.whole.and (.aligned anywhere)
  holds := ArrayType.Allows anywhere
  admits := fun stop => stop.isMismatch = false

section
variable {anywhere : Bool} {table : Table} {memory : Memory}

abbrev Eval.Allows (anywhere : Bool) (memory : Memory) (x : Eval (Option Value)) (type : ArrayType) :
    Prop :=
  (Discipline.aligned anywhere).Gives memory x fun v? => ∃ v, v? = some v ∧ type.Allows anywhere v

/-! ## Expressions -/

theorem operation_allows {op : BinaryOp} {left right : Expr} {leftType rightType type : ArrayType}
    (hop : op ≠ .subscript) (line : Nat) (ht : (op.type leftType rightType line).result = some type)
    (ha : op.aligned anywhere leftType rightType = true)
    (hl : Eval.Allows anywhere memory left.eval leftType)
    (hr : Eval.Allows anywhere memory right.eval rightType) :
    Eval.Allows anywhere memory (Expr.binary op left right line).eval type := by
  have hrange : op ≠ .range := by rintro rfl; cases ht
  rw [Expr.eval]
  refine (hl.need _).bind fun v hv => ?_
  rw [if_neg hop]
  refine (hr.need _).bind fun w hw => (Eval.givesOr_atLine ?_).value
  exact apply_allows ((type_reports op ⟨hrange, hop⟩ hv.1 hw.1 line).of_result ht).2 ha hv hw

theorem vector_allows {n : Nat} {type : ArrayType} {vs : List Value}
    (h : List.Forall₂ (ArrayType.Allows anywhere) (List.replicate (n + 1) type) vs) :
    ArrayType.Allows anywhere ⟨type.base, (n + 1) :: type.shape⟩ (.array vs) := by
  obtain ⟨hlen, hall⟩ := forall_of_replicate h
  have hshape : type.shape ≠ [] := by
    cases h with
    | cons hv _ => exact hv.1
  refine ⟨by simp, ?_⟩
  rw [axes_of_shape hshape]
  exact .inl ⟨vs, rfl, hlen, fun v hv => fits_shape (hall v hv).2⟩

mutual

theorem eval_allows (hm : (Discipline.aligned anywhere).Typed table memory) :
    ∀ {e : Expr} {type : ArrayType}, e.type? table = some type → e.whole = true →
      e.aligned anywhere table = true → Eval.Allows anywhere memory e.eval type
  | .int _ _, _, ht, _, _ => by
    cases ht
    exact Eval.givesOr_pure ⟨_, rfl, allows_scalar.mpr rfl⟩
  | .real _ _, _, ht, _, _ => by
    cases ht
    exact Eval.givesOr_pure ⟨_, rfl, allows_scalar.mpr rfl⟩
  | .str _ _, _, ht, _, _ => by
    cases ht
    exact Eval.givesOr_pure ⟨_, rfl, allows_scalar.mpr rfl⟩
  | .name spelling line, type, ht, _, _ => by
    unfold Expr.type? at ht
    rw [Expr.check] at ht
    cases hn : table.lookup? spelling with
    | none => rw [hn] at ht; cases ht
    | some found =>
      rw [hn] at ht
      cases ht
      exact (hm.lookup hn line).value
  | .vector ⟨elements, line⟩, type, ht, hw, ha => by
    rcases vector_type? ht with ⟨hc, rfl⟩ | ⟨n, found, hc, rfl⟩
    · refine (evalAll_allows hm hc hw ha).bind fun vs hvs => Eval.givesOr_pure ⟨_, rfl, by simp, ?_⟩
      cases hvs
      exact .inl ⟨[], rfl, rfl, by simp⟩
    · refine (evalAll_allows hm hc hw ha).bind fun vs hvs => ?_
      exact Eval.givesOr_pure ⟨_, rfl, vector_allows hvs⟩
  | .matrix rows line, type, ht, hw, ha => by
    obtain ⟨hv, base, rfl⟩ := matrix_type? ht
    refine (evalRows_allows hm hv hw ha).bind fun vs hvs => Eval.givesOr_pure ⟨_, rfl, by simp, ?_⟩
    rw [axes_of_shape (by simp)]
    exact .inl ⟨vs, rfl, hvs.1, fun v hv => .inl (hvs.2 v hv)⟩
  | .call .print arguments line, _, ht, _, _ => by
    unfold Expr.type? at ht
    rw [Expr.check] at ht
    cases ht
  | .call (.sized function) arguments line, type, ht, hw, _ => by
    obtain ⟨size, argLine, n, rfl, hn, rfl⟩ := sized_type? ht
    rw [Expr.whole, Bool.and_eq_true, bne_iff_ne] at hw
    have hf : function ≠ .zeros := fun h => hw.1 (by rw [h])
    exact (Eval.givesOr_build (build_allows hf hn)).value
  | .binary op left right line, type, ht, hw, ha => by
    simp only [Expr.whole, Bool.and_eq_true, bne_iff_ne] at hw
    obtain ⟨leftType, rightType, hl, hr, htype⟩ := binary_type? hw.1.1 ht
    simp only [Expr.aligned, hl, hr, Bool.and_eq_true, Option.all_some] at ha
    exact operation_allows hw.1.1 line htype ha.2 (eval_allows hm hl hw.1.2 ha.1.1)
      (eval_allows hm hr hw.2 ha.1.2)
  | .unary .negate operand line, type, ht, hw, ha => by
    obtain ⟨found, hf, rfl⟩ := unary_type? ht
    refine ((eval_allows hm hf hw ha).need _).bind fun v hv => ?_
    exact (Eval.givesOr_atLine (negate_allows hv)).value
  | .unary .transpose operand line, type, ht, hw, ha => by
    obtain ⟨found, hf, rfl⟩ := unary_type? ht
    simp only [Expr.aligned, hf, Bool.and_eq_true, Option.all_some] at ha
    refine ((eval_allows hm hf hw ha.1).need _).bind fun v hv => ?_
    exact (Eval.givesOr_atLine (transpose_allows ha.2 hv)).value

theorem evalAll_allows (hm : (Discipline.aligned anywhere).Typed table memory) :
    ∀ {es : List Expr} {types : List ArrayType}, (checkAll table es).result = some types →
      allWhole es = true → allAligned anywhere table es = true →
      (Discipline.aligned anywhere).Gives memory (evalAll es)
        (List.Forall₂ (ArrayType.Allows anywhere) types)
  | [], _, hc, _, _ => by
    cases hc
    exact Eval.givesOr_pure .nil
  | e :: es, types, hc, hw, ha => by
    rw [allWhole, Bool.and_eq_true] at hw
    rw [allAligned, Bool.and_eq_true] at ha
    rw [checkAll_cons, Option.bind_eq_some_iff] at hc
    obtain ⟨type, ht, hc⟩ := hc
    obtain ⟨rest, hrest, rfl⟩ := Option.map_eq_some_iff.mp hc
    refine ((eval_allows hm ht hw.1 ha.1).need _).bind fun v hv => ?_
    refine (evalAll_allows hm hrest hw.2 ha.2).bind fun vs hvs => ?_
    exact Eval.givesOr_pure (.cons hv hvs)

theorem evalRows_allows (hm : (Discipline.aligned anywhere).Typed table memory) :
    ∀ {rows : List Row} {s : RowsSummary}, (checkRows table rows s).result.valid = true →
      rowsWhole rows = true → rowsAligned anywhere table rows = true →
      (Discipline.aligned anywhere).Gives memory (evalRows rows) fun vs => vs.length = rows.length ∧
        ∀ v ∈ vs, Value.ArrayOf ((checkRows table rows s).result.width.getD 0) (·.isArray = false) v
  | [], _, _, _, _ => Eval.givesOr_pure ⟨rfl, fun _ hv => by cases hv⟩
  | ⟨elements, line⟩ :: rows, s, hv, hw, ha => by
    rw [rowsWhole, Bool.and_eq_true] at hw
    rw [rowsAligned, Bool.and_eq_true] at ha
    obtain ⟨base, s', hr, hc⟩ := checkRows_cons (hm.shaped fun h => h.1) hv
    rw [hr] at hv ⊢
    refine (evalAll_allows hm hc hw.1 ha.1).bind fun vs hvs => ?_
    refine (evalRows_allows hm hv hw.2 ha.2).bind fun arrays harrays => ?_
    refine Eval.givesOr_pure ⟨by rw [List.length_cons, List.length_cons, harrays.1], ?_⟩
    obtain ⟨hlen, hscalars⟩ := forall_of_replicate hvs
    exact List.forall_mem_cons.mpr
      ⟨⟨vs, rfl, hlen, fun v hv => allows_scalar.mp (hscalars v hv)⟩, harrays.2⟩

end

theorem print_aligns (hm : (Discipline.aligned anywhere).Typed table memory) {arguments : List Expr}
    {types : List ArrayType} (hc : (checkAll table arguments).result = some types)
    (hw : allWhole arguments = true) (ha : allAligned anywhere table arguments = true) (line : Nat) :
    (Discipline.aligned anywhere).Gives memory (Expr.call .print arguments line).eval
      fun _ => True := by
  rw [Expr.eval]
  refine (evalAll_allows hm hc hw ha).bind fun vs _ => ?_
  exact (Eval.givesOr_writeAll (fun _ => rfl) _).bind fun _ _ => Eval.givesOr_pure trivial

theorem eval_aligns (hm : (Discipline.aligned anywhere).Typed table memory) {e : Expr}
    (hw : e.whole = true) (ha : e.aligned anywhere table = true)
    (h : (e.check table).diagnostics = []) :
    (Discipline.aligned anywhere).Gives memory e.eval fun _ => True := by
  have hs := hm.shaped fun h => h.1
  have hrules := check_rules hs e
  generalize hr : e.check table = r at hrules h
  cases hrules with
  | @known type _ _ =>
    have ht : e.type? table = some type := by rw [Expr.type?, hr]; rfl
    exact (eval_allows hm ht hw ha).imp fun _ _ => trivial
  | unknown hd => exact absurd h hd
  | @void arguments line _ he _ =>
    subst he
    rw [Expr.whole, Bool.and_eq_true] at hw
    rw [Expr.check] at hr
    have hclean : (checkAll table arguments).diagnostics = [] := by
      have hd := congrArg Report.diagnostics hr
      rw [Report.diagnostics_bind, h] at hd
      exact (List.append_eq_nil_iff.mp hd).1
    obtain ⟨types, hc, -⟩ := (checkAll_rules hs arguments).clean hclean
    exact print_aligns hm (by rw [hc]) hw.2 ha line

/-! ## Runs -/

theorem Discipline.aligned_sound (anywhere : Bool) : (Discipline.aligned anywhere).Sound where
  shaped := fun h => h.1
  iterator := fun _ => allows_scalar.mpr rfl
  outOfFuel := rfl
  output := fun _ => rfl
  expected := fun _ cause hc => by
    simp only [List.mem_cons, List.not_mem_nil, or_false] at hc
    rcases hc with rfl | rfl <;> rfl
  bounds := fun {table left right line} h => by
    simp only [aligned, Condition.and_expr, Condition.whole, Condition.aligned, Expr.whole,
      Expr.aligned, Bool.and_eq_true] at h ⊢
    exact ⟨⟨h.1.1.2, h.2.1.1⟩, h.1.2, h.2.1.2⟩
  eval := fun hm he h => by
    obtain ⟨hw, ha⟩ := Bool.and_eq_true_iff.mp he
    exact eval_aligns hm hw ha h
  value := fun {table memory e type} hm he hr => by
    obtain ⟨hw, ha⟩ := Bool.and_eq_true_iff.mp he
    have ht : e.type? table = some type := by rw [← checkValue_result, hr]
    exact (eval_allows hm ht hw ha).need e.line
  combine := fun {table op name nameLine type v w} hp hn hv hw _ => by
    rw [aligned, Condition.and_place, Bool.and_eq_true] at hp
    have ha := hp.2
    refine combine_allows ?_ hv hw
    simp only [Condition.aligned] at ha
    cases hb : op.binary? with
    | none => rfl
    | some binary => simpa [hb, hn] using ha
  element := fun hp => by
    rw [aligned, Condition.and_place, Bool.and_eq_true] at hp
    cases hp.1

end

/-- **Shapes match.** No run of a checked program without `zeros` and subscripts stops because
shapes do not match, if its operations are aligned, in either of the two ways. -/
theorem program_aligned (anywhere : Bool) (fuel : Nat) {p : Program} (hchecked : checkProgram p = [])
    (hwhole : stmtsMeet .whole p .fresh = true)
    (haligned : stmtsMeet (.aligned anywhere) p .fresh = true) (sink : Sink)
    (allocator : Allocator) :
    Ends (Exec.program fuel p ⟨.fresh, sink, allocator⟩) (fun _ _ => True) fun stop _ =>
      ∀ line left right, stop ≠ .fault (.atLine line (.shapeMismatch left right)) := by
  have hmeets : stmtsMeet (Discipline.aligned anywhere).toCondition p .fresh = true := by
    rw [Discipline.aligned, stmtsMeet_and, hwhole, haligned]
    rfl
  refine (Discipline.program_simulates (Discipline.aligned_sound anywhere) fuel hmeets hchecked sink
    allocator).mono (fun _ _ _ => trivial) ?_
  rintro stop m ⟨-, hstop⟩ line left right rfl
  cases hstop

/-- `a = [1, 2; 3, 4; 5, 6]; v = [7, 8]; b = a' * a; for (i = 0:3) { b *= b; v += v; } s = v' * v;` -/
def gramPowers : Program :=
  [.assign (.name "a" 1) .set (.matrix [⟨[.int 1 1, .int 2 1], 1⟩, ⟨[.int 3 1, .int 4 1], 1⟩,
      ⟨[.int 5 1, .int 6 1], 1⟩] 1) 1,
    .assign (.name "v" 2) .set (.vector ⟨[.int 7 2, .int 8 2], 2⟩) 2,
    .assign (.name "b" 3) .set
      (.binary .mul (.unary .transpose (.name "a" 3) 3) (.name "a" 3) 3) 3,
    .forLoop "i" (.binary .range (.int 0 4) (.int 3 4) 4)
      [.assign (.name "b" 5) .mul (.name "b" 5) 5, .assign (.name "v" 6) .add (.name "v" 6) 6] 4,
    .assign (.name "s" 7) .set
      (.binary .mul (.unary .transpose (.name "v" 7) 7) (.name "v" 7) 7) 7]

theorem gramPowers_aligned : checkProgram gramPowers = [] ∧
    stmtsMeet .whole gramPowers .fresh = true ∧
    stmtsMeet (.aligned true) gramPowers .fresh = true ∧
    ∀ sink allocator, Ends (Exec.program 0 gramPowers ⟨.fresh, sink, allocator⟩) (fun _ _ => True)
      fun stop _ => ∀ line left right, stop ≠ .fault (.atLine line (.shapeMismatch left right)) := by
  have hchecked : checkProgram gramPowers = [] := by decide
  have hwhole : stmtsMeet .whole gramPowers .fresh = true := by decide
  have haligned : stmtsMeet (.aligned true) gramPowers .fresh = true := by decide
  exact ⟨hchecked, hwhole, haligned, @program_aligned true 0 gramPowers hchecked hwhole haligned⟩

/-- `x = [1, 2]' + [[3, 4]];` A vector stays as it is when it is transposed, while its type becomes
that of a matrix of one row. -/
def turnedRow : Program :=
  [.assign (.name "x" 1) .set (.binary .add
    (.unary .transpose (.vector ⟨[.int 1 1, .int 2 1], 1⟩) 1)
    (.matrix [⟨[.int 3 1, .int 4 1], 1⟩] 1) 1) 1]

theorem turnedRow_mismatch : checkProgram turnedRow = [] ∧
    stmtsMeet .whole turnedRow .fresh = true ∧
    Exec.program 0 turnedRow .unlimited =
      .error (.fault (.atLine 1 (.shapeMismatch [2] [1, 2]))) .unlimited := by
  refine ⟨by decide, by decide, ?_⟩
  rfl

end MatrixScript
