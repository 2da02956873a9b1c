import MatrixScript.Proofs.Evaluation
import MatrixScript.Proofs.Matrices

/-!
# Shapes of matrix expressions

Checking computes shapes without values, and evaluation computes values without
types. On expressions of numbers and matrices the two agree: what has a type
evaluates to a number or to a matrix of just this shape and base, unless an
integer overflows or a size is refused (`eval_describes`).
-/

namespace MatrixScript

def Fault.isLimit : Fault → Bool
  | atLine _ cause => cause.isLimit
  | output _ => false

/-- What a type says of a number, or of a matrix that is not empty. -/
inductive ArrayType.Describes : ArrayType → Value → Prop
  | number {base v} : base.kind.isNumeric = true → v.kind = base.kind →
      Describes (.scalar base) v
  | matrix {base m n v} : base.kind.isNumeric = true → 1 ≤ m → 1 ≤ n → v.shape = .ok [m, n] →
      (∀ leaf ∈ v.leaves, leaf.kind = base.kind) → Describes ⟨base, [m, n]⟩ v

def Table.Describes (table : Table) (memory : Memory) : Prop :=
  ∀ name type, table.lookup? name = some type →
    ∃ v, memory.lookup? name = some v ∧ type.Describes v

/-! ## Matrix expressions -/

def Expr.hasTwoAxes (table : Table) (e : Expr) : Bool :=
  (e.check table).result.type?.any (·.shape.length == 2)

mutual

/-- Numbers, names, matrices without an empty row, square matrices of a literal
size, and the operators that keep to these: products only of what has two axes. -/
def Expr.isPure (table : Table) : Expr → Bool
  | .int _ _ => true
  | .real _ _ => true
  | .name _ _ => true
  | .matrix rows _ => !rows.isEmpty && rowsPure table rows
  | .call (.sized function) [.int size _] _ => function != .zeros && decide (1 ≤ size.toInt)
  | .unary _ operand _ => operand.isPure table
  | .binary op left right _ =>
    ([.add, .sub, .dotAdd, .dotSub, .dotMul].contains op ||
        op == .mul && left.hasTwoAxes table && right.hasTwoAxes table) &&
      left.isPure table && right.isPure table
  | _ => false

def allPure (table : Table) : List Expr → Bool
  | [] => true
  | e :: es => e.isPure table && allPure table es

def rowsPure (table : Table) : List Row → Bool
  | [] => true
  | ⟨elements, _⟩ :: rows => !elements.isEmpty && allPure table elements && rowsPure table rows

end

section
variable {type : ArrayType} {base : BaseType} {m n : Nat} {v w : Value}

/-! ## Described values -/

theorem BaseType.kind_ne_array (base : BaseType) : base.kind ≠ .array := by
  cases base <;> simp [BaseType.kind]

theorem describes_number : (ArrayType.scalar base).Describes v ↔
    base.kind.isNumeric = true ∧ v.kind = base.kind := by
  constructor
  · intro h
    generalize ht : ArrayType.scalar base = type at h
    cases h with
    | number hb hv => cases ht; exact ⟨hb, hv⟩
    | matrix => cases ht
  · rintro ⟨hb, hv⟩
    exact .number hb hv

theorem describes_matrix : ArrayType.Describes ⟨base, [m, n]⟩ v ↔
    base.kind.isNumeric = true ∧ 1 ≤ m ∧ 1 ≤ n ∧ Value.IsMatrix base.kind m n v := by
  constructor
  · intro h
    cases h with
    | matrix hb hm hn hs hl =>
      exact ⟨hb, hm, hn, (Value.isMatrix_iff base.kind_ne_array hm hn).mpr ⟨hs, hl⟩⟩
  · rintro ⟨hb, hm, hn, hv⟩
    obtain ⟨hs, hl⟩ := (Value.isMatrix_iff base.kind_ne_array hm hn).mp hv
    exact .matrix hb hm hn hs hl

theorem ArrayType.Describes.number_or_matrix (h : type.Describes v) :
    (∃ base, type = .scalar base ∧ base.kind.isNumeric = true ∧ v.kind = base.kind) ∨
      ∃ base m n, type = ⟨base, [m, n]⟩ ∧ base.kind.isNumeric = true ∧ 1 ≤ m ∧ 1 ≤ n ∧
        Value.IsMatrix base.kind m n v := by
  cases h with
  | number hb hv => exact .inl ⟨_, rfl, hb, hv⟩
  | matrix hb hm hn hs hl =>
    exact .inr ⟨_, _, _, rfl, describes_matrix.mp (.matrix hb hm hn hs hl)⟩

/-- A value shows whether it is a matrix, so its types agree on that. -/
theorem ArrayType.Describes.axes {type' : ArrayType} (h : type.Describes v)
    (h' : type'.Describes v) : type.shape.length = type'.shape.length := by
  obtain ⟨base, rfl, -, hv⟩ | ⟨_, _, _, rfl, -, -, -, hv⟩ := h.number_or_matrix
  · obtain ⟨_, rfl, -, -⟩ | ⟨_, _, _, rfl, -, -, -, _, rfl, -⟩ := h'.number_or_matrix
    · rfl
    · exact absurd hv.symm base.kind_ne_array
  · obtain ⟨base, rfl, -, hv'⟩ | ⟨_, _, _, rfl, -⟩ := h'.number_or_matrix
    · obtain ⟨_, rfl, -⟩ := hv
      exact absurd hv'.symm base.kind_ne_array
    · rfl

theorem eq_matrix_of_axes (h : type.Describes v) (hl : type.shape.length = 2) :
    ∃ base m n, type = ⟨base, [m, n]⟩ := by
  obtain ⟨base, rfl, -⟩ | ⟨base, m, n, rfl, -⟩ := h.number_or_matrix
  · simp [ArrayType.scalar] at hl
  · exact ⟨base, m, n, rfl⟩

/-! ## Operators -/

theorem zipLeaves_numbers {op : BinaryOp} {k : ValueKind}
    (hop : op.arithmetic? ∈ [some .add, some .sub, some .mul]) (hk : k.isNumeric = true)
    (a b : Value) (ha : a.kind = k) (hb : b.kind = k) :
    Limited (Value.zipLeaves (Value.arithmetic op) a b) (·.kind = k) := by
  rw [Value.zipLeaves_scalar _ (Value.isArray_of_numeric hk ha),
    Value.mapLeaves_scalar _ (Value.isArray_of_numeric hk hb)]
  exact Value.arithmetic_limited hop hk ha hb

theorem BinaryOp.Types.elementwise {op : BinaryOp} {left right : ArrayType}
    (h : op.Types left right type) (hop : op ∈ [.add, .sub, .dotAdd, .dotSub, .dotMul]) :
    left = type ∧ right = type := by
  cases h with
  | same _ => exact ⟨rfl, rfl⟩
  | product => simp at hop
  | compare hm => cases op <;> simp at hop hm
  | logic hm => cases op <;> simp at hop hm

theorem apply_describes {op : BinaryOp} (hop : op ∈ [.add, .sub, .dotAdd, .dotSub, .dotMul])
    (hv : type.Describes v) (hw : type.Describes w) : Limited (op.apply v w) type.Describes := by
  have harith : op.arithmetic? ∈ [some .add, some .sub, some .mul] := by
    cases op <;> simp_all [BinaryOp.arithmetic?]
  have happly : op.apply v w = Value.zipLeaves (Value.arithmetic op) v w := by
    cases op <;> first | rfl | simp at hop
  rw [happly]
  obtain ⟨base, rfl, hb, hv⟩ | ⟨base, m, n, rfl, hb, hm, hn, hv⟩ := hv.number_or_matrix
  · have hw := (describes_number.mp hw).2
    exact (zipLeaves_numbers harith hb v w hv hw).imp fun _ hc => .number hb hc
  · have hw := (describes_matrix.mp hw).2.2.2
    have zipped := Value.zipLeaves_arrayOf
      (fun _ _ => Value.zipLeaves_arrayOf (zipLeaves_numbers harith hb)) hv hw
    exact zipped.imp fun _ hc => describes_matrix.mpr ⟨hb, hm, hn, hc⟩

theorem product_describes {left right : ArrayType} (h : BinaryOp.Types .mul left right type)
    (hl : left.shape.length = 2) (hr : right.shape.length = 2) (hv : left.Describes v)
    (hw : right.Describes w) : Limited (BinaryOp.mul.apply v w) type.Describes := by
  obtain ⟨base, m, k, rfl⟩ := eq_matrix_of_axes hv hl
  obtain ⟨base', k', n, rfl⟩ := eq_matrix_of_axes hw hr
  cases h with
  | same hm => simp at hm
  | product hm hk hk' hn =>
    cases hm
    cases hk
    cases hk'
    cases hn
    obtain ⟨hb, hm, hk, hv⟩ := describes_matrix.mp hv
    obtain ⟨-, -, hn, hw⟩ := describes_matrix.mp hw
    have harray : (v.isArray && w.isArray) = true := by
      obtain ⟨_, rfl, -⟩ := hv
      obtain ⟨_, rfl, -⟩ := hw
      rfl
    rw [BinaryOp.apply, if_pos harray]
    exact (Value.product_isMatrix hb hm hk hn hv hw).imp
      fun _ hc => describes_matrix.mpr ⟨hb, hm, hn, hc⟩

theorem negate_describes (hv : type.Describes v) : Limited v.negate type.Describes := by
  have number : ∀ {k : ValueKind}, k.isNumeric = true → ∀ a : Value, a.kind = k →
      Limited (Value.mapLeaves Value.negateLeaf a) (·.kind = k) := by
    intro k hk a ha
    rw [Value.mapLeaves_scalar _ (Value.isArray_of_numeric hk ha)]
    exact Value.negateLeaf_limited hk ha
  obtain ⟨base, rfl, hb, hv⟩ | ⟨base, m, n, rfl, hb, hm, hn, hv⟩ := hv.number_or_matrix
  · exact (number hb v hv).imp fun _ hc => .number hb hc
  · have mapped := Value.mapLeaves_arrayOf (fun _ => Value.mapLeaves_arrayOf (number hb)) hv
    exact mapped.imp fun _ hc => describes_matrix.mpr ⟨hb, hm, hn, hc⟩

theorem transpose_describes (hv : type.Describes v) :
    Limited v.transpose type.transpose.Describes := by
  obtain ⟨base, rfl, hb, hv⟩ | ⟨base, m, n, rfl, hb, hm, hn, hv⟩ := hv.number_or_matrix
  · rw [Value.transpose_scalar (Value.isArray_of_numeric hb hv)]
    exact ArrayType.Describes.number hb hv
  · exact (Value.transpose_isMatrix base.kind_ne_array hm hn hv).imp
      fun _ hc => describes_matrix.mpr ⟨hb, hn, hm, hc⟩

theorem build_describes {function : Sized} (hf : function ≠ .zeros) {size : Int64}
    (hs : 1 ≤ size.toInt) (hn : Integer.toSize? size = some n) (allocator : Allocator) :
    Limited (function.build allocator [.int size]) (ArrayType.Describes ⟨.real, [n, n]⟩) := by
  have hpos : 1 ≤ n := by
    unfold Integer.toSize? at hn
    split at hn
    · cases hn
      omega
    · cases hn
  have read : Limited (Value.int size).toInteger (· = size) := rfl
  unfold Sized.build
  refine read.bind fun found hfound => ?_
  rw [hfound, hn]
  dsimp only
  split
  · exact describes_matrix.mpr ⟨rfl, hpos, hpos, Value.ofSize_isMatrix hf n⟩
  · rfl

end

/-! ## Expressions -/

section
variable {table : Table} {memory : Memory}

abbrev Eval.Shows (memory : Memory) (x : Eval (Option Value)) (type : ArrayType) : Prop :=
  x.GivesOr (·.isLimit = true) memory fun v? => ∃ v, v? = some v ∧ type.Describes v

theorem Table.Describes.shaped (h : table.Describes memory) : table.Shaped := by
  intro name type hn
  obtain ⟨v, -, hv⟩ := h name type hn
  cases hv with
  | number => exact scalar_shape _
  | matrix => simp

theorem hasType_of_check (hs : table.Shaped) {e : Expr} {type : ArrayType}
    (h : (e.check table).result = .known type) : HasType table e type := by
  have hrules := check_rules hs e
  generalize e.check table = r at h hrules
  cases hrules with
  | known _ ht => cases h; exact ht
  | unknown _ => cases h
  | void _ _ => cases h

theorem hasType_of_twoAxes (hs : table.Shaped) {e : Expr} (h : e.hasTwoAxes table = true) :
    ∃ type, HasType table e type ∧ type.shape.length = 2 := by
  unfold Expr.hasTwoAxes at h
  cases hc : (e.check table).result with
  | known type =>
    rw [hc] at h
    exact ⟨type, hasType_of_check hs hc, by simpa [Typing.type?] using h⟩
  | unknown => rw [hc] at h; cases h
  | void => rw [hc] at h; cases h

theorem Eval.Shows.twoAxes {x : Eval (Option Value)} {type type' : ArrayType} (h : x.Shows memory type)
    (h' : x.Shows memory type') (hlen : type'.shape.length = 2) : x.GivesOr (·.isLimit = true) memory
      fun v? => ∃ v, v? = some v ∧ type.Describes v ∧ type.shape.length = 2 := by
  refine (h.and h').imp ?_
  rintro _ ⟨⟨v, rfl, hv⟩, w, hw, hv'⟩
  cases hw
  exact ⟨v, rfl, hv, (hv.axes hv').trans hlen⟩

theorem operation_describes {op : BinaryOp} (hop : op ≠ .subscript) {left right : Expr}
    {okLeft okRight : Value → Prop} {type : ArrayType}
    (hl : left.eval.GivesOr (·.isLimit = true) memory fun v? => ∃ v, v? = some v ∧ okLeft v)
    (hr : right.eval.GivesOr (·.isLimit = true) memory fun v? => ∃ v, v? = some v ∧ okRight v)
    (h : ∀ v w, okLeft v → okRight w → Limited (op.apply v w) type.Describes) (line : Nat) :
    (Expr.binary op left right line).eval.Shows memory type := by
  rw [Expr.eval]
  refine (hl.need _).bind fun v hv => ?_
  rw [if_neg hop]
  refine (hr.need _).bind fun w hw => ?_
  exact (Eval.givesOr_atLine (h v w hv hw)).value

theorem call_describes {function : Builtin} {arguments : List Expr} {line : Nat} {type : ArrayType}
    (h : HasType table (.call function arguments line) type)
    (hp : (Expr.call function arguments line).isPure table = true) :
    (Expr.call function arguments line).eval.Shows memory type := by
  cases h with
  | sized hn =>
    simp only [Expr.isPure, Bool.and_eq_true, bne_iff_ne, decide_eq_true_eq] at hp
    exact (Eval.givesOr_build (build_describes hp.1 hp.2 hn)).value

/-- The rows of a matrix literal, its entries described one by one. -/
theorem rows_describe {base : BaseType} {m n : Nat} (hm : 1 ≤ m) (hn : 1 ≤ n) {v : Value}
    (h : Value.ArrayOf m (Value.ArrayOf n (ArrayType.scalar base).Describes) v) :
    ArrayType.Describes ⟨base, [m, n]⟩ v := by
  have numbers : Value.IsMatrix base.kind m n v :=
    h.mono fun _ hrow => hrow.mono fun _ hentry => (describes_number.mp hentry).2
  obtain ⟨rows, rfl, rfl, hrows⟩ := h
  obtain ⟨entries, -, rfl, hentries⟩ := hrows rows[0] (List.getElem_mem hm)
  have hb := (describes_number.mp (hentries entries[0] (List.getElem_mem hn))).1
  exact describes_matrix.mpr ⟨hb, hm, hn, numbers⟩

theorem rowsPure_width {base : BaseType} {width : Nat} {rows : List Row} (hne : rows ≠ [])
    (hp : rowsPure table rows = true) (h : HaveRows table base width rows) : 1 ≤ width := by
  cases h with
  | nil => exact absurd rfl hne
  | cons hts _ =>
    simp only [rowsPure, Bool.and_eq_true, Bool.not_eq_true', List.isEmpty_eq_false_iff] at hp
    have hlen := hts.length
    rw [List.length_replicate] at hlen
    rw [hlen]
    exact List.length_pos_iff.mpr hp.1.1

mutual

-- By induction on the expression and not on its type: the operands of a product
-- are also evaluated at the types that checking finds for them.
theorem eval_describes (ha : table.Describes memory) : ∀ {e : Expr} {type : ArrayType},
    HasType table e type → e.isPure table = true → e.eval.Shows memory type
  | .int _ _, _, h, _ => by
    cases h
    exact Eval.givesOr_pure ⟨_, rfl, .number rfl rfl⟩
  | .real _ _, _, h, _ => by
    cases h
    exact Eval.givesOr_pure ⟨_, rfl, .number rfl rfl⟩
  | .str _ _, _, _, hp => by cases hp
  | .vector _, _, _, hp => by cases hp
  | .name spelling _, _, h, _ => by
    cases h with
    | name hn =>
      obtain ⟨v, hv, hd⟩ := ha _ _ hn
      exact (Eval.givesOr_lookup hv hd _).value
  | .matrix rows _, _, h, hp => by
    rw [Expr.isPure, Bool.and_eq_true, Bool.not_eq_true', List.isEmpty_eq_false_iff] at hp
    cases h with
    | matrix hrows =>
      refine (evalRows_describes ha hrows hp.2).bind fun vs hvs => ?_
      have hwidth := rowsPure_width hp.1 hp.2 hrows
      refine Eval.givesOr_pure ⟨_, rfl, rows_describe (List.length_pos_iff.mpr hp.1) hwidth ?_⟩
      exact ⟨vs, rfl, hvs⟩
  | .call _ _ _, _, h, hp => call_describes h hp
  | .binary op left right _, _, h, hp => by
    simp only [Expr.isPure, Bool.and_eq_true, Bool.or_eq_true, List.contains_iff_mem,
      beq_iff_eq] at hp
    obtain ⟨⟨hop, hpl⟩, hpr⟩ := hp
    cases h with
    | element => simp at hop
    | binary hl hr ht =>
      have left_shows := eval_describes ha hl hpl
      have right_shows := eval_describes ha hr hpr
      rcases hop with hop | ⟨⟨rfl, hl2⟩, hr2⟩
      · obtain ⟨rfl, rfl⟩ := ht.elementwise hop
        exact operation_describes ht.ne_subscript left_shows right_shows
          (fun v w hv hw => apply_describes hop hv hw) _
      · obtain ⟨leftType', hl', hll⟩ := hasType_of_twoAxes ha.shaped hl2
        obtain ⟨rightType', hr', hrl⟩ := hasType_of_twoAxes ha.shaped hr2
        have left_axes := left_shows.twoAxes (eval_describes ha hl' hpl) hll
        have right_axes := right_shows.twoAxes (eval_describes ha hr' hpr) hrl
        exact operation_describes ht.ne_subscript left_axes right_axes
          (fun v w hv hw => product_describes ht hv.2 hw.2 hv.1 hw.1) _
  | .unary op operand _, _, h, hp => by
    cases h with
    | negate ho =>
      refine ((eval_describes ha ho hp).need _).bind fun v hv => ?_
      exact (Eval.givesOr_atLine (negate_describes hv)).value
    | transpose ho =>
      refine ((eval_describes ha ho hp).need _).bind fun v hv => ?_
      exact (Eval.givesOr_atLine (transpose_describes hv)).value

theorem evalAll_describes (ha : table.Describes memory) : ∀ {es : List Expr}
    {types : List ArrayType}, HaveTypes table es types → allPure table es = true →
    (evalAll es).GivesOr (·.isLimit = true) memory (List.Forall₂ ArrayType.Describes types)
  | [], _, h, _ => by
    cases h
    exact Eval.givesOr_pure .nil
  | e :: es, _, h, hp => by
    rw [allPure, Bool.and_eq_true] at hp
    cases h with
    | cons he hes =>
      refine ((eval_describes ha he hp.1).need _).bind fun v hv => ?_
      refine (evalAll_describes ha hes hp.2).bind fun vs hvs => ?_
      exact Eval.givesOr_pure (.cons hv hvs)

theorem evalRows_describes (ha : table.Describes memory) {base : BaseType} {width : Nat} :
    ∀ {rows : List Row}, HaveRows table base width rows → rowsPure table rows = true →
    (evalRows rows).GivesOr (·.isLimit = true) memory fun vs => vs.length = rows.length ∧
      ∀ v ∈ vs, Value.ArrayOf width (ArrayType.scalar base).Describes v
  | [], _, _ => Eval.givesOr_pure ⟨rfl, fun _ hv => by cases hv⟩
  | ⟨elements, _⟩ :: rows, h, hp => by
    rw [rowsPure, Bool.and_eq_true, Bool.and_eq_true] at hp
    cases h with
    | cons hts hrows =>
      refine (evalAll_describes ha hts hp.1.2).bind fun vs hvs => ?_
      refine (evalRows_describes ha hrows hp.2).bind fun arrays harrays => ?_
      refine Eval.givesOr_pure ⟨by rw [List.length_cons, List.length_cons, harrays.1], ?_⟩
      exact List.forall_mem_cons.mpr ⟨⟨vs, rfl, forall_of_replicate hvs⟩, harrays.2⟩

end

/-- **Shapes.** In a table that describes the memory, a matrix expression with a
type evaluates to a value that the type describes, or an integer overflows or a
size is too large; there is no other way to fail. -/
theorem eval_shape {m : Machine} (ha : table.Describes m.memory) {e : Expr}
    (hp : e.isPure table = true) {type : ArrayType} (hc : (e.check table).result = .known type) :
    Ends (e.eval m) (fun v? _ => ∃ v, v? = some v ∧ type.Describes v)
      fun fault _ => ∃ line, fault = .atLine line .overflow ∨
        ∃ function size, fault = .atLine line (.sizeTooLarge function size) := by
  refine (eval_describes ha (hasType_of_check ha.shaped hc) hp m rfl).mono (fun _ _ h => h.2) ?_
  rintro fault _ ⟨-, hlimit⟩
  cases fault with
  | output _ => cases hlimit
  | atLine line cause =>
    cases cause with
    | overflow => exact ⟨line, .inl rfl⟩
    | sizeTooLarge function size => exact ⟨line, .inr ⟨function, size, rfl⟩⟩
    | _ => cases hlimit

end

theorem Table.Describes.fresh : Table.Describes .fresh .fresh := fun _ _ h => by cases h

theorem Table.Describes.bind {table : Table} {memory : Memory} (h : table.Describes memory)
    {type : ArrayType} {v : Value} (hv : type.Describes v) (name : String) :
    Table.Describes (table.bind name type) (memory.bind name v) := by
  intro key found hfound
  rw [Scope.lookup?_bind] at hfound ⊢
  split at hfound
  · rename_i hkey
    cases hfound
    exact ⟨v, if_pos hkey, hv⟩
  · rename_i hkey
    rw [if_neg hkey]
    exact h key found hfound

def sixNumbers : Value :=
  .array [.array [.int 1, .int 2, .int 3], .array [.int 4, .int 5, .int 6]]

/-- `-(a * a') + [1, 2; 3, 4]` -/
def gramSum : Expr :=
  .binary .add
    (.unary .negate (.binary .mul (.name "a" 1) (.unary .transpose (.name "a" 1) 1) 1) 1)
    (.matrix [⟨[.int 1 1, .int 2 1], 1⟩, ⟨[.int 3 1, .int 4 1], 1⟩] 1) 1

theorem gramSum_shape :
    let table : Table := Scope.fresh.bind "a" ⟨.int, [2, 3]⟩
    let memory : Memory := Scope.fresh.bind "a" sixNumbers
    table.Describes memory ∧ gramSum.isPure table = true ∧
    (gramSum.check table).result = .known ⟨.int, [2, 2]⟩ ∧
    ∀ sink allocator, ∃ v m', gramSum.eval ⟨memory, sink, allocator⟩ = .ok (some v) m' ∧
      ArrayType.Describes ⟨.int, [2, 2]⟩ v := by
  intro table memory
  have hsix : ArrayType.Describes ⟨.int, [2, 3]⟩ sixNumbers := by
    refine .matrix rfl (by decide) (by decide) rfl ?_
    simp [sixNumbers, Value.leaves, Value.allLeaves, Value.kind, BaseType.kind]
  have hmemory : table.Describes memory := Table.Describes.fresh.bind hsix "a"
  have hpure : gramSum.isPure table = true := by decide
  have hcheck : (gramSum.check table).result = .known ⟨.int, [2, 2]⟩ := by decide
  refine ⟨hmemory, hpure, hcheck, fun sink allocator => ?_⟩
  have hshape := @eval_shape table ⟨memory, sink, allocator⟩ hmemory gramSum hpure _ hcheck
  have hvalue : ∃ v, gramSum.eval ⟨memory, sink, allocator⟩ = .ok (some v) ⟨memory, sink, allocator⟩ :=
    ⟨_, rfl⟩
  obtain ⟨v, hv⟩ := hvalue
  rw [hv] at hshape
  obtain ⟨_, hsome, hd⟩ := hshape
  cases hsome
  exact ⟨v, _, hv, hd⟩

end MatrixScript
