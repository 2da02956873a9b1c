import MatrixScript.Proofs.ScopeLemmas
import MatrixScript.Typing.Expr

/-!
# Typing rules

`HasType table e type` is what the check of an expression comes to when nothing
is reported, as rules. `check_rules` says that it is: a type is only found along
the rules, and whatever has none is reported. This rests on the types in the
table having an axis each, since a product of others would fail in silence.
-/

namespace MatrixScript

/-! ## Rules -/

inductive BinaryOp.Types : BinaryOp → ArrayType → ArrayType → ArrayType → Prop
  | same {op type} :
      op ∈ [add, sub, dotAdd, dotSub, dotMul, dotDiv, equal, notEqual] → Types op type type type
  | product {base m k n left right} : left.head? = some m → left.getLast? = some k →
      right.head? = some k → right.getLast? = some n → Types mul ⟨base, left⟩ ⟨base, right⟩ ⟨base, [m, n]⟩
  | compare {op left right} : op ∈ [div, greater, greaterEqual, less, lessEqual] →
      Types op (.scalar left) (.scalar right) (.scalar .bool)
  | logic {op} : op ∈ [and, or, xor] → Types op (.scalar .bool) (.scalar .bool) (.scalar .bool)

mutual

inductive HasType (table : Table) : Expr → ArrayType → Prop
  | int {value line} : HasType table (.int value line) (.scalar .int)
  | real {value line} : HasType table (.real value line) (.scalar .real)
  | str {literal line} : HasType table (.str literal line) (.scalar .str)
  | name {spelling line type} : table.lookup? spelling = some type →
      HasType table (.name spelling line) type
  | emptyVector {line} : HasType table (.vector ⟨[], line⟩) ⟨.real, [0]⟩
  | vector {elements line type n} : HaveTypes table elements (List.replicate (n + 1) type) →
      HasType table (.vector ⟨elements, line⟩) ⟨type.base, (n + 1) :: type.shape⟩
  | matrix {rows line base width} : HaveRows table base width rows →
      HasType table (.matrix rows line) ⟨base, [rows.length, width]⟩
  | sized {function size argLine line n} : Integer.toSize? size = some n →
      HasType table (.call (.sized function) [.int size argLine] line) ⟨.real, [n, n]⟩
  | element {array arrayLine indices indicesLine line type types} :
      table.lookup? array = some type → HaveTypes table indices types →
      HasType table (.binary .subscript (.name array arrayLine) (.vector ⟨indices, indicesLine⟩) line)
        (.scalar type.base)
  | binary {op left right line leftType rightType type} : HasType table left leftType →
      HasType table right rightType → op.Types leftType rightType type →
      HasType table (.binary op left right line) type
  | negate {operand line type} : HasType table operand type →
      HasType table (.unary .negate operand line) type
  | transpose {operand line type} : HasType table operand type →
      HasType table (.unary .transpose operand line) type.transpose

inductive HaveTypes (table : Table) : List Expr → List ArrayType → Prop
  | nil : HaveTypes table [] []
  | cons {e es type types} : HasType table e type → HaveTypes table es types →
      HaveTypes table (e :: es) (type :: types)

/-- Rows of scalars, all of this base and this many each. -/
inductive HaveRows (table : Table) : BaseType → Nat → List Row → Prop
  | nil {base width} : HaveRows table base width []
  | cons {base width elements line rows} :
      HaveTypes table elements (List.replicate width (.scalar base)) →
      HaveRows table base width rows → HaveRows table base width (⟨elements, line⟩ :: rows)

end

theorem BinaryOp.Types.ne_subscript {op : BinaryOp} {left right type : ArrayType}
    (h : op.Types left right type) : op ≠ .subscript := by
  rintro rfl
  cases h with
  | same hm => simp at hm
  | compare hm => simp at hm
  | logic hm => simp at hm

theorem HaveTypes.length {table : Table} {es : List Expr} :
    ∀ {types : List ArrayType}, HaveTypes table es types → types.length = es.length
  | _, .nil => rfl
  | _, .cons _ hes => by rw [List.length_cons, List.length_cons, HaveTypes.length hes]

/-! ## Reports -/

@[simp] theorem result_report (issue : Issue) (line : Nat) : (report issue line).result = () := rfl

@[simp] theorem diagnostics_report (issue : Issue) (line : Nat) :
    (report issue line).diagnostics = [⟨issue, line⟩] := rfl

@[simp] theorem bind_clean {α β : Type} (a : α) (next : α → Report β) :
    (Report.mk a [] >>= next) = next a := rfl

inductive Reports {α : Type} (ok : α → Prop) : Report (Option α) → Prop
  | found {a} : ok a → Reports ok ⟨some a, []⟩
  | failed {ds} : ds ≠ [] → Reports ok ⟨none, ds⟩

theorem Reports.eq {α : Type} {ok : α → Prop} {r : Report (Option α)} (h : Reports ok r) :
    (∃ a, ok a ∧ r = ⟨some a, []⟩) ∨ ∃ ds, ds ≠ [] ∧ r = ⟨none, ds⟩ := by
  cases h with
  | found ha => exact .inl ⟨_, ha, rfl⟩
  | failed hd => exact .inr ⟨_, hd, rfl⟩

theorem Reports.clean {α : Type} {ok : α → Prop} {r : Report (Option α)} (h : Reports ok r)
    (hd : r.diagnostics = []) : ∃ a, r = ⟨some a, []⟩ ∧ ok a := by
  cases h with
  | found ha => exact ⟨_, rfl, ha⟩
  | failed hne => exact absurd hd hne

inductive Checked (table : Table) (e : Expr) : Report Typing → Prop
  | known {type} : type.shape ≠ [] → HasType table e type → Checked table e ⟨.known type, []⟩
  | unknown {ds} : ds ≠ [] → Checked table e ⟨.unknown, ds⟩
  | void {arguments line ds} : e = .call .print arguments line →
      (ds = [] → ∃ types, HaveTypes table arguments types) → Checked table e ⟨.void, ds⟩

def Table.Shaped (table : Table) : Prop :=
  ∀ name type, table.lookup? name = some type → type.shape ≠ []

section
variable {table : Table}

theorem Checked.need {e : Expr} {r : Report Typing} (h : Checked table e r) (line : Nat) :
    Reports (fun type => type.shape ≠ [] ∧ HasType table e type) (Typing.need line r) := by
  cases h with
  | known hs ht => exact .found ⟨hs, ht⟩
  | unknown hd => exact .failed (List.append_ne_nil_of_left_ne_nil hd _)
  | void _ _ => exact .failed (List.append_ne_nil_of_right_ne_nil _ (by simp))

theorem Checked.clean {e : Expr} {r : Report Typing} (h : Checked table e r)
    (hd : r.diagnostics = []) : (∃ type, HasType table e type) ∨
      ∃ arguments line types, e = .call .print arguments line ∧ HaveTypes table arguments types := by
  cases h with
  | known _ ht => exact .inl ⟨_, ht⟩
  | unknown hne => exact absurd hd hne
  | void he ht =>
    obtain ⟨types, ht⟩ := ht hd
    exact .inr ⟨_, _, types, he, ht⟩

theorem isScalar_iff {type : ArrayType} : type.isScalar = true ↔ type = .scalar type.base := by
  obtain ⟨base, shape⟩ := type
  simp [ArrayType.isScalar, ArrayType.scalar]

theorem isScalarOf_iff {type : ArrayType} {base : BaseType} :
    type.isScalarOf base = true ↔ type = .scalar base := by
  obtain ⟨base', shape⟩ := type
  simp [ArrayType.isScalarOf, ArrayType.isScalar, ArrayType.scalar]

theorem scalar_shape (base : BaseType) : (ArrayType.scalar base).shape ≠ [] := by
  simp [ArrayType.scalar]

/-! ## Operators -/

theorem productType_reports {left right : ArrayType} (hl : left.shape ≠ []) (hr : right.shape ≠ [])
    (line : Nat) : Reports (fun type => type.shape ≠ [] ∧ BinaryOp.Types .mul left right type)
      (productType left right line) := by
  obtain ⟨base, shape⟩ := left
  obtain ⟨base', shape'⟩ := right
  unfold productType
  split
  · rename_i hb
    have hb : base = base' := hb
    subst hb
    obtain ⟨m, hm⟩ := Option.isSome_iff_exists.mp (List.isSome_head?.mpr hl)
    obtain ⟨k', hk'⟩ := Option.isSome_iff_exists.mp (List.isSome_head?.mpr hr)
    have hk := List.getLast?_eq_some_getLast hl
    have hn := List.getLast?_eq_some_getLast hr
    dsimp only at hm hk hk' hn ⊢
    rw [hm, hk, hk', hn]
    dsimp only
    split
    · rename_i hkk
      subst hkk
      exact .found ⟨by simp, .product hm hk hk' hn⟩
    · exact .failed (by simp)
  · exact .failed (by simp)

theorem type_reports (op : BinaryOp) (hop : op ≠ .range ∧ op ≠ .subscript) {left right : ArrayType}
    (hl : left.shape ≠ []) (hr : right.shape ≠ []) (line : Nat) :
    Reports (fun type => type.shape ≠ [] ∧ op.Types left right type) (op.type left right line) := by
  cases op with
  | range => exact absurd rfl hop.1
  | subscript => exact absurd rfl hop.2
  | mul => exact productType_reports hl hr line
  | add | sub | dotAdd | dotSub | dotMul | dotDiv | equal | notEqual =>
    rw [BinaryOp.type]
    split
    · rename_i h
      subst h
      exact .found ⟨hl, .same (by simp)⟩
    · exact .failed (by simp)
  | div | greater | greaterEqual | less | lessEqual =>
    rw [BinaryOp.type]
    split
    · exact .failed (by simp)
    · rename_i h
      simp only [List.find?_eq_none, List.mem_cons, List.not_mem_nil, or_false, Bool.not_eq_true,
        Bool.not_eq_false', forall_eq_or_imp, forall_eq] at h
      rw [isScalar_iff.mp h.1, isScalar_iff.mp h.2]
      exact .found ⟨scalar_shape _, .compare (by simp)⟩
  | and | or | xor =>
    rw [BinaryOp.type]
    split
    · exact .failed (by simp)
    · rename_i h
      simp only [List.find?_eq_none, List.mem_cons, List.not_mem_nil, or_false, Bool.not_eq_true,
        Bool.not_eq_false', forall_eq_or_imp, forall_eq] at h
      rw [isScalarOf_iff.mp h.1, isScalarOf_iff.mp h.2]
      exact .found ⟨scalar_shape _, .logic (by simp)⟩

/-! ## Literals -/

theorem vectorType_checked {elements : List Expr} {types : List ArrayType}
    (h : HaveTypes table elements types) (line : Nat) :
    Checked table (.vector ⟨elements, line⟩) (vectorType types line) := by
  cases h with
  | nil => exact .known (by simp) .emptyVector
  | @cons e es first others he hes =>
    rw [vectorType]
    split
    · rename_i hall
      have hrep : others = List.replicate others.length first :=
        List.eq_replicate_iff.mpr ⟨rfl, by simpa using hall⟩
      refine .known (by simp) (.vector (n := others.length) ?_)
      rw [List.replicate_succ, ← hrep]
      exact .cons he hes
    · exact .unknown (by simp)

namespace RowsSummary

/-- What the rows have in common is still so further on. -/
structure Keeps (s s' : RowsSummary) : Prop where
  base : ∀ b, s.base = some b → s'.base = some b
  width : ∀ n, s.width = some n → s'.width = some n

theorem Keeps.trans {s s' s'' : RowsSummary} (h₁ : s.Keeps s') (h₂ : s'.Keeps s'') : s.Keeps s'' :=
  ⟨fun b h => h₂.base b (h₁.base b h), fun n h => h₂.width n (h₁.width n h)⟩

structure Fits (s : RowsSummary) (types : List ArrayType) : Prop where
  width : s.width = some types.length
  scalars : types ≠ [] → ∃ b, s.base = some b ∧ ∀ t ∈ types, t = .scalar b

theorem Fits.eq_replicate {s s' : RowsSummary} {types : List ArrayType} (h : s.Fits types)
    (hk : s.Keeps s') :
    types = List.replicate (s'.width.getD 0) (.scalar (s'.base.getD .real)) := by
  rw [hk.width _ h.width, Option.getD_some]
  refine List.eq_replicate_iff.mpr ⟨rfl, fun t ht => ?_⟩
  obtain ⟨b, hb, hall⟩ := h.scalars (List.ne_nil_of_mem ht)
  rw [hk.base b hb, Option.getD_some]
  exact hall t ht

theorem add_rules (s : RowsSummary) (types : List ArrayType) (line : Nat) :
    ((s.add (some types) line).result.valid = false ∧ (s.add (some types) line).diagnostics ≠ []) ∨
      ∃ s', s.add (some types) line = ⟨s', []⟩ ∧ s'.valid = s.valid ∧ s.Keeps s' ∧ s'.Fits types := by
  rw [add]
  dsimp only
  split
  · rename_i hscalars
    split
    · rename_i hfit
      simp only [Bool.and_eq_true, beq_iff_eq, List.all_eq_true] at hfit hscalars
      refine .inr ⟨_, rfl, rfl, ⟨fun b hb => ?_, fun n hn => ?_⟩, ⟨congrArg some hfit.2, fun hne => ?_⟩⟩
      · show (s.base <|> _) = some b
        rw [hb]; rfl
      · show some (s.width.getD _) = some n
        rw [hn]; rfl
      · obtain ⟨first, others, rfl⟩ := List.exists_cons_of_ne_nil hne
        refine ⟨first.base, hfit.1 first List.mem_cons_self, fun t ht => ?_⟩
        have hb := (hfit.1 t ht).symm.trans (hfit.1 first List.mem_cons_self)
        rw [isScalar_iff.mp (hscalars t ht), Option.some.inj hb]
    · exact .inl ⟨rfl, by simp⟩
  · exact .inl ⟨rfl, by simp⟩

end RowsSummary

structure RowsChecked (table : Table) (rows : List Row) (s : RowsSummary) (r : Report RowsSummary) :
    Prop where
  valid : r.result.valid = true → s.valid = true ∧ r.diagnostics = [] ∧ s.Keeps r.result ∧
    HaveRows table (r.result.base.getD .real) (r.result.width.getD 0) rows
  invalid : r.result.valid = false → s.valid = true → r.diagnostics ≠ []

theorem RowsChecked.cons {elements : List Expr} {line : Nat} {rows : List Row} {s : RowsSummary}
    (h : Reports (HaveTypes table elements) (checkAll table elements))
    (hrows : ∀ s', RowsChecked table rows s' (checkRows table rows s')) :
    RowsChecked table (⟨elements, line⟩ :: rows) s (checkRows table (⟨elements, line⟩ :: rows) s) := by
  rw [checkRows]
  rcases h.eq with ⟨types, ht, hr⟩ | ⟨ds, hd, hr⟩
  · rw [hr]
    show RowsChecked _ _ _ (s.add (some types) line >>= checkRows table rows)
    rcases s.add_rules types line with ⟨hv, hd⟩ | ⟨s', ha, hv, hk, hf⟩
    · have h' := hrows (s.add (some types) line).result
      refine ⟨fun hvalid => ?_, fun _ _ => List.append_ne_nil_of_left_ne_nil hd _⟩
      rw [(h'.valid hvalid).1] at hv
      cases hv
    · rw [ha]
      show RowsChecked _ _ _ (checkRows table rows s')
      refine ⟨fun hvalid => ?_, fun hinvalid hs => (hrows s').invalid hinvalid (hv.trans hs)⟩
      obtain ⟨hs, hnone, hkeep, hrest⟩ := (hrows s').valid hvalid
      refine ⟨hv.symm.trans hs, hnone, hk.trans hkeep, .cons ?_ hrest⟩
      rw [← hf.eq_replicate hkeep]
      exact ht
  · rw [hr]
    have h' := hrows { s with valid := false }
    refine ⟨fun hvalid => ?_, fun _ _ => List.append_ne_nil_of_left_ne_nil hd _⟩
    cases (h'.valid hvalid).1

theorem RowsChecked.matrix {rows : List Row}
    (h : RowsChecked table rows .start (checkRows table rows .start)) (line : Nat) :
    Checked table (.matrix rows line) ((Expr.matrix rows line).check table) := by
  rw [Expr.check]
  obtain ⟨hvalid, hinvalid⟩ := h
  generalize checkRows table rows .start = r at hvalid hinvalid
  obtain ⟨s, ds⟩ := r
  show Checked _ _ ⟨s.typing rows.length, ds ++ []⟩
  rw [List.append_nil, RowsSummary.typing]
  split
  · rename_i hv
    obtain ⟨-, hd, -, hrows⟩ := hvalid hv
    have hd : ds = [] := hd
    subst hd
    exact .known (by simp) (.matrix hrows)
  · rename_i hv
    exact .unknown (hinvalid (by simpa using hv) rfl)

/-! ## Expressions -/

/-- The check of an operator that is neither a subscript nor a range. -/
theorem check_operation {op : BinaryOp} (hop : op ≠ .range ∧ op ≠ .subscript) (table : Table)
    (left right : Expr) (line : Nat) : (Expr.binary op left right line).check table = (do
      let leftType ← left.checkValue table
      let rightType ← right.checkValue table
      match leftType, rightType with
      | some leftType, some rightType => return .ofType? (← op.type leftType rightType line)
      | _, _ => return .unknown) := by
  rw [Expr.check]
  · rfl
  · exact hop.2
  · exact hop.1

theorem operation_checked {op : BinaryOp} (hop : op ≠ .range ∧ op ≠ .subscript) {left right : Expr}
    (hl : Checked table left (left.check table)) (hr : Checked table right (right.check table))
    (line : Nat) :
    Checked table (.binary op left right line) ((Expr.binary op left right line).check table) := by
  have hl : Reports _ (left.checkValue table) := hl.need left.line
  have hr : Reports _ (right.checkValue table) := hr.need right.line
  rw [check_operation hop]
  rcases hl.eq with ⟨leftType, ⟨hls, hlt⟩, hle⟩ | ⟨ds, hd, hle⟩
  · rcases hr.eq with ⟨rightType, ⟨hrs, hrt⟩, hre⟩ | ⟨ds, hd, hre⟩
    · rw [hle, hre, bind_clean, bind_clean]
      dsimp only
      rcases (type_reports op hop hls hrs line).eq with ⟨type, ⟨hts, ht⟩, hte⟩ | ⟨ds, hd, hte⟩
      · rw [hte]
        exact .known hts (.binary hlt hrt ht)
      · rw [hte]
        exact .unknown (by simpa using hd)
    · rw [hle, hre]
      exact .unknown (by simpa using hd)
  · rw [hle]
    cases right.checkValue table with
    | mk rightType ds' => exact .unknown (List.append_ne_nil_of_left_ne_nil hd _)

theorem element_checked {array : String} {arrayLine : Nat} {indices : List Expr}
    {indicesLine : Nat} (h : Reports (HaveTypes table indices) (checkAll table indices)) (line : Nat) :
    Checked table (.binary .subscript (.name array arrayLine) (.vector ⟨indices, indicesLine⟩) line)
      (do
        let types ← checkAll table indices
        return .ofType? (← elementType table array types.isSome line)) := by
  rcases h.eq with ⟨types, ht, hr⟩ | ⟨ds, hd, hr⟩
  · rw [hr, bind_clean, elementType]
    split
    · rename_i type hn
      exact .known (scalar_shape _) (.element hn ht)
    · exact .unknown (by simp)
  · rw [hr]
    unfold elementType
    split
    · exact .unknown (List.append_ne_nil_of_left_ne_nil hd _)
    · exact .unknown (List.append_ne_nil_of_left_ne_nil hd _)

mutual

theorem check_rules (hs : table.Shaped) : ∀ e : Expr, Checked table e (e.check table)
  | .int value line => .known (scalar_shape _) .int
  | .real value line => .known (scalar_shape _) .real
  | .str literal line => .known (scalar_shape _) .str
  | .name spelling line => by
    rw [Expr.check]
    split
    · rename_i type hn
      exact .known (hs spelling type hn) (.name hn)
    · exact .unknown (by simp)
  | .vector ⟨elements, line⟩ => by
    rw [Expr.check]
    rcases (checkAll_rules hs elements).eq with ⟨types, ht, hr⟩ | ⟨ds, hd, hr⟩
    · rw [hr]
      exact vectorType_checked ht line
    · rw [hr]
      exact .unknown (by simpa using hd)
  | .matrix rows line => RowsChecked.matrix (checkRows_rules hs rows .start) line
  | .call .print arguments line => by
    rw [Expr.check]
    refine .void rfl fun hd => ?_
    rcases (checkAll_rules hs arguments).eq with ⟨types, ht, hr⟩ | ⟨ds, hd', hr⟩
    · exact ⟨types, ht⟩
    · rw [hr] at hd
      exact absurd hd (by simpa using hd')
  | .call (.sized function) arguments line => by
    rw [Expr.check]
    split
    · rename_i size hsize
      unfold sizeArgument? at hsize
      split at hsize
      · exact .known (by simp) (.sized hsize)
      · cases hsize
    · exact .unknown (by simp)
  | .binary op left right line => by
    have operation := fun hop : op ≠ .range ∧ op ≠ .subscript =>
      operation_checked hop (check_rules hs left) (check_rules hs right) line
    cases op with
    | subscript =>
      unfold Expr.check
      dsimp only
      split
      · rename_i array indices indicesLine hn
        cases left with
        | name spelling arrayLine =>
          cases hn
          exact element_checked (checkAll_rules hs indices) line
        | _ => cases hn
      · exact .unknown (by simp)
    | range =>
      unfold Expr.check
      exact .unknown (by simp)
    | _ => exact operation (by simp)
  | .unary op operand line => by
    rw [Expr.check]
    rcases ((check_rules hs operand).need operand.line).eq with ⟨type, ⟨hsh, ht⟩, hr⟩ | ⟨ds, hd, hr⟩
    · rw [hr]
      cases op with
      | negate => exact .known hsh (.negate ht)
      | transpose => exact .known (by simpa [ArrayType.transpose] using hsh) (.transpose ht)
    · rw [hr]
      exact .unknown (by simpa using hd)

theorem checkAll_rules (hs : table.Shaped) : ∀ es : List Expr,
    Reports (HaveTypes table es) (checkAll table es)
  | [] => .found .nil
  | e :: es => by
    rw [checkAll]
    rcases ((check_rules hs e).need e.line).eq with ⟨type, ⟨hsh, ht⟩, hr⟩ | ⟨ds, hd, hr⟩
    · rw [hr]
      rcases (checkAll_rules hs es).eq with ⟨types, hts, hr'⟩ | ⟨ds, hd, hr'⟩
      · rw [hr']
        exact .found (.cons ht hts)
      · rw [hr']
        exact .failed (by simpa using hd)
    · rw [hr]
      exact .failed (List.append_ne_nil_of_left_ne_nil hd _)

theorem checkRows_rules (hs : table.Shaped) : ∀ (rows : List Row) (s : RowsSummary),
    RowsChecked table rows s (checkRows table rows s)
  | [], s => ⟨fun hv => ⟨hv, rfl, ⟨fun _ h => h, fun _ h => h⟩, .nil⟩, fun hv hs => by
      have hv : s.valid = false := hv
      rw [hs] at hv; cases hv⟩
  | ⟨elements, line⟩ :: rows, s => .cons (checkAll_rules hs elements) (checkRows_rules hs rows)

end

end

end MatrixScript
