import MatrixScript.Proofs.Axes
import MatrixScript.Proofs.Discipline

/-!
# Aligned operations

An operation whose operands have the types that checking asks for can still find
their shapes to be different, since a value may be without axes of length one
that its type has. `BinaryOp.aligned` and `ArrayType.turnable` say of which types
this cannot happen. There are two ways to rule it out: values may be without
such axes anywhere, and are combined element by element only where that does no
harm; or values are without them only at the end, and are transposed only where
that keeps them there.
-/

namespace MatrixScript

/-! ## Conditions on programs -/

def Expr.type? (table : Table) (e : Expr) : Option ArrayType := (e.check table).result.type?

/-- Factors of at most two axes whose product has the shape that checking finds: one is a
scalar, or the sum is over more than one term, or all axes have length one. -/
def multipliable (left right : List Nat) : Bool :=
  match left, right with
  | [1], right => decide (right.length ≤ 2)
  | left, [1] => decide (left.length ≤ 2)
  | [m, k], [k', n] => k == k' && (decide (2 ≤ k) && decide (1 ≤ m) || m == 1 && k == 1 && n == 1)
  | _, _ => false

/-- Operands of these types meet element by element, or as the factors of a product. -/
def BinaryOp.aligned (anywhere : Bool) (op : BinaryOp) (left right : ArrayType) : Bool :=
  match op with
  | mul => multipliable left.shape right.shape
  | _ => !anywhere || decide (left.shape.Pairwise fun m n => m = 1 → n = 1)

def ArrayType.turnable (anywhere : Bool) (type : ArrayType) : Bool :=
  decide (0 ∉ type.shape.dropLast) &&
    (anywhere || decide (type.shape.getLast? ≠ some 1) || decide (∀ n ∈ type.shape, n = 1))

mutual

def Expr.aligned (anywhere : Bool) (table : Table) : Expr → Bool
  | .vector ⟨elements, _⟩ => allAligned anywhere table elements
  | .matrix rows _ => rowsAligned anywhere table rows
  | .call _ arguments _ => allAligned anywhere table arguments
  | .binary op left right _ =>
    left.aligned anywhere table && right.aligned anywhere table &&
      (left.type? table).all fun leftType =>
        (right.type? table).all fun rightType => op.aligned anywhere leftType rightType
  | .unary .negate operand _ => operand.aligned anywhere table
  | .unary .transpose operand _ =>
    operand.aligned anywhere table && (operand.type? table).all (·.turnable anywhere)
  | _ => true

def allAligned (anywhere : Bool) (table : Table) : List Expr → Bool
  | [] => true
  | e :: es => e.aligned anywhere table && allAligned anywhere table es

def rowsAligned (anywhere : Bool) (table : Table) : List Row → Bool
  | [] => true
  | ⟨elements, _⟩ :: rows => allAligned anywhere table elements && rowsAligned anywhere table rows

end

mutual

def Expr.whole : Expr → Bool
  | .vector ⟨elements, _⟩ => allWhole elements
  | .matrix rows _ => rowsWhole rows
  | .call function arguments _ => function != .sized .zeros && allWhole arguments
  | .binary op left right _ => op != .subscript && left.whole && right.whole
  | .unary _ operand _ => operand.whole
  | _ => true

def allWhole : List Expr → Bool
  | [] => true
  | e :: es => e.whole && allWhole es

def rowsWhole : List Row → Bool
  | [] => true
  | ⟨elements, _⟩ :: rows => allWhole elements && rowsWhole rows

end

def Condition.whole : Condition where
  expr := fun _ e => e.whole
  place := fun _ _ target =>
    match target with
    | .name _ _ => true
    | .element _ _ _ => false
    | .invalid e => e.whole

def Condition.aligned (anywhere : Bool) : Condition where
  expr := fun table e => e.aligned anywhere table
  place := fun table op target =>
    match op.binary?, target with
    | some binary, .name spelling _ =>
      (table.lookup? spelling).all fun type => binary.aligned anywhere type type
    | _, _ => true

/-! ## Axes of types -/

/-- The axes that a value of the type has, apart from those of length one. A scalar has none. -/
def ArrayType.axes (type : ArrayType) : List Nat := if type.isScalar then [] else type.shape

section
variable {anywhere : Bool} {type left right : ArrayType} {base : BaseType} {v w : Value}

theorem axes_of_shape {n : Nat} {rest : List Nat} (h : rest ≠ []) :
    ArrayType.axes ⟨base, n :: rest⟩ = n :: rest := by
  obtain ⟨next, rest, rfl⟩ := List.exists_cons_of_ne_nil h
  simp [ArrayType.axes, ArrayType.isScalar]

theorem eq_scalar_or_axes (type : ArrayType) :
    type = .scalar type.base ∨ type.shape ≠ [1] ∧ type.axes = type.shape := by
  by_cases h : type.isScalar = true
  · exact .inl (isScalar_iff.mp h)
  · refine .inr ⟨?_, by rw [ArrayType.axes, if_neg h]⟩
    rwa [ArrayType.isScalar, beq_iff_eq] at h

/-- A value of some type, as the element of an array. -/
theorem fits_shape (h : v.Fits anywhere type.axes) : v.Fits anywhere type.shape := by
  rcases eq_scalar_or_axes type with hs | ⟨-, ha⟩
  · rw [hs] at h ⊢
    exact .inr ⟨rfl, .inr (by simp), h⟩
  · rwa [ha] at h

theorem multipliable_cases {left right : List Nat} (h : multipliable left right = true) :
    left = [1] ∧ right.length ≤ 2 ∨ right = [1] ∧ left.length ≤ 2 ∨
      ∃ m k n, left = [m, k] ∧ right = [k, n] ∧ (2 ≤ k ∧ 1 ≤ m ∨ m = 1 ∧ k = 1 ∧ n = 1) := by
  unfold multipliable at h
  split at h
  · exact .inl ⟨rfl, of_decide_eq_true h⟩
  · exact .inr (.inl ⟨rfl, of_decide_eq_true h⟩)
  · simp only [Bool.and_eq_true, Bool.or_eq_true, beq_iff_eq, decide_eq_true_eq] at h
    obtain ⟨rfl, h⟩ := h
    exact .inr (.inr ⟨_, _, _, rfl, rfl, h.imp_right fun h => ⟨h.1.1, h.1.2, h.2⟩⟩)
  · cases h

/-! ## Operators on aligned operands -/

theorem comparison_aligns (op : BinaryOp) (a b : Value) :
    Aligns (Value.comparison op a b) (·.isArray = false) := (Value.comparison_isArray op a b).aligns

def BinaryOp.elementwise : List BinaryOp :=
  [add, sub, dotAdd, dotSub, dotMul, div, dotDiv, equal, notEqual, greater, greaterEqual, less,
    lessEqual]

theorem apply_elementwise {op : BinaryOp} {axes : List Nat} (hop : op ∈ BinaryOp.elementwise)
    (hl : anywhere = true → axes.Pairwise fun m n => m = 1 → n = 1) (hv : v.Fits anywhere axes)
    (hw : w.Fits anywhere axes) : Aligns (op.apply v w) (Value.Fits anywhere axes) := by
  have arithmetic := Value.zipLeaves_fits (fun a b _ _ => Value.arithmetic_aligns op a b) hl hv hw
  have comparison := Value.zipLeaves_fits (fun a b _ _ => comparison_aligns op a b) hl hv hw
  cases op with
  | add | sub | dotAdd | dotSub | dotMul | div | dotDiv => exact arithmetic
  | equal | notEqual | greater | greaterEqual | less | lessEqual => exact comparison
  | _ => simp [BinaryOp.elementwise] at hop

theorem apply_mul_scalar_left {axes : List Nat} (hv : v.isArray = false)
    (hw : w.Fits anywhere axes) : Aligns (BinaryOp.mul.apply v w) (Value.Fits anywhere axes) := by
  rw [BinaryOp.apply, if_neg (by simp [hv]), Value.zipLeaves_scalar _ hv]
  exact Value.mapLeaves_fits (fun b _ => Value.arithmetic_aligns .mul v b) hw

theorem apply_mul_scalar_right {axes : List Nat} (hv : v.Fits anywhere axes)
    (hw : w.isArray = false) : Aligns (BinaryOp.mul.apply v w) (Value.Fits anywhere axes) := by
  rw [BinaryOp.apply, if_neg (by simp [hw])]
  cases v with
  | array items =>
    rw [Value.zipLeaves_array_scalar _ items hw]
    exact Value.mapLeaves_fits (fun a _ => Value.arithmetic_aligns .mul a w) hv
  | _ =>
    rw [Value.zipLeaves_scalar _ rfl, Value.mapLeaves_scalar _ hw]
    exact (Value.arithmetic_aligns .mul _ w).imp fun c hc => hv.of_scalar rfl hc

theorem apply_mul_pair {m k n : Nat} (hk : 2 ≤ k ∧ 1 ≤ m ∨ m = 1 ∧ k = 1 ∧ n = 1)
    (hv : v.Fits anywhere [m, k]) (hw : w.Fits anywhere [k, n]) :
    Aligns (BinaryOp.mul.apply v w) (Value.Fits anywhere [m, n]) := by
  cases hva : v.isArray with
  | false =>
    -- a scalar has no axis but those of length one
    obtain rfl : k = 1 := hv.ones_of_scalar hva k (by simp)
    obtain ⟨rfl, -, rfl⟩ := hk.resolve_left (by omega)
    exact apply_mul_scalar_left hva hw
  | true =>
    cases hwa : w.isArray with
    | false =>
      obtain rfl : k = 1 := hw.ones_of_scalar hwa k (by simp)
      obtain ⟨rfl, -, rfl⟩ := hk.resolve_left (by omega)
      exact apply_mul_scalar_right hv hwa
    | true =>
      rw [BinaryOp.apply, if_pos (by simp [hva, hwa])]
      exact Value.product_fits hk hva hwa hv hw

/-! ## Operators on typed operands -/

def ArrayType.Allows (anywhere : Bool) (type : ArrayType) (v : Value) : Prop :=
  type.shape ≠ [] ∧ v.Fits anywhere type.axes

theorem allows_scalar : (ArrayType.scalar base).Allows anywhere v ↔ v.isArray = false :=
  ⟨fun h => h.2, fun h => ⟨scalar_shape base, h⟩⟩

theorem pairwise_axes {op : BinaryOp} (hop : op ≠ .mul) (h : op.aligned anywhere left right = true)
    (ht : anywhere = true) : left.axes.Pairwise fun m n => m = 1 → n = 1 := by
  have hshape : left.shape.Pairwise fun m n => m = 1 → n = 1 := by
    unfold BinaryOp.aligned at h
    split at h
    · exact absurd rfl hop
    · simpa [ht] using h
  rcases eq_scalar_or_axes left with hs | ⟨-, ha⟩
  · rw [hs]
    exact .nil
  · rwa [ha]

/-- A scalar or a value of two axes, one of which has length one, as a matrix. -/
theorem fits_matrix {m n : Nat} {shape : List Nat} (hlen : shape.length ≤ 2)
    (hm : shape.head? = some m) (hn : shape.getLast? = some n) (hone : m = 1 ∨ n = 1)
    (h : v.Fits anywhere (ArrayType.axes ⟨base, shape⟩)) : v.Fits anywhere [m, n] := by
  match shape, hlen with
  | [p], _ =>
    obtain rfl : p = m := Option.some.inj hm
    obtain rfl : p = n := Option.some.inj hn
    obtain rfl : p = 1 := hone.elim id id
    exact .inr ⟨rfl, .inr (by simp), .inr ⟨rfl, .inr (by simp), h⟩⟩
  | [p, q], _ =>
    cases hm
    cases hn
    rwa [axes_of_shape (by simp)] at h

theorem mul_allows (hl : left.Allows anywhere v) (hr : right.Allows anywhere w)
    (ht : BinaryOp.Types .mul left right type) (h : multipliable left.shape right.shape = true) :
    Aligns (BinaryOp.mul.apply v w) (type.Allows anywhere) := by
  cases ht with
  | same hm => simp at hm
  | compare hm => simp at hm
  | logic hm => simp at hm
  | @product base m k n left right hm hk hk' hn =>
    have hl := hl.2
    have hr := hr.2
    have product : Aligns (BinaryOp.mul.apply v w) (Value.Fits anywhere [m, n]) := by
      rcases multipliable_cases h with ⟨rfl, hlen⟩ | ⟨rfl, hlen⟩ | ⟨m, k, n, rfl, rfl, hdims⟩
      · cases hm
        cases hk
        exact (apply_mul_scalar_left hl hr).imp fun _ => fits_matrix hlen hk' hn (.inl rfl)
      · cases hk'
        cases hn
        exact (apply_mul_scalar_right hl hr).imp fun _ => fits_matrix hlen hm hk (.inr rfl)
      · cases hm
        cases hn
        rw [axes_of_shape (by simp)] at hl hr
        exact apply_mul_pair hdims hl hr
    exact product.imp fun c hc => ⟨by simp, by rwa [axes_of_shape (by simp)]⟩

/-- **Operators.** Aligned operands of the types that an operator takes give a value of the type
that it has. -/
theorem apply_allows {op : BinaryOp} (ht : op.Types left right type)
    (ha : op.aligned anywhere left right = true) (hv : left.Allows anywhere v)
    (hw : right.Allows anywhere w) : Aligns (op.apply v w) (type.Allows anywhere) := by
  by_cases hmul : op = .mul
  · subst hmul
    exact mul_allows hv hw ht ha
  · cases ht with
    | product => exact absurd rfl hmul
    | same hm =>
      have hop : op ∈ BinaryOp.elementwise := by
        revert hm
        cases op <;> simp [BinaryOp.elementwise]
      exact (apply_elementwise hop (pairwise_axes hmul ha) hv.2 hw.2).imp fun c hc => ⟨hv.1, hc⟩
    | compare hm =>
      have hop : op ∈ BinaryOp.elementwise := by
        revert hm
        cases op <;> simp [BinaryOp.elementwise]
      have zipped : Aligns (op.apply v w) (Value.Fits anywhere []) :=
        apply_elementwise hop (fun _ => .nil) hv.2 hw.2
      exact zipped.imp fun c hc => allows_scalar.mpr hc
    | logic hm =>
      have computed : Aligns (Value.logic op v w) ((ArrayType.scalar .bool).Allows anywhere) :=
        (Value.logic_scalarly op v w).aligns.imp fun c hc =>
          allows_scalar.mpr (Value.isArray_of_kind (by rw [hc]; simp))
      cases op with
      | and | or | xor => exact computed
      | _ => simp at hm

theorem combine_allows {op : AssignOp}
    (ha : op.binary?.all (fun binary => binary.aligned anywhere type type) = true)
    (hv : type.Allows anywhere v) (hw : type.Allows anywhere w) :
    Aligns (op.combine v w) (type.Allows anywhere) := by
  have elementwise : ∀ binary ∈ BinaryOp.elementwise, binary ≠ .mul →
      binary.aligned anywhere type type = true →
      Aligns (binary.apply v w) (type.Allows anywhere) := fun binary hop hne hb =>
    (apply_elementwise hop (pairwise_axes hne hb) hv.2 hw.2).imp fun c hc => ⟨hv.1, hc⟩
  cases op with
  | set => exact hw
  | add => exact elementwise .add (by simp [BinaryOp.elementwise]) (by simp) ha
  | sub => exact elementwise .sub (by simp [BinaryOp.elementwise]) (by simp) ha
  | div => exact elementwise .div (by simp [BinaryOp.elementwise]) (by simp) ha
  | mul =>
    refine Yields.imp ?_ fun c hc => ⟨hv.1, hc⟩
    rcases eq_scalar_or_axes type with hs | ⟨hne, haxes⟩
    · have hv := hv.2
      rw [hs] at hv
      exact apply_mul_scalar_left hv hw.2
    · rcases multipliable_cases ha with ⟨h, -⟩ | ⟨h, -⟩ | ⟨m, k, n, hm, hn, hdims⟩
      · exact absurd h hne
      · exact absurd h hne
      · have hv := hv.2
        have hw := hw.2
        rw [hm] at hn
        cases hn
        rw [haxes, hm] at hv hw ⊢
        exact apply_mul_pair hdims hv hw

theorem negate_allows (hv : type.Allows anywhere v) :
    Aligns (UnaryOp.negate.apply v) (type.Allows anywhere) := by
  have leaf : ∀ a : Value, a.isArray = false → Aligns a.negateLeaf (·.isArray = false) :=
    fun a ha => (Value.negateLeaf_isArray ha).aligns
  exact (Value.mapLeaves_fits leaf hv.2).imp fun c hc => ⟨hv.1, hc⟩

theorem transpose_allows (ht : type.turnable anywhere = true) (hv : type.Allows anywhere v) :
    Aligns (UnaryOp.transpose.apply v) (type.transpose.Allows anywhere) := by
  simp only [ArrayType.turnable, Bool.and_eq_true, Bool.or_eq_true, decide_eq_true_eq,
    or_assoc] at ht
  have hshape : type.transpose.shape ≠ [] := by simpa [ArrayType.transpose] using hv.1
  rcases eq_scalar_or_axes type with hs | ⟨hne, haxes⟩
  · have hscalar : v.isArray = false := by
      have hfit := hv.2
      rw [hs] at hfit
      exact hfit
    have hsame : type.transpose = type := by rw [hs]; rfl
    rw [UnaryOp.apply, Value.transpose_scalar hscalar, hsame]
    exact hv
  · have hfit := hv.2
    rw [haxes] at hfit
    refine (Value.transpose_fits ht.1 ht.2 hfit).imp fun c hc => ⟨hshape, ?_⟩
    rcases eq_scalar_or_axes type.transpose with hs | ⟨-, haxes'⟩
    · have hrev : type.shape.reverse = [1] := congrArg ArrayType.shape hs
      exact absurd (List.reverse_eq_iff.mp hrev) hne
    · rwa [haxes']

theorem build_allows {function : Sized} (hf : function ≠ .zeros) {size : Int64} {n : Nat}
    (hn : Integer.toSize? size = some n) (allocator : Allocator) :
    Aligns (function.build allocator [.int size]) (ArrayType.Allows anywhere ⟨.real, [n, n]⟩) := by
  have built : (function.ofSize n).Fits anywhere [n, n] :=
    Value.fits_of_rectangular (.refl [n, n]) ((Value.ofSize_isMatrix hf n).mono fun _ hrow =>
      hrow.mono fun _ hentry => Value.isArray_of_kind (by rw [hentry]; simp))
  have read : Aligns (Value.int size).toInteger (· = size) := rfl
  unfold Sized.build
  refine read.bind fun found hfound => ?_
  rw [hfound, hn]
  dsimp only
  split
  · exact ⟨by simp, by rwa [axes_of_shape (by simp)]⟩
  · rfl

end

end MatrixScript
