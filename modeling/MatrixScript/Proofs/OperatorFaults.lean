import MatrixScript.Proofs.Pointwise
import MatrixScript.Proofs.Transposition

/-!
# Faults of operators

An operator fails because an operation on scalars does, because its operands have no
shape or shapes that do not match, or because it has no meaning there
(`BinaryOp.apply_operates`). Looking into an array is never what fails: kernels and
transposition start from a shape, a value has a shape only if the items of every
array in it are alike, and so the positions that the shape counts are all there
(`operators_read_inside`).
-/

namespace MatrixScript

/-- The faults of operators. Those of looking into an array are not among them. -/
def Cause.ofOperators : Cause → Bool
  | raggedArray => true
  | shapeMismatch _ _ => true
  | integerExpected => true
  | subscriptAsOperator => true
  | cause => cause.ofScalars

abbrev Operates {α : Type} (x : Except Cause α) (ok : α → Prop) : Prop :=
  Yields x ok fun cause => cause.ofOperators = true

section
variable {α : Type} {x : Except Cause α} {ok : α → Prop}

theorem Scalarly.operates (h : Scalarly x ok) : Operates x ok := by
  refine h.mono (fun _ ha => ha) fun cause hc => ?_
  cases cause <;> first | rfl | cases hc

theorem Operates.weaken (h : Operates x ok) : Operates x fun _ => True := h.imp fun _ _ => trivial

theorem Operates.ne_error (h : Operates x ok) {cause : Cause} (hc : cause.ofOperators = false) :
    x ≠ .error cause := by
  intro hx
  rw [hx] at h
  exact Bool.false_ne_true (hc.symm.trans h)

end

namespace Value

/-! ## Any values -/

mutual

theorem builtFrom_any : ∀ v : Value, v.BuiltFrom (fun _ => True) fun _ => True
  | array items => .array trivial (forall_builtFrom_any items)
  | int _ | real _ | bool _ | str _ | range _ _ => .scalar rfl trivial

theorem forall_builtFrom_any :
    ∀ items : List Value, ∀ item ∈ items, item.BuiltFrom (fun _ => True) fun _ => True
  | [] => by simp
  | item :: items => List.forall_mem_cons.mpr ⟨builtFrom_any item, forall_builtFrom_any items⟩

end

theorem zipLeaves_operates {f : Value → Value → Except Cause Value}
    (hf : ∀ a b, Scalarly (f a b) (·.isArray = false)) (v w : Value) :
    Operates (zipLeaves f v w) fun _ => True := by
  have zipped : Operates (zipLeaves f v w) (BuiltFrom (fun _ => True) fun _ => True) := by
    refine zipLeaves_yields (by rfl) (by simp [Cause.ofOperators]) ?_
      (builtFrom_any v) (builtFrom_any w)
    intro a b _ _ _ _
    exact (hf a b).operates.imp fun c hc => .scalar hc trivial
  exact zipped.weaken

theorem negate_operates (v : Value) : Operates v.negate fun _ => True := by
  have mapped : Operates v.negate (BuiltFrom (fun _ => True) fun _ => True) :=
    mapLeaves_yields (fun a ha _ =>
      (negateLeaf_isArray ha).operates.imp fun c hc => .scalar hc trivial) (builtFrom_any v)
  exact mapped.weaken

/-! ## Values with a shape -/

theorem transpose_operates (v : Value) : Operates v.transpose fun _ => True := by
  unfold transpose
  refine (shape_yields (by rfl) v).bind fun sizes hs => ?_
  split
  · trivial
  · exact Operates.weaken (gather_reverse (rectangular_of_shape? hs))

theorem product_operates (v w : Value) : Operates (v.product w) fun _ => True := by
  have mul := fun a b (_ : a.isArray = false) (_ : b.isArray = false) =>
    (arithmetic_isArray .mul a b).operates
  have add := fun a b (_ : a.isArray = false) (_ : b.isArray = false) =>
    (arithmetic_isArray .add a b).operates
  unfold product
  refine (shape_yields (by rfl) v).bind fun ls hl => (shape_yields (by rfl) w).bind fun rs hr => ?_
  have left := rectangular_of_shape? hl
  have right := rectangular_of_shape? hr
  -- one case for each kernel, where the sizes that meet are equal, and one for other shapes
  split
  · split
    · subst_vars
      exact Operates.weaken (vectorVector_yields mul add (fun _ => rfl) left right)
    · rfl
  · split
    · subst_vars
      exact Operates.weaken (matrixVector_yields mul add (fun _ => rfl) left right)
    · rfl
  · split
    · subst_vars
      exact Operates.weaken (vectorMatrix_yields mul add (fun _ => rfl) left right)
    · rfl
  · split
    · subst_vars
      exact Operates.weaken (matrixMatrix_yields mul add (fun _ => rfl) left right)
    · rfl
  · rfl

end Value

/-! ## Operators -/

theorem BinaryOp.apply_operates (op : BinaryOp) (v w : Value) :
    Operates (op.apply v w) fun _ => True := by
  have logic := (Value.logic_scalarly op v w).operates.weaken
  have integer : ∀ u : Value, Operates u.toInteger fun _ => True := by
    intro u
    cases u <;> trivial
  by_cases hop : op ∈ BinaryOp.elementwise
  · rw [apply_eq_zipLeaves hop]
    exact Value.zipLeaves_operates (scalar_scalarly op) v w
  · cases op with
    | mul =>
      by_cases harray : (v.isArray && w.isArray) = true
      · rw [BinaryOp.apply, if_pos harray]
        exact Value.product_operates v w
      · rw [BinaryOp.apply, if_neg harray]
        exact Value.zipLeaves_operates (Value.arithmetic_isArray .mul) v w
    | and | or | xor => exact logic
    | range => exact (integer v).bind fun _ _ => (integer w).bind fun _ _ => trivial
    | subscript => rfl
    | _ => exact absurd (by simp [BinaryOp.elementwise]) hop

theorem UnaryOp.apply_operates (op : UnaryOp) (v : Value) :
    Operates (op.apply v) fun _ => True := by
  cases op with
  | negate => exact v.negate_operates
  | transpose => exact v.transpose_operates

namespace Value

/-- **Operators read inside arrays.** Whatever values an operator is given, it never asks a row
for a column that the row does not have, never follows a path out of an array, and never takes a
scalar for an array. Nor would it if no fault kept it from reading on: every row of a matrix has
all columns that its shape counts, so that an entry is a sum of products with items that are
there, and in a value with a shape all paths inside the shape have an end. -/
theorem operators_read_inside :
    (∀ (op : BinaryOp) (left right : Value), op.apply left right ≠ .error .arrayExpected ∧
      ∀ col, op.apply left right ≠ .error (.noColumn col)) ∧
    (∀ (op : UnaryOp) (v : Value), op.apply v ≠ .error .arrayExpected ∧
      ∀ col, op.apply v ≠ .error (.noColumn col)) ∧
    (∀ (right : Value) (k n : Nat), right.shape = .ok [k, n] → ∃ rows, right = array rows ∧
      ∀ col < n, ∃ ys, List.Forall₂ (fun row y => column row col = .ok y) rows ys ∧
        ∀ xs, columnEntry xs rows col = dotItems xs ys) ∧
    ∀ (v : Value) (sizes : List Nat), v.shape = .ok sizes →
      (∀ path, Inside path sizes → ∃ x, follow v path = .ok x) ∧
        ∃ w, UnaryOp.transpose.apply v = .ok w := by
  refine ⟨fun op left right => ?_, fun op v => ?_, fun right k n hs => ?_, fun v sizes hs => ?_⟩
  · have applied := op.apply_operates left right
    exact ⟨applied.ne_error rfl, fun col => applied.ne_error rfl⟩
  · have applied := op.apply_operates v
    exact ⟨applied.ne_error rfl, fun col => applied.ne_error rfl⟩
  · obtain ⟨rows, rfl, -, hrows⟩ := rectangular_of_shape? (shape_eq_ok_iff.mp hs)
    refine ⟨rows, rfl, fun col hcol => ?_⟩
    obtain ⟨ys, hys, -⟩ := column_found hcol hrows
    exact ⟨ys, hys, columnEntry_found hys⟩
  · rw [shape_eq_ok_iff] at hs
    have hv := rectangular_of_shape? hs
    refine ⟨fun path hp => ?_, ?_⟩
    · obtain ⟨x, hx, -⟩ := entry_exists hv hp
      exact ⟨x, hx⟩
    · obtain ⟨w, hw, -⟩ := transpose_entries hs hv
      exact ⟨w, hw⟩

/-- A matrix of numbers and words: its second column is read before the product fails in it. -/
theorem operators_read_inside_mixed :
    let rows := [array [int 1, str "x"], array [int 3, int 4]]
    let v := array [int 5, int 6]
    (array rows).shape = .ok [2, 2] ∧
      BinaryOp.mul.apply v (array rows) = .error (.cannotApply .mul .int .str) ∧
      (∀ col, BinaryOp.mul.apply v (array rows) ≠ .error (.noColumn col)) ∧
      (∃ ys, List.Forall₂ (fun row y => column row 1 = .ok y) rows ys ∧
        columnEntry [int 5, int 6] rows 1 = dotItems [int 5, int 6] ys) ∧
      ∃ w, UnaryOp.transpose.apply (array rows) = .ok w := by
  intro rows v
  obtain ⟨binary, -, columns, paths⟩ := operators_read_inside
  obtain ⟨rows', hrows, hcolumns⟩ := columns (array rows) 2 2 rfl
  cases hrows
  obtain ⟨ys, hys, hentry⟩ := hcolumns 1 (by decide)
  exact ⟨rfl, rfl, (binary .mul v (array rows)).2, ⟨ys, hys, hentry _⟩, (paths _ [2, 2] rfl).2⟩

-- Without a shape a kernel does look for what is not there.
example : columnEntries [int 1] [array []] 1 = .error (.noColumn 0) := rfl

example : gather (array [array [int 1], array []]) [1, 2] [] = .error .arrayExpected := rfl

end Value

end MatrixScript
