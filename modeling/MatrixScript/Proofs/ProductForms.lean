import MatrixScript.Proofs.Entries

/-!
# Vectors as matrices

A vector on the left of a product can be written as a matrix of one row, one on
the right as a matrix of one column. The product is then computed by another
kernel, from the same scalar operations in the same order, so its result is that
of the vector in matrix form and its faults are the same (`product_forms`).
-/

namespace MatrixScript.Value

def asRow (v : Value) : Value := array [v]

def asColumn : Value → Value
  | array items => array (items.map asRow)
  | v => v

/-- The first computation has a value exactly if the second has that value in some form, and
fails exactly as the second does. -/
def SameIn (form : Value → Value) (x y : Except Cause Value) : Prop :=
  (∀ a, x = .ok a ↔ y = .ok (form a)) ∧ ∀ cause, x = .error cause ↔ y = .error cause

section
variable {form : Value → Value} {v w : Value} {k m n : Nat} {sizes : List Nat}

theorem asRow_injective : Function.Injective asRow := by
  intro v w h
  cases h
  rfl

theorem asColumn_injective : Function.Injective asColumn := by
  intro v w h
  cases v with
  | array xs =>
    cases w with
    | array ys =>
      have hmap : xs.map asRow = ys.map asRow := Value.array.inj h
      rw [List.map_injective_iff.mpr asRow_injective hmap]
    | _ => cases h
  | _ => cases w <;> first | exact h | cases h

theorem sameIn_map (hf : Function.Injective form) (x : Except Cause Value) :
    SameIn form x (form <$> x) := by
  cases x with
  | ok a =>
    refine ⟨fun b => ⟨fun h => ?_, fun h => ?_⟩, fun cause => ⟨fun h => ?_, fun h => ?_⟩⟩
    · cases h
      rfl
    · rw [hf (Except.ok.inj h)]
    · cases h
    · cases h
  | error e =>
    refine ⟨fun b => ⟨fun h => ?_, fun h => ?_⟩, fun cause => ⟨id, id⟩⟩
    · cases h
    · cases h

/-! ## Shapes -/

theorem asRow_shape (h : v.shape? = some sizes) : v.asRow.shape? = some (1 :: sizes) := by
  apply (shape?_eq_cons_iff (Nat.le_refl 1)).mpr
  exact ⟨[v], rfl, rfl, by simpa using h⟩

theorem asColumn_shape (hk : 1 ≤ k) (h : v.shape? = some [k]) : v.asColumn.shape? = some [k, 1] := by
  obtain ⟨items, rfl, hn, hi⟩ := (shape?_eq_cons_iff hk).mp h
  apply (shape?_eq_cons_iff hk).mpr
  refine ⟨items.map asRow, rfl, by rw [List.length_map, hn], fun row hrow => ?_⟩
  obtain ⟨item, hitem, rfl⟩ := List.mem_map.mp hrow
  exact asRow_shape (hi item hitem)

/-! ## Kernels -/

theorem mapM_map {α β γ ε : Type} (f : α → Except ε β) (g : β → γ) :
    ∀ l : List α, l.mapM (fun a => g <$> f a) = List.map g <$> l.mapM f
  | [] => rfl
  | a :: l => by
    rw [List.mapM_cons, List.mapM_cons, mapM_map f g l]
    cases f a with
    | error e => rfl
    | ok b => cases l.mapM f <;> rfl

theorem matrixVector_arrays (rows ys : List Value) :
    matrixVector (array rows) (array ys) =
      array <$> rows.mapM fun row => row.toItems >>= fun xs => dotItems xs ys := by
  rw [← bind_pure_comp]
  rfl

theorem matrixMatrix_arrays (lefts rights : List Value) (n : Nat) :
    matrixMatrix (array lefts) (array rights) n =
      array <$> lefts.mapM fun row => row.toItems >>= fun xs => columnEntries xs rights n := by
  rw [← bind_pure_comp]
  rfl

theorem columnEntry_asColumn (xs ys : List Value) :
    columnEntry xs (ys.map asRow) 0 = dotItems xs ys := by
  unfold columnEntry dotItems
  rw [List.zipWith_map_right]
  rfl

theorem columnEntries_asColumn (xs ys : List Value) :
    columnEntries xs (ys.map asRow) 1 = asRow <$> dotItems xs ys := by
  unfold columnEntries
  rw [List.range_one, List.mapM_cons, columnEntry_asColumn]
  cases dotItems xs ys <;> rfl

theorem matrixMatrix_asColumn (rows ys : List Value) :
    matrixMatrix (array rows) (array (ys.map asRow)) 1 =
      asColumn <$> matrixVector (array rows) (array ys) := by
  have each : ∀ row : Value, (row.toItems >>= fun xs => columnEntries xs (ys.map asRow) 1) =
      asRow <$> (row.toItems >>= fun xs => dotItems xs ys) := by
    intro row
    cases row.toItems with
    | error cause => rfl
    | ok xs => exact columnEntries_asColumn xs ys
  simp only [matrixMatrix_arrays, matrixVector_arrays, each, mapM_map, Functor.map_map]
  rfl

theorem matrixMatrix_asRow (xs rights : List Value) (n : Nat) :
    matrixMatrix (array [array xs]) (array rights) n =
      asRow <$> vectorMatrix (array xs) (array rights) n := by
  rw [matrixMatrix_arrays, List.mapM_cons, List.mapM_nil]
  show array <$> (columnEntries xs rights n >>= fun entries => pure [entries]) =
    asRow <$> columnEntries xs rights n
  cases columnEntries xs rights n <;> rfl

theorem matrixMatrix_forms (xs ys : List Value) :
    matrixMatrix (array [array xs]) (array (ys.map asRow)) 1 =
      (fun x => x.asRow.asRow) <$> vectorVector (array xs) (array ys) := by
  rw [matrixMatrix_asRow]
  show asRow <$> columnEntries xs (ys.map asRow) 1 = (fun x => x.asRow.asRow) <$> dotItems xs ys
  rw [columnEntries_asColumn, Functor.map_map]

/-! ## Products -/

theorem product_vectors (hv : v.shape? = some [k]) (hw : w.shape? = some [k]) :
    v.product w = vectorVector v w := by
  unfold product
  rw [shape_eq_ok_iff.mpr hv, shape_eq_ok_iff.mpr hw]
  exact if_pos rfl

theorem product_matrix_vector (hv : v.shape? = some [m, k]) (hw : w.shape? = some [k]) :
    v.product w = matrixVector v w := by
  unfold product
  rw [shape_eq_ok_iff.mpr hv, shape_eq_ok_iff.mpr hw]
  exact if_pos rfl

theorem product_vector_matrix (hv : v.shape? = some [k]) (hw : w.shape? = some [k, n]) :
    v.product w = vectorMatrix v w n := by
  unfold product
  rw [shape_eq_ok_iff.mpr hv, shape_eq_ok_iff.mpr hw]
  exact if_pos rfl

theorem product_matrices (hv : v.shape? = some [m, k]) (hw : w.shape? = some [k, n]) :
    v.product w = matrixMatrix v w n := by
  unfold product
  rw [shape_eq_ok_iff.mpr hv, shape_eq_ok_iff.mpr hw]
  exact if_pos rfl

end

/-- **Products of vectors and of matrices.** With vectors of one length, on the left written
as one row and on the right as one column, every kernel computes what the one for two
matrices computes, whatever the entries are: the result is the same in matrix form, and so
is the fault. -/
theorem product_forms {k m n : Nat} {v w M N : Value} (hk : 1 ≤ k) (hv : v.shape = .ok [k])
    (hw : w.shape = .ok [k]) (hM : M.shape = .ok [m, k]) (hN : N.shape = .ok [k, n]) :
    SameIn (fun x => x.asRow.asRow) (v.product w) (v.asRow.product w.asColumn) ∧
    SameIn asColumn (M.product v) (M.product v.asColumn) ∧
    SameIn asRow (v.product N) (v.asRow.product N) := by
  rw [shape_eq_ok_iff] at hv hw hM hN
  obtain ⟨xs, rfl, -⟩ := (shape?_eq_cons_iff hk).mp hv
  obtain ⟨ys, rfl, -⟩ := (shape?_eq_cons_iff hk).mp hw
  obtain ⟨rows, rfl, -⟩ := rectangular_of_shape? hM
  obtain ⟨rights, rfl, -⟩ := rectangular_of_shape? hN
  refine ⟨?_, ?_, ?_⟩
  · rw [product_vectors hv hw, product_matrices (asRow_shape hv) (asColumn_shape hk hw)]
    have same := matrixMatrix_forms xs ys
    exact same ▸ sameIn_map (asRow_injective.comp asRow_injective) _
  · rw [product_matrix_vector hM hv, product_matrices hM (asColumn_shape hk hv)]
    have same := matrixMatrix_asColumn rows xs
    exact same ▸ sameIn_map asColumn_injective _
  · rw [product_vector_matrix hv hN, product_matrices (asRow_shape hv) hN]
    have same := matrixMatrix_asRow xs rights n
    exact same ▸ sameIn_map asRow_injective _

/-- A word in the vector on the right: the fault names the kinds that meet first. -/
theorem product_forms_word :
    let v := array [int 2, int 3]
    let w := array [int 5, str "seven"]
    let M := array [array [int 1, int 2], array [int 3, int 4], array [int 5, int 6]]
    let N := array [array [int 1, int 0], array [int 0, int 1]]
    v.shape = .ok [2] ∧ w.shape = .ok [2] ∧ M.shape = .ok [3, 2] ∧ N.shape = .ok [2, 2] ∧
      v.asRow.product w.asColumn = .error (.cannotApply .mul .int .str) ∧
      M.product v.asColumn = .ok (array [array [int 8], array [int 18], array [int 28]]) ∧
      v.asRow.product N = .ok (array [v]) := by
  intro v w M N
  obtain ⟨hdot, hcolumn, hrow⟩ := product_forms (by decide) (rfl : v.shape = .ok [2])
    (rfl : w.shape = .ok [2]) (rfl : M.shape = .ok [3, 2]) (rfl : N.shape = .ok [2, 2])
  exact ⟨rfl, rfl, rfl, rfl, (hdot.2 _).mp rfl, (hcolumn.1 (array [int 8, int 18, int 28])).mp rfl,
    (hrow.1 v).mp rfl⟩

end MatrixScript.Value
