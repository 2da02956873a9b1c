import MatrixScript.Proofs.IntegerProducts

/-!
# Products in reverse

The transpose of a product of integer arrays is the product of the transposes in
reverse order. The entries are visited in another order and by another kernel,
but each is the sum of the same terms, added up in the same order, so the two
computations also overflow together (`product_reversed`).
-/

namespace MatrixScript.Value

structure Turned (sizes : List Nat) (v w : Value) : Prop where
  transpose : v.transpose = .ok w
  shape : w.shape? = some sizes.reverse
  integers : Integers sizes.reverse w
  entries : ∀ path, Inside path sizes.reverse → follow w path = follow v path.reverse

section
variable {A A' B B' v w u : Value} {sizes before after p q : List Nat} {k : Nat}

theorem turned_exists (hs : v.shape? = some sizes) (hv : Integers sizes v) (hz : 0 ∉ sizes) :
    ∃ w, Turned sizes v w := by
  obtain ⟨w, hw, hi, hws, hentries⟩ :=
    transpose_of_no_zero hs hv (fun entry he => isArray_of_kind (by simp [he])) hz
  exact ⟨w, hw, hws, hi, hentries⟩

theorem Turned.integerAt {path : List Nat} (h : Turned sizes v w) (hp : Inside path sizes) :
    w.integerAt path.reverse = v.integerAt path := by
  unfold Value.integerAt
  rw [h.entries _ (List.forall₂_reverse_iff.mpr hp), List.reverse_reverse]

theorem productTerms_turned (hA : Turned (before ++ [k]) A A') (hB : Turned (k :: after) B B')
    (hp : Inside p before) (hq : Inside q after) :
    productTerms B' A' k q.reverse p.reverse = productTerms A B k p q := by
  unfold productTerms
  apply List.map_congr_left
  intro i hi
  have inside : Inside [i] [k] := .cons (List.mem_range.mp hi) .nil
  have left := hA.integerAt (List.rel_append hp inside)
  have right := hB.integerAt (.cons (List.mem_range.mp hi) hq)
  rw [List.reverse_append] at left
  rw [List.reverse_cons] at right
  rw [right, ← left, Int.mul_comm]
  rfl

theorem entriesAdd_turned (hA : Turned (before ++ [k]) A A') (hB : Turned (k :: after) B B') :
    EntriesAdd B' A' after.reverse k before.reverse ↔ EntriesAdd A B before k after := by
  constructor
  · intro h p q hp hq
    rw [← productTerms_turned hA hB hp hq]
    exact h _ _ (List.forall₂_reverse_iff.mpr hq) (List.forall₂_reverse_iff.mpr hp)
  · intro h q p hq hp
    have hp' : Inside p.reverse before := by simpa using List.forall₂_reverse_iff.mpr hp
    have hq' : Inside q.reverse after := by simpa using List.forall₂_reverse_iff.mpr hq
    have terms := productTerms_turned hA hB hp' hq'
    rw [List.reverse_reverse, List.reverse_reverse] at terms
    rw [terms]
    exact h _ _ hp' hq'

/-! ## Entries in reverse -/

theorem inside_split {path : List Nat} (h : Inside path (before ++ after)) :
    ∃ p q, path = p ++ q ∧ Inside p before ∧ Inside q after :=
  ⟨_, _, (List.take_append_drop before.length path).symm,
    List.forall₂_take_append path before after h, List.forall₂_drop_append path before after h⟩

/-- Two arrays with the same integers at reversed paths. -/
theorem transpose_sums {sums : List Nat → List Nat → Int}
    (hw : w.shape? = some (before ++ after)) (hu : u.shape? = some (before ++ after).reverse)
    (hwe : ∀ p q, Inside p before → Inside q after →
      ∃ a, follow w (p ++ q) = .ok (int a) ∧ a.toInt = sums p q)
    (hue : ∀ p q, Inside p before → Inside q after →
      ∃ a, follow u (p ++ q).reverse = .ok (int a) ∧ a.toInt = sums p q) :
    w.transpose = .ok u := by
  obtain ⟨w', hw', hrect, hentries⟩ := transpose_entries hw (rectangular_of_shape? hw)
  have same : w' = u := by
    apply eq_of_entries hrect (rectangular_of_shape? hu)
    intro path hpath
    have hback := List.forall₂_reverse_iff.mpr hpath
    rw [List.reverse_reverse] at hback
    obtain ⟨p, q, hpq, hp, hq⟩ := inside_split hback
    obtain ⟨a, ha, hat⟩ := hwe p q hp hq
    obtain ⟨b, hb, hbt⟩ := hue p q hp hq
    have hab : a = b := Int64.toInt_inj.mp (hat.trans hbt.symm)
    rw [← hpq, List.reverse_reverse] at hb
    rw [hentries path hpath, hpq, ha, hb, hab]
  rw [hw', same]

/-! ## Products in reverse -/

theorem product_turned (hAs : A.shape? = some (before ++ [k])) (hBs : B.shape? = some (k :: after))
    (hAi : Integers (before ++ [k]) A) (hBi : Integers (k :: after) B)
    (hA : Turned (before ++ [k]) A A') (hB : Turned (k :: after) B B')
    (hb : before.length ≤ 1) (ha : after.length ≤ 1) :
    (A.product B >>= Value.transpose) = B'.product A' := by
  obtain ⟨-, hAs', hAi', -⟩ := id hA
  obtain ⟨-, hBs', hBi', -⟩ := id hB
  rw [List.reverse_append, List.reverse_singleton, List.singleton_append] at hAs' hAi'
  rw [List.reverse_cons] at hBs' hBi'
  have backward :=
    product_outcome hBs' hAs' hBi' hAi' (by simpa using ha) (by simpa using hb)
  rw [entriesAdd_turned hA hB] at backward
  obtain ⟨w, hw, hadd, hws, hwe⟩ | ⟨hw, hnot⟩ := product_outcome hAs hBs hAi hBi hb ha
  · obtain ⟨u, hu, -, hus, hue⟩ | ⟨-, hnot⟩ := backward
    · rw [hw, hu]
      rw [← List.reverse_append] at hus
      refine transpose_sums hws hus hwe fun p q hp hq => ?_
      rw [List.reverse_append, ← productTerms_turned hA hB hp hq]
      exact hue _ _ (List.forall₂_reverse_iff.mpr hq) (List.forall₂_reverse_iff.mpr hp)
    · exact absurd hadd hnot
  · obtain ⟨u, -, hadd, -⟩ | ⟨hu, -⟩ := backward
    · exact absurd hadd hnot
    · rw [hw, hu]
      rfl

/-- A product with at most one axis is its own transpose. -/
theorem product_flat (hAs : A.shape? = some (before ++ [k])) (hBs : B.shape? = some (k :: after))
    (hAi : Integers (before ++ [k]) A) (hBi : Integers (k :: after) B)
    (hb : before.length ≤ 1) (ha : after.length ≤ 1) (hn : (before ++ after).length < 2) :
    (A.product B >>= Value.transpose) = A.product B := by
  obtain ⟨w, hw, -, hws, -⟩ | ⟨hw, -⟩ := product_outcome hAs hBs hAi hBi hb ha
  · rw [hw]
    exact transpose_short hws hn
  · rw [hw]
    rfl

theorem mul_apply (hv : v.isArray = true) (hw : w.isArray = true) :
    BinaryOp.mul.apply v w = v.product w := by
  rw [BinaryOp.apply, hv, hw]
  rfl

theorem isArray_of_shape? (h : v.shape? = some sizes) (hne : sizes ≠ []) : v.isArray = true := by
  by_contra hv
  rw [shape?_eq_nil_iff.mpr (by simpa using hv)] at h
  exact hne (Option.some.inj h).symm

end

/-- **The transpose of a product.** For arrays of integers with one or two axes, none of them
empty, that can be multiplied, the transpose of the product is the product of the transposes
in reverse order, overflows included. A vector is its own transpose, so two vectors can be
exchanged, and a vector can be moved to the other side of a matrix that is transposed. -/
theorem product_reversed {A B : Value} {as bs : List Nat} (hA : A.shape = .ok as)
    (hB : B.shape = .ok bs) (hAl : ∀ leaf ∈ A.leaves, leaf.kind = .int)
    (hBl : ∀ leaf ∈ B.leaves, leaf.kind = .int) (has : as.length = 1 ∨ as.length = 2)
    (hbs : bs.length = 1 ∨ bs.length = 2) (hapos : ∀ n ∈ as, 1 ≤ n) (hbpos : ∀ n ∈ bs, 1 ≤ n)
    (hmeet : as.getLast? = bs.head?) :
    (do UnaryOp.transpose.apply (← BinaryOp.mul.apply A B)) = (do
      let B' ← UnaryOp.transpose.apply B
      let A' ← UnaryOp.transpose.apply A
      BinaryOp.mul.apply B' A') ∧
    (as.length = 1 → bs.length = 1 → BinaryOp.mul.apply A B = BinaryOp.mul.apply B A) ∧
    (as.length = 1 → bs.length = 2 →
      BinaryOp.mul.apply A B = do BinaryOp.mul.apply (← UnaryOp.transpose.apply B) A) := by
  rw [shape_eq_ok_iff] at hA hB
  have hAi : Integers as A := nest_of_leaves (rectangular_of_shape? hA) hAl
  have hBi : Integers bs B := nest_of_leaves (rectangular_of_shape? hB) hBl
  have hAa : A.isArray = true := isArray_of_shape? hA (by intro h; simp [h] at has)
  have hBa : B.isArray = true := isArray_of_shape? hB (by intro h; simp [h] at hbs)
  obtain ⟨before, k, after, rfl, rfl⟩ := shapes_meet hA hAa hmeet
  have hb : before.length ≤ 1 := by rw [List.length_append, List.length_singleton] at has; omega
  have ha : after.length ≤ 1 := by rw [List.length_cons] at hbs; omega
  obtain ⟨A', hA'⟩ := turned_exists hA hAi fun h => absurd (hapos 0 h) (by decide)
  obtain ⟨B', hB'⟩ := turned_exists hB hBi fun h => absurd (hbpos 0 h) (by decide)
  have hAa' : A'.isArray = true := isArray_of_shape? hA'.shape (by simp)
  have hBa' : B'.isArray = true := isArray_of_shape? hB'.shape (by simp)
  have turned := product_turned hA hB hAi hBi hA' hB' hb ha
  -- with a vector on the left neither it nor the product has axes to reverse
  have moved : (before ++ [k]).length = 1 → A.product B = B'.product A := by
    intro hn
    have own := hA'.transpose.symm.trans (transpose_short hA (by omega))
    rw [List.length_append, List.length_singleton] at hn
    have hflat : (before ++ after).length < 2 := by rw [List.length_append]; omega
    rw [← product_flat hA hB hAi hBi hb ha hflat, turned, Except.ok.inj own]
  refine ⟨?_, fun hn hn' => ?_, fun hn _ => ?_⟩
  · show (BinaryOp.mul.apply A B >>= Value.transpose) =
      B.transpose >>= fun B' => A.transpose >>= fun A' => BinaryOp.mul.apply B' A'
    rw [hA'.transpose, hB'.transpose, mul_apply hAa hBa, turned]
    exact (mul_apply hBa' hAa').symm
  · have own := hB'.transpose.symm.trans (transpose_short hB (by omega))
    rw [mul_apply hAa hBa, mul_apply hBa hAa, moved hn, Except.ok.inj own]
  · show _ = B.transpose >>= fun B' => BinaryOp.mul.apply B' A
    rw [hB'.transpose, mul_apply hAa hBa, moved hn]
    exact (mul_apply hBa' hAa).symm

/-- A vector on either side of a matrix. -/
theorem product_reversed_vector :
    let v := array [int 1, int 2]
    let M := array [array [int 3, int 4, int 5], array [int 6, int 7, int 8]]
    let T := array [array [int 3, int 6], array [int 4, int 7], array [int 5, int 8]]
    v.shape = .ok [2] ∧ M.shape = .ok [2, 3] ∧ (∀ leaf ∈ v.leaves, leaf.kind = .int) ∧
      (∀ leaf ∈ M.leaves, leaf.kind = .int) ∧ UnaryOp.transpose.apply M = .ok T ∧
      BinaryOp.mul.apply v M = BinaryOp.mul.apply T v ∧
      BinaryOp.mul.apply v M = .ok (array [int 15, int 18, int 21]) := by
  intro v M T
  have hv : ∀ leaf ∈ v.leaves, leaf.kind = .int := by decide
  have hM : ∀ leaf ∈ M.leaves, leaf.kind = .int := by decide
  obtain ⟨-, -, moved⟩ := product_reversed (rfl : v.shape = .ok [2]) (rfl : M.shape = .ok [2, 3])
    hv hM (.inl rfl) (.inr rfl) (by decide) (by decide) rfl
  exact ⟨rfl, rfl, hv, hM, rfl, moved rfl rfl, (moved rfl rfl).trans rfl⟩

end MatrixScript.Value
