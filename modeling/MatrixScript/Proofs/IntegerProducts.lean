import Mathlib.Algebra.Ring.Int.Defs
import MatrixScript.Machine.Eval
import MatrixScript.Proofs.ProductForms
import MatrixScript.Proofs.Transposition

/-!
# Products of integers

Every entry of a product of integer arrays is a sum of products, and the order in
which it is added up is part of its meaning: it overflows where a term or a sum
of the first terms leaves the 64-bit range, although the total may be inside.
`product_entries` says this of all four kernels at once: with `p` on the axes of
the left factor before its last and `q` on those of the right one after its
first, the entry at `p ++ q` is the sum of the terms
`left (p ++ [i]) * right (i :: q)`.
-/

namespace MatrixScript

def Integer.Fits (n : Int) : Prop := -bound ≤ n ∧ n < bound

theorem Integer.fits_toInt (i : Int64) : Fits i.toInt := by
  have hlo := i.le_toInt
  have hhi := i.toInt_lt
  unfold Fits bound
  omega

namespace Value

/-! ## Sums of integers -/

/-- Every term fits, and so does every sum of the first terms, added to a total. -/
def Adds (total : Int) (terms : List Int) : Prop :=
  (∀ term ∈ terms, Integer.Fits term) ∧ ∀ n, Integer.Fits (total + (terms.take n).sum)

def checked (n : Int) : Except Cause Value := ofInteger? (Integer.fit? n)

theorem adds_cons (total term : Int) (terms : List Int) : Adds total (term :: terms) ↔
    Integer.Fits total ∧ Integer.Fits term ∧ Adds (total + term) terms := by
  have sums : (∀ n, Integer.Fits (total + ((term :: terms).take n).sum)) ↔
      Integer.Fits total ∧ ∀ n, Integer.Fits (total + term + (terms.take n).sum) := by
    constructor
    · intro h
      refine ⟨by simpa using h 0, fun n => ?_⟩
      have next := h (n + 1)
      rwa [List.take_succ_cons, List.sum_cons, ← Int.add_assoc] at next
    · intro h n
      cases n with
      | zero => simpa using h.1
      | succ n =>
        rw [List.take_succ_cons, List.sum_cons, ← Int.add_assoc]
        exact h.2 n
  unfold Adds
  rw [List.forall_mem_cons, sums]
  constructor
  · intro h
    exact ⟨h.2.1, h.1.1, h.1.2, h.2.2⟩
  · intro h
    exact ⟨⟨h.2.1, h.2.2.1⟩, h.1, h.2.2.2⟩

theorem checked_bind {n : Int} {f : Value → Except Cause Value} {ok : Value → Prop}
    {err : Cause → Prop} (hf : ∀ a : Int64, a.toInt = n → Yields (f (int a)) ok err)
    (he : ¬ Integer.Fits n → err .overflow) : Yields (checked n >>= f) ok err := by
  unfold checked
  cases hfit : Integer.fit? n with
  | some a => exact hf a (Integer.fit?_eq_some_iff.mp hfit)
  | none =>
    apply he
    intro h
    obtain ⟨hlo, hhi⟩ := h
    unfold Integer.fit? at hfit
    rw [if_pos ⟨hlo, hhi⟩] at hfit
    cases hfit

theorem sumFrom_checked : ∀ (terms : List Int) (a : Int64),
    Yields (sumFrom (int a) (terms.map checked))
      (fun v => Adds a.toInt terms ∧ ∃ b, v = int b ∧ b.toInt = a.toInt + terms.sum)
      fun cause => cause = .overflow ∧ ¬ Adds a.toInt terms
  | [], a => by
    refine ⟨⟨by simp, fun n => ?_⟩, a, rfl, by simp⟩
    simpa using Integer.fits_toInt a
  | term :: terms, a => by
    have start := Integer.fits_toInt a
    simp only [adds_cons, start, true_and]
    rw [List.map_cons, sumFrom]
    refine checked_bind (fun t ht => ?_) fun hn => ⟨rfl, fun h => hn h.1⟩
    subst ht
    show Yields (checked (a.toInt + t.toInt) >>= fun total => sumFrom total (terms.map checked)) _ _
    refine checked_bind (fun b hb => ?_) fun hn => ⟨rfl, fun h => hn (by simpa using h.2.2 0)⟩
    refine (sumFrom_checked terms b).mono (fun w hw => ?_) fun cause hc => ?_
    · obtain ⟨hadds, c, rfl, hc⟩ := hw
      rw [hb] at hadds hc
      refine ⟨⟨Integer.fits_toInt t, hadds⟩, c, rfl, ?_⟩
      rw [hc, List.sum_cons, Int.add_assoc]
    · rw [hb] at hc
      exact ⟨hc.1, fun h => hc.2 h.2⟩

theorem sum_checked (terms : List Int) :
    Yields (sum (terms.map checked))
      (fun v => Adds 0 terms ∧ ∃ b, v = int b ∧ b.toInt = terms.sum)
      fun cause => cause = .overflow ∧ ¬ Adds 0 terms := by
  have zero : Integer.Fits 0 := Integer.fits_toInt 0
  cases terms with
  | nil => exact ⟨⟨by simp, fun n => by simpa using zero⟩, 0, rfl, rfl⟩
  | cons term terms =>
    simp only [adds_cons, zero, true_and, Int.zero_add]
    rw [List.map_cons, sum]
    refine checked_bind (fun t ht => ?_) fun hn => ⟨rfl, fun h => hn h.1⟩
    subst ht
    refine (sumFrom_checked terms t).mono (fun w hw => ?_) fun cause hc => ?_
    · exact ⟨⟨Integer.fits_toInt t, hw.1⟩, by rw [List.sum_cons]; exact hw.2⟩
    · exact ⟨hc.1, fun h => hc.2 h.2⟩

/-! ## Terms -/

def integerAt (v : Value) (path : List Nat) : Int :=
  match follow v path with
  | .ok (int a) => a.toInt
  | _ => 0

/-- The terms of one entry of a product, in the order in which they are added up. -/
def productTerms (left right : Value) (k : Nat) (p q : List Nat) : List Int :=
  (List.range k).map fun i => left.integerAt (p ++ [i]) * right.integerAt (i :: q)

abbrev Integers : List Nat → Value → Prop := Nest (·.kind = .int)

section
variable {left right x : Value} {xs ys rows : List Value} {k m n : Nat}

theorem integerAt_item {items : List Value} {p : Nat} (h : p < items.length) (path : List Nat) :
    (array items).integerAt (p :: path) = items[p].integerAt path := by
  unfold integerAt
  rw [follow_item h]

theorem mul_checked {a b : Value} (ha : a.kind = .int) (hb : b.kind = .int) :
    arithmetic .mul a b = checked (a.integerAt [] * b.integerAt []) := by
  obtain ⟨i, rfl⟩ := eq_int_of_kind ha
  obtain ⟨j, rfl⟩ := eq_int_of_kind hb
  rfl

theorem productTerms_item {i : Nat} (h : i < rows.length) (right : Value) (p q : List Nat) :
    productTerms (array rows) right k (i :: p) q = productTerms rows[i] right k p q := by
  unfold productTerms
  simp only [List.cons_append, integerAt_item h]

theorem dotItems_terms (hx : Integers [k] (array xs)) (hy : Integers [k] (array ys)) :
    dotItems xs ys = sum ((productTerms (array xs) (array ys) k [] []).map checked) := by
  obtain ⟨_, hxs, hxn, hxi⟩ := hx
  obtain ⟨_, hys, hyn, hyi⟩ := hy
  cases hxs
  cases hys
  unfold dotItems productTerms
  congr 1
  apply List.ext_getElem
  · simp [hxn, hyn]
  · intro i hi _
    rw [List.length_zipWith] at hi
    have hix : i < xs.length := by omega
    have hiy : i < ys.length := by omega
    simp only [List.getElem_zipWith, List.getElem_map, List.getElem_range, List.nil_append,
      integerAt_item hix, integerAt_item hiy]
    exact mul_checked (hxi _ (List.getElem_mem hix)) (hyi _ (List.getElem_mem hiy))

theorem columnEntry_terms {col : Nat} (hcol : col < n) (hx : Integers [k] (array xs))
    (hr : Integers [k, n] (array rows)) : columnEntry xs rows col =
      sum ((productTerms (array xs) (array rows) k [] [col]).map checked) := by
  obtain ⟨_, hxs, hxn, hxi⟩ := hx
  obtain ⟨_, hrs, hrn, hri⟩ := hr
  cases hxs
  cases hrs
  unfold columnEntry productTerms
  congr 1
  apply List.ext_getElem
  · simp [hxn, hrn]
  · intro i hi _
    rw [List.length_zipWith] at hi
    have hix : i < xs.length := by omega
    have hir : i < rows.length := by omega
    obtain ⟨items, hitems, hn, hint⟩ := hri _ (List.getElem_mem hir)
    have hcol' : col < items.length := by omega
    simp only [List.getElem_zipWith, List.getElem_map, List.getElem_range, List.nil_append,
      integerAt_item hix, integerAt_item hir, hitems, integerAt_item hcol', column_inside hcol']
    exact mul_checked (hxi _ (List.getElem_mem hix)) (hint _ (List.getElem_mem hcol'))

end

/-! ## Arrays of sums -/

/-- An array of this shape whose entries are sums of these terms, or an overflow if the terms
of some entry do not add up. -/
def Summed (sizes : List Nat) (terms : List Nat → List Int) (x : Except Cause Value) : Prop :=
  Yields x
    (fun w => Rectangular sizes w ∧ ∀ path, Inside path sizes →
      Adds 0 (terms path) ∧ ∃ a, follow w path = .ok (int a) ∧ a.toInt = (terms path).sum)
    fun cause => cause = .overflow ∧ ∃ path, Inside path sizes ∧ ¬ Adds 0 (terms path)

section
variable {sizes : List Nat} {terms : List Nat → List Int}

theorem summed_entry (terms : List Nat → List Int) :
    Summed [] terms (sum ((terms []).map checked)) := by
  refine (sum_checked (terms [])).mono (fun w hw => ?_) fun cause hc => ⟨hc.1, [], .nil, hc.2⟩
  obtain ⟨hadds, b, rfl, hb⟩ := hw
  refine ⟨rfl, fun path hp => ?_⟩
  cases hp
  exact ⟨hadds, b, rfl, hb⟩

theorem summed_array {α : Type} {f : α → Except Cause Value} {l : List α}
    (h : ∀ (i : Nat) (hi : i < l.length), Summed sizes (fun path => terms (i :: path)) (f l[i])) :
    Summed (l.length :: sizes) terms (array <$> l.mapM f) := by
  have each := fun (i : Nat) (hi : i < l.length) => (h i hi).mono (fun _ hw => hw)
    fun cause hc => show cause = .overflow ∧
        ∃ path, Inside path (l.length :: sizes) ∧ ¬ Adds 0 (terms path) from by
      obtain ⟨hcause, path, hp, hadds⟩ := hc
      exact ⟨hcause, i :: path, .cons hi hp, hadds⟩
  rw [← bind_pure_comp]
  refine (yields_mapM_at each).bind fun items hitems => ?_
  obtain ⟨hn, hi⟩ := hitems
  refine ⟨⟨items, rfl, hn, ?_⟩, fun path hp => ?_⟩
  · exact List.forall_mem_iff_forall_getElem.mpr fun i hlt => (hi i hlt).1
  · cases hp with
    | @cons p _ path _ hlt hp =>
      have hlt' : p < items.length := by omega
      rw [follow_item hlt']
      exact (hi p hlt').2 path hp

end

/-! ## Kernels -/

section
variable {left right : Value} {xs rows : List Value} {k m n : Nat}

theorem vectorVector_summed (hl : Integers [k] left) (hr : Integers [k] right) :
    Summed [] (productTerms left right k []) (vectorVector left right) := by
  have ⟨xs, hxs, _⟩ := hl
  have ⟨ys, hys, _⟩ := hr
  subst hxs hys
  show Summed [] _ (dotItems xs ys)
  rw [dotItems_terms hl hr]
  exact summed_entry _

theorem columnEntries_summed (hx : Integers [k] (array xs)) (hr : Integers [k, n] (array rows)) :
    Summed [n] (productTerms (array xs) (array rows) k []) (columnEntries xs rows n) := by
  have each : ∀ (i : Nat) (hi : i < (List.range n).length),
      Summed [] (fun path => productTerms (array xs) (array rows) k [] (i :: path))
        (columnEntry xs rows (List.range n)[i]) := by
    intro i hi
    rw [List.getElem_range, columnEntry_terms (by simpa using hi) hx hr]
    exact summed_entry fun path => productTerms (array xs) (array rows) k [] (i :: path)
  have built := summed_array each
  rwa [List.length_range, ← bind_pure_comp] at built

theorem vectorMatrix_summed (hl : Integers [k] left) (hr : Integers [k, n] right) :
    Summed [n] (productTerms left right k []) (vectorMatrix left right n) := by
  have ⟨xs, hxs, _⟩ := hl
  have ⟨rows, hrows, _⟩ := hr
  subst hxs hrows
  exact columnEntries_summed hl hr

theorem matrixVector_summed (hl : Integers [m, k] left) (hr : Integers [k] right) :
    Summed [m] (fun path => productTerms left right k (path.take 1) (path.drop 1))
      (matrixVector left right) := by
  obtain ⟨rows, rfl, rfl, hrows⟩ := hl
  have ⟨ys, hys, _⟩ := hr
  subst hys
  rw [matrixVector_arrays]
  apply summed_array
  intro i hi
  have hrow := hrows _ (List.getElem_mem hi)
  simp only [List.take_succ_cons, List.drop_succ_cons, List.take_zero, List.drop_zero,
    productTerms_item hi]
  obtain ⟨xs, hxs, -⟩ := id hrow
  rw [hxs] at hrow ⊢
  exact vectorVector_summed hrow hr

theorem matrixMatrix_summed (hl : Integers [m, k] left) (hr : Integers [k, n] right) :
    Summed [m, n] (fun path => productTerms left right k (path.take 1) (path.drop 1))
      (matrixMatrix left right n) := by
  obtain ⟨rows, rfl, rfl, hrows⟩ := hl
  have ⟨rights, hrights, _⟩ := hr
  subst hrights
  rw [matrixMatrix_arrays]
  apply summed_array
  intro i hi
  have hrow := hrows _ (List.getElem_mem hi)
  simp only [List.take_succ_cons, List.drop_succ_cons, List.take_zero, List.drop_zero,
    productTerms_item hi]
  obtain ⟨xs, hxs, -⟩ := id hrow
  rw [hxs] at hrow ⊢
  exact columnEntries_summed hrow hr

end

/-! ## Products -/

theorem Summed.split {before after : List Nat} {terms : List Nat → List Nat → List Int}
    {x : Except Cause Value} (h : Summed (before ++ after)
      (fun path => terms (path.take before.length) (path.drop before.length)) x) :
    Yields x
      (fun w => Rectangular (before ++ after) w ∧ ∀ p q, Inside p before → Inside q after →
        Adds 0 (terms p q) ∧ ∃ a, follow w (p ++ q) = .ok (int a) ∧ a.toInt = (terms p q).sum)
      fun cause => cause = .overflow ∧
        ∃ p q, Inside p before ∧ Inside q after ∧ ¬ Adds 0 (terms p q) := by
  refine Yields.mono h (fun w hw => ⟨hw.1, fun p q hp hq => ?_⟩) fun cause hc => ?_
  · have entry := hw.2 (p ++ q) (List.rel_append hp hq)
    dsimp only at entry
    rwa [List.take_left' hp.length_eq, List.drop_left' hp.length_eq] at entry
  · obtain ⟨hcause, path, hp, hadds⟩ := hc
    exact ⟨hcause, _, _, List.forall₂_take_append path before after hp,
      List.forall₂_drop_append path before after hp, hadds⟩

def EntriesAdd (left right : Value) (before : List Nat) (k : Nat) (after : List Nat) : Prop :=
  ∀ p q, Inside p before → Inside q after → Adds 0 (productTerms left right k p q)

section
variable {left right : Value} {ls rs before after : List Nat} {k : Nat}

theorem product_entries (hls : left.shape? = some (before ++ [k]))
    (hrs : right.shape? = some (k :: after)) (hl : Integers (before ++ [k]) left)
    (hr : Integers (k :: after) right) (hb : before.length ≤ 1) (ha : after.length ≤ 1) :
    Yields (left.product right)
      (fun w => Rectangular (before ++ after) w ∧ ∀ p q, Inside p before → Inside q after →
        Adds 0 (productTerms left right k p q) ∧
        ∃ a, follow w (p ++ q) = .ok (int a) ∧ a.toInt = (productTerms left right k p q).sum)
      fun cause => cause = .overflow ∧ ∃ p q, Inside p before ∧ Inside q after ∧
        ¬ Adds 0 (productTerms left right k p q) := by
  apply Summed.split
  match before, hb, after, ha with
  | [], _, [], _ =>
    rw [product_vectors hls hrs]
    exact vectorVector_summed hl hr
  | [], _, [n], _ =>
    rw [product_vector_matrix hls hrs]
    exact vectorMatrix_summed hl hr
  | [m], _, [], _ =>
    rw [product_matrix_vector hls hrs]
    exact matrixVector_summed hl hr
  | [m], _, [n], _ =>
    rw [product_matrices hls hrs]
    exact matrixMatrix_summed hl hr

theorem product_mismatch (hls : left.shape? = some ls) (hrs : right.shape? = some rs)
    (h : 2 < ls.length ∨ 2 < rs.length ∨ ls.getLast? ≠ rs.head?) :
    left.product right = .error (.shapeMismatch ls rs) := by
  have differ : ∀ {k k' : Nat} (x : Except Cause Value), ls.getLast? = some k →
      rs.head? = some k' → ls.length ≤ 2 ∧ rs.length ≤ 2 →
      (if k = k' then x else throw (.shapeMismatch ls rs)) = .error (.shapeMismatch ls rs) := by
    intro k k' x hk hk' hn
    apply if_neg
    intro hkk
    subst hkk
    rw [hk, hk'] at h
    obtain h | h | h := h
    · omega
    · omega
    · exact h rfl
  unfold product
  rw [shape_eq_ok_iff.mpr hls, shape_eq_ok_iff.mpr hrs]
  dsimp only [bind, Except.bind]
  split
  · exact differ _ rfl rfl (by simp)
  · exact differ _ rfl rfl (by simp)
  · exact differ _ rfl rfl (by simp)
  · exact differ _ rfl rfl (by simp)
  · rfl

/-- The last axis on the left is the first on the right. -/
theorem shapes_meet (hls : left.shape? = some ls) (hl : left.isArray = true)
    (h : ls.getLast? = rs.head?) : ∃ before k after, ls = before ++ [k] ∧ rs = k :: after := by
  have hne := shape?_ne_nil hl hls
  rw [List.getLast?_eq_some_getLast hne] at h
  obtain ⟨after, hrs⟩ := List.head?_eq_some_iff.mp h.symm
  exact ⟨ls.dropLast, ls.getLast hne, after, (List.dropLast_append_getLast hne).symm, hrs⟩

theorem result_axes (hls : left.shape? = some (before ++ [k])) (hb : before.length ≤ 1)
    (ha : after.length ≤ 1) : 0 ∉ (before ++ after).dropLast := by
  have hz := zero_not_mem_of_shape? hls
  rw [List.dropLast_concat] at hz
  match before, hb, after, ha with
  | [], _, [], _ => simp
  | [], _, [n], _ => simp
  | [m], _, [], _ => simp
  | [m], _, [n], _ => exact hz

theorem product_outcome (hls : left.shape? = some (before ++ [k]))
    (hrs : right.shape? = some (k :: after)) (hl : Integers (before ++ [k]) left)
    (hr : Integers (k :: after) right) (hb : before.length ≤ 1) (ha : after.length ≤ 1) :
    (∃ w, left.product right = .ok w ∧ EntriesAdd left right before k after ∧
      w.shape? = some (before ++ after) ∧ ∀ p q, Inside p before → Inside q after →
        ∃ a, follow w (p ++ q) = .ok (int a) ∧ a.toInt = (productTerms left right k p q).sum) ∨
    left.product right = .error .overflow ∧ ¬ EntriesAdd left right before k after := by
  have outcome := product_entries hls hrs hl hr hb ha
  cases hw : left.product right with
  | ok w =>
    rw [hw] at outcome
    obtain ⟨hrect, hentries⟩ := outcome
    have hshape := shape?_of_rectangular (result_axes hls hb ha) hrect
    exact .inl ⟨w, rfl, fun p q hp hq => (hentries p q hp hq).1, hshape,
      fun p q hp hq => (hentries p q hp hq).2⟩
  | error cause =>
    rw [hw] at outcome
    obtain ⟨rfl, p, q, hp, hq, hadds⟩ := outcome
    exact .inr ⟨rfl, fun h => hadds (h p q hp hq)⟩

end

/-- **Products of integers are exact.** Two arrays of integers have shapes that do not match if
one has more than two axes or the last axis on the left is not the first on the right.
Otherwise the product has the axes that do not meet, and its entries are the exact sums of
products, provided that for every entry the terms and the sums of the first terms are in
the range of integers; if not, it overflows. -/
theorem product_exact {left right : Value} {ls rs : List Nat}
    (hla : left.isArray = true) (hl : ∀ leaf ∈ left.leaves, leaf.kind = .int)
    (hr : ∀ leaf ∈ right.leaves, leaf.kind = .int)
    (hls : left.shape = .ok ls) (hrs : right.shape = .ok rs) (line : Nat) (m : Machine) :
    (Eval.atLine line (left.product right) m =
        .error (.atLine line (.shapeMismatch ls rs)) m ↔
      2 < ls.length ∨ 2 < rs.length ∨ ls.getLast? ≠ rs.head?) ∧
    ∀ before k after, ls = before ++ [k] → rs = k :: after → ls.length ≤ 2 → rs.length ≤ 2 →
      ((∃ w, Eval.atLine line (left.product right) m = .ok w m) ↔
        EntriesAdd left right before k after) ∧
      (∀ w, Eval.atLine line (left.product right) m = .ok w m →
        w.shape = .ok (before ++ after) ∧ ∀ p q, Inside p before → Inside q after →
          ∃ a, follow w (p ++ q) = .ok (int a) ∧
            a.toInt = (productTerms left right k p q).sum) ∧
      (¬ EntriesAdd left right before k after →
        Eval.atLine line (left.product right) m = .error (.atLine line .overflow) m) := by
  rw [shape_eq_ok_iff] at hls hrs
  have hli : Integers ls left := nest_of_leaves (rectangular_of_shape? hls) hl
  have hri : Integers rs right := nest_of_leaves (rectangular_of_shape? hrs) hr
  refine ⟨⟨fun h => ?_, fun h => ?_⟩, fun before k after hbefore hafter hln hrn => ?_⟩
  · by_contra hfit
    simp only [not_or, Nat.not_lt, ne_eq, not_not] at hfit
    obtain ⟨hln, hrn, hmeet⟩ := hfit
    obtain ⟨before, k, after, rfl, rfl⟩ := shapes_meet hls hla hmeet
    have hb : before.length ≤ 1 := by simpa using hln
    have ha : after.length ≤ 1 := by simpa using hrn
    obtain ⟨w, hw, -⟩ | ⟨hw, -⟩ := product_outcome hls hrs hli hri hb ha
    · rw [hw] at h
      cases h
    · rw [hw] at h
      cases h
  · rw [product_mismatch hls hrs h]
    rfl
  · subst hbefore hafter
    have hb : before.length ≤ 1 := by simpa using hln
    have ha : after.length ≤ 1 := by simpa using hrn
    obtain ⟨w, hw, hadd, hshape, hentries⟩ | ⟨hw, hadd⟩ := product_outcome hls hrs hli hri hb ha
    · rw [hw]
      refine ⟨⟨fun _ => hadd, fun _ => ⟨w, rfl⟩⟩, fun w' hw' => ?_, fun hn => absurd hadd hn⟩
      cases hw'
      exact ⟨shape_eq_ok_iff.mpr hshape, hentries⟩
    · rw [hw]
      refine ⟨⟨fun h => ?_, fun h => absurd h hadd⟩, fun w h => ?_, fun _ => rfl⟩
      · obtain ⟨w, h⟩ := h
        cases h
      · cases h

/-- The total is in range, but the sum of the first two terms is not. -/
theorem product_exact_order :
    let big : Int64 := 4611686018427387904
    let left := array [int big, int big, int (-big)]
    let right := array [int 1, int 1, int 1]
    let m : Machine := .unlimited
    (∀ leaf ∈ left.leaves, leaf.kind = .int) ∧ (∀ leaf ∈ right.leaves, leaf.kind = .int) ∧
      left.shape = .ok [3] ∧ right.shape = .ok [3] ∧
      (productTerms left right 3 [] []).sum = big.toInt ∧
      Eval.atLine 7 (left.product right) m = .error (.atLine 7 .overflow) m := by
  intro big left right m
  have hl : ∀ leaf ∈ left.leaves, leaf.kind = .int := by decide
  have hr : ∀ leaf ∈ right.leaves, leaf.kind = .int := by decide
  obtain ⟨-, h⟩ := product_exact rfl hl hr rfl rfl 7 m
  obtain ⟨-, -, hoverflow⟩ := h [] 3 [] rfl rfl (by decide) (by decide)
  refine ⟨hl, hr, rfl, rfl, by decide, hoverflow fun hadd => ?_⟩
  have second := (hadd [] [] .nil .nil).2 2
  revert second
  unfold Integer.Fits
  decide

end Value
end MatrixScript
