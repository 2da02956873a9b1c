import Mathlib.Data.List.Forall2
import MatrixScript.Proofs.Leaves

/-!
# Matrices

`ArrayOf n P v`: the value is an array of `n` items in `P`, so a matrix is an
array of arrays of numbers. With at least one row and one column this is what
`shape` and `leaves` see of it (`isMatrix_iff`). Between matrices of one kind
whose sizes fit, the operators yield a matrix of that kind, or a number leaves
the range of integers; they fail in no other way.
-/

namespace MatrixScript

def Cause.isLimit : Cause → Bool
  | overflow => true
  | sizeTooLarge _ _ => true
  | _ => false

abbrev Limited {α : Type} (x : Except Cause α) (ok : α → Prop) : Prop :=
  Yields x ok fun cause => cause.isLimit = true

def ValueKind.isNumeric : ValueKind → Bool
  | int => true
  | real => true
  | _ => false

namespace Value

def ArrayOf (n : Nat) (P : Value → Prop) (v : Value) : Prop :=
  ∃ items, v = array items ∧ items.length = n ∧ ∀ item ∈ items, P item

/-- Arrays of these lengths inside each other, with items in `P` at the bottom. -/
def Nest (P : Value → Prop) : List Nat → Value → Prop
  | [] => P
  | n :: sizes => ArrayOf n (Nest P sizes)

def IsMatrix (k : ValueKind) (m n : Nat) : Value → Prop := ArrayOf m (ArrayOf n (·.kind = k))

section
variable {k : ValueKind} {m n : Nat} {P Q : Value → Prop} {v w : Value}

theorem ArrayOf.mono (h : ArrayOf n P v) (hPQ : ∀ item, P item → Q item) : ArrayOf n Q v := by
  obtain ⟨items, rfl, hn, hi⟩ := h
  exact ⟨items, rfl, hn, fun item hm => hPQ item (hi item hm)⟩

/-! ## Shapes -/

theorem length_of_shape? {items : List Value} {sizes : List Nat}
    (h : (array items).shape? = some sizes) :
    ∃ inner, sizes = items.length :: inner := by
  rw [shape?] at h
  cases items with
  | nil => cases h; exact ⟨[], rfl⟩
  | cons first others =>
    rw [itemsShape?] at h
    cases hf : first.shape? with
    | none => rw [hf] at h; cases h
    | some inner =>
      simp only [hf, Option.bind_eq_bind, Option.bind_some] at h
      split at h
      · cases h; exact ⟨inner, rfl⟩
      · cases h

theorem shape?_eq_nil_iff : v.shape? = some [] ↔ v.isArray = false := by
  cases v with
  | array items =>
    refine ⟨fun h => ?_, fun h => by cases h⟩
    obtain ⟨_, hs⟩ := length_of_shape? h
    cases hs
  | _ => exact ⟨fun _ => rfl, fun _ => rfl⟩

theorem allOfShape_iff {sizes : List Nat} :
    ∀ {items : List Value}, allOfShape sizes items = true ↔ ∀ item ∈ items, item.shape? = some sizes
  | [] => by simp [allOfShape]
  | item :: items => by
    rw [allOfShape, Bool.and_eq_true, allOfShape_iff, beq_iff_eq, List.forall_mem_cons]

/-- The first size of an array that has items, and the sizes below. -/
theorem shape?_eq_cons_iff {sizes : List Nat} (hn : 1 ≤ n) :
    v.shape? = some (n :: sizes) ↔ ArrayOf n (·.shape? = some sizes) v := by
  cases v with
  | array items =>
    rw [shape?]
    cases items with
    | nil =>
      constructor
      · intro h
        cases h
        cases hn
      · rintro ⟨_, hitems, rfl, -⟩
        cases hitems
        cases hn
    | cons first others =>
      rw [itemsShape?]
      constructor
      · intro h
        cases hf : first.shape? with
        | none => rw [hf] at h; cases h
        | some inner =>
          simp only [hf, Option.bind_eq_bind, Option.bind_some] at h
          split at h
          · rename_i hall
            cases h
            exact ⟨_, rfl, rfl, List.forall_mem_cons.mpr ⟨hf, allOfShape_iff.mp hall⟩⟩
          · cases h
      · rintro ⟨_, hitems, rfl, hi⟩
        cases hitems
        obtain ⟨hf, hall⟩ := List.forall_mem_cons.mp hi
        rw [hf, Option.bind_eq_bind, Option.bind_some, if_pos (allOfShape_iff.mpr hall)]
        rfl
  | _ =>
    constructor
    · intro h
      cases h
    · rintro ⟨_, hv, -⟩
      cases hv

theorem shape_eq_ok_iff {sizes : List Nat} : v.shape = .ok sizes ↔ v.shape? = some sizes := by
  unfold shape
  cases v.shape? <;> simp

theorem forall_allLeaves_iff :
    ∀ {items : List Value}, (∀ leaf ∈ allLeaves items, P leaf) ↔
      ∀ item ∈ items, ∀ leaf ∈ item.leaves, P leaf
  | [] => by simp [allLeaves]
  | item :: items => by
    rw [allLeaves, List.forall_mem_append, forall_allLeaves_iff, List.forall_mem_cons]

theorem arrayOf_leaves_iff :
    (ArrayOf n P v ∧ ∀ leaf ∈ v.leaves, Q leaf) ↔
      ArrayOf n (fun item => P item ∧ ∀ leaf ∈ item.leaves, Q leaf) v := by
  constructor
  · rintro ⟨⟨items, rfl, hn, hi⟩, hl⟩
    rw [leaves, forall_allLeaves_iff] at hl
    exact ⟨items, rfl, hn, fun item hm => ⟨hi item hm, hl item hm⟩⟩
  · rintro ⟨items, rfl, hn, hi⟩
    rw [leaves, forall_allLeaves_iff]
    exact ⟨⟨items, rfl, hn, fun item hm => (hi item hm).1⟩, fun item hm => (hi item hm).2⟩

theorem arrayOf_congr (h : ∀ item, P item ↔ Q item) : ArrayOf n P v ↔ ArrayOf n Q v :=
  ⟨fun hv => hv.mono fun item => (h item).mp, fun hv => hv.mono fun item => (h item).mpr⟩

/-- A matrix that is not empty, by its shape and its scalars. -/
theorem isMatrix_iff (hk : k ≠ .array) (hm : 1 ≤ m) (hn : 1 ≤ n) :
    IsMatrix k m n v ↔ v.shape = .ok [m, n] ∧ ∀ leaf ∈ v.leaves, leaf.kind = k := by
  have entry : ∀ item : Value,
      item.kind = k ↔ item.shape? = some [] ∧ ∀ leaf ∈ item.leaves, leaf.kind = k := by
    intro item
    rw [shape?_eq_nil_iff]
    constructor
    · intro h
      have hs : item.isArray = false := isArray_of_kind (by rw [h]; exact hk)
      rw [leaves_scalar hs, List.forall_mem_singleton]
      exact ⟨hs, h⟩
    · rintro ⟨hs, hl⟩
      rwa [leaves_scalar hs, List.forall_mem_singleton] at hl
  rw [shape_eq_ok_iff, shape?_eq_cons_iff hm, arrayOf_leaves_iff, IsMatrix]
  refine arrayOf_congr fun row => ?_
  rw [shape?_eq_cons_iff hn, arrayOf_leaves_iff]
  exact arrayOf_congr entry

/-! ## Element by element -/

section
variable {err : Cause → Prop}

theorem mapM_arrayOf {α : Type} {f : α → Except Cause Value} {l : List α}
    (h : ∀ a ∈ l, Yields (f a) P err) :
    Yields (do return array (← l.mapM f)) (ArrayOf l.length P) err :=
  (yields_mapM h).bind fun items hi => ⟨items, rfl, hi⟩

theorem mapLeaves_arrayOf {f : Value → Except Cause Value}
    (hf : ∀ a, P a → Yields (mapLeaves f a) Q err) (hv : ArrayOf n P v) :
    Yields (mapLeaves f v) (ArrayOf n Q) err := by
  obtain ⟨items, rfl, rfl, hi⟩ := hv
  rw [mapLeaves, mapAllLeaves_eq]
  exact mapM_arrayOf fun a ha => hf a (hi a ha)

theorem zipLeaves_arrayOf {f : Value → Value → Except Cause Value}
    (hf : ∀ a b, P a → P b → Yields (zipLeaves f a b) Q err) (hv : ArrayOf n P v)
    (hw : ArrayOf n P w) : Yields (zipLeaves f v w) (ArrayOf n Q) err := by
  obtain ⟨lefts, rfl, rfl, hl⟩ := hv
  obtain ⟨rights, rfl, hlen, hr⟩ := hw
  rw [zipLeaves, if_pos hlen.symm, zipAllLeaves_eq]
  have each : ∀ p ∈ lefts.zip rights, Yields (zipLeaves f p.1 p.2) Q err := by
    intro p hp
    have hp' := List.of_mem_zip hp
    exact hf p.1 p.2 (hl p.1 hp'.1) (hr p.2 hp'.2)
  have zipped := mapM_arrayOf each
  rwa [List.length_zip, hlen, Nat.min_self] at zipped

end

/-! ## Numbers -/

theorem ofInteger?_limited (i? : Option Int64) : Limited (ofInteger? i?) (·.kind = .int) := by
  cases i? <;> rfl

theorem isArray_of_numeric (hk : k.isNumeric = true) (hv : v.kind = k) : v.isArray = false :=
  isArray_of_kind fun h => by rw [← hv, h] at hk; cases hk

theorem arithmetic_limited {op : BinaryOp}
    (hop : op.arithmetic? ∈ [some .add, some .sub, some .mul])
    (hk : k.isNumeric = true) (hv : v.kind = k) (hw : w.kind = k) :
    Limited (arithmetic op v w) (·.kind = k) := by
  subst hv
  cases v with
  | int a =>
    obtain ⟨b, rfl⟩ := eq_int_of_kind hw
    unfold arithmetic
    dsimp only
    split
    · exact ofInteger?_limited _
    · exact ofInteger?_limited _
    · exact ofInteger?_limited _
    · rename_i h; simp [h] at hop
    · rename_i h; simp [h] at hop
  | real a =>
    cases w with
    | real b =>
      have read : ∀ x, Limited (real x).toReal fun _ => True := fun _ => trivial
      show Limited (realArithmetic op (real a) (real b)) _
      unfold realArithmetic
      refine (read a).bind fun x _ => (read b).bind fun y _ => ?_
      split
      · rfl
      · rfl
      · rfl
      · rename_i h; simp [h] at hop
      · rename_i h; simp [h] at hop
    | _ => cases hw
  | _ => cases hk

theorem negateLeaf_limited (hk : k.isNumeric = true) (hv : v.kind = k) :
    Limited (negateLeaf v) (·.kind = k) := by
  subst hv
  cases v with
  | int a => exact ofInteger?_limited _
  | real a => rfl
  | _ => cases hk

/-! ## Products -/

theorem column_inside {items : List Value} {col : Nat} (h : col < items.length) :
    column (array items) col = .ok items[col] := by
  unfold column
  simp only [toItems, bind, Except.bind, List.getElem?_eq_getElem h]
  rfl

theorem column_found {p col : Nat} (hcol : col < p) : ∀ {rows : List Value},
    (∀ row ∈ rows, ArrayOf p P row) →
      ∃ ys, List.Forall₂ (fun row y => column row col = .ok y) rows ys ∧ ∀ y ∈ ys, P y
  | [], _ => ⟨[], .nil, by simp⟩
  | _ :: _, h => by
    obtain ⟨⟨items, rfl, rfl, hi⟩, hrows⟩ := List.forall_mem_cons.mp h
    obtain ⟨ys, hys, hP⟩ := column_found hcol hrows
    exact ⟨items[col] :: ys, .cons (column_inside hcol) hys,
      List.forall_mem_cons.mpr ⟨hi _ (List.getElem_mem hcol), hP⟩⟩

/-- Where all rows have a column, an entry is a sum of products with the items in it. -/
theorem columnEntry_found {rows ys : List Value} {col : Nat}
    (h : List.Forall₂ (fun row y => column row col = .ok y) rows ys) (xs : List Value) :
    columnEntry xs rows col = dotItems xs ys := by
  unfold columnEntry dotItems
  congr 1
  induction h generalizing xs with
  | nil => rw [List.zipWith_nil_right, List.zipWith_nil_right]
  | cons hy _ ih =>
    cases xs with
    | nil => rfl
    | cons x xs =>
      rw [List.zipWith_cons_cons, List.zipWith_cons_cons, hy, ih]
      rfl

section
variable {err : Cause → Prop}
  (hmul : ∀ a b, P a → P b → Yields (arithmetic .mul a b) P err)
  (hadd : ∀ a b, P a → P b → Yields (arithmetic .add a b) P err)
  (hzero : n = 0 → P (int 0))
include hmul hadd hzero

theorem dotItems_yields {xs ys : List Value} (hx : ArrayOf n P (array xs))
    (hy : ArrayOf n P (array ys)) : Yields (dotItems xs ys) P err := by
  obtain ⟨_, hxs, hxn, hxi⟩ := hx
  obtain ⟨_, hys, hyn, hyi⟩ := hy
  cases hxs
  cases hys
  refine sum_zipWith_yields hadd ?_ fun x hx y hy => hmul x y (hxi x hx) (hyi y hy)
  rintro (rfl | rfl)
  · exact hzero hxn.symm
  · exact hzero hyn.symm

theorem columnEntries_yields {p : Nat} {xs rows : List Value} (hx : ArrayOf n P (array xs))
    (hr : ArrayOf n (ArrayOf p P) (array rows)) :
    Yields (columnEntries xs rows p) (ArrayOf p P) err := by
  obtain ⟨_, hrs, hrn, hri⟩ := hr
  cases hrs
  have entries : ∀ col ∈ List.range p, Yields (columnEntry xs rows col) P err := by
    intro col hcol
    obtain ⟨ys, hys, hy⟩ := column_found (List.mem_range.mp hcol) hri
    rw [columnEntry_found hys]
    exact dotItems_yields hmul hadd hzero hx ⟨ys, rfl, hys.length_eq.symm.trans hrn, hy⟩
  have built := mapM_arrayOf entries
  rwa [List.length_range] at built

theorem vectorVector_yields (hv : ArrayOf n P v) (hw : ArrayOf n P w) :
    Yields (vectorVector v w) P err := by
  obtain ⟨xs, rfl, hx⟩ := hv
  obtain ⟨ys, rfl, hy⟩ := hw
  exact dotItems_yields hmul hadd hzero ⟨xs, rfl, hx⟩ ⟨ys, rfl, hy⟩

theorem matrixVector_yields (hv : ArrayOf m (ArrayOf n P) v) (hw : ArrayOf n P w) :
    Yields (matrixVector v w) (ArrayOf m P) err := by
  obtain ⟨rows, rfl, rfl, hrows⟩ := hv
  obtain ⟨ys, rfl, hy⟩ := hw
  refine mapM_arrayOf fun row hrow => ?_
  obtain ⟨xs, rfl, hx⟩ := hrows row hrow
  exact dotItems_yields hmul hadd hzero ⟨xs, rfl, hx⟩ ⟨ys, rfl, hy⟩

theorem vectorMatrix_yields {p : Nat} (hv : ArrayOf n P v) (hw : ArrayOf n (ArrayOf p P) w) :
    Yields (vectorMatrix v w p) (ArrayOf p P) err := by
  obtain ⟨xs, rfl, hx⟩ := hv
  obtain ⟨rows, rfl, hrows⟩ := hw
  exact columnEntries_yields hmul hadd hzero ⟨xs, rfl, hx⟩ ⟨rows, rfl, hrows⟩

theorem matrixMatrix_yields {p : Nat} (hv : ArrayOf m (ArrayOf n P) v)
    (hw : ArrayOf n (ArrayOf p P) w) : Yields (matrixMatrix v w p) (ArrayOf m (ArrayOf p P)) err := by
  obtain ⟨lefts, rfl, rfl, hlefts⟩ := hv
  obtain ⟨rights, rfl, hrights⟩ := hw
  refine mapM_arrayOf fun row hrow => ?_
  obtain ⟨xs, rfl, hx⟩ := hlefts row hrow
  exact columnEntries_yields hmul hadd hzero ⟨xs, rfl, hx⟩ ⟨rights, rfl, hrights⟩

end

theorem product_isMatrix (hk : k.isNumeric = true) (hm : 1 ≤ m) (hn : 1 ≤ n) {p : Nat} (hp : 1 ≤ p)
    (hv : IsMatrix k m n v) (hw : IsMatrix k n p w) : Limited (v.product w) (IsMatrix k m p) := by
  have hka : k ≠ .array := fun h => by rw [h] at hk; cases hk
  have hvs := ((isMatrix_iff hka hm hn).mp hv).1
  have hws := ((isMatrix_iff hka hn hp).mp hw).1
  have computed : ∀ {op : BinaryOp}, op.arithmetic? ∈ [some .add, some .sub, some .mul] →
      ∀ a b : Value, a.kind = k → b.kind = k → Limited (arithmetic op a b) (·.kind = k) :=
    fun hop _ _ ha hb => arithmetic_limited hop hk ha hb
  unfold product
  rw [hvs, hws]
  show Limited (if n = n then matrixMatrix v w p else _) _
  rw [if_pos rfl]
  exact matrixMatrix_yields (computed (by simp [BinaryOp.arithmetic?]))
    (computed (by simp [BinaryOp.arithmetic?])) (fun h => by omega) hv hw

/-! ## Transposition -/

section
variable {err : Cause → Prop}

theorem follow_nest : ∀ {sizes path : List Nat} {v : Value}, Nest P sizes v →
    List.Forall₂ (· < ·) path sizes → Yields (follow v path) P err := by
  intro sizes
  induction sizes with
  | nil =>
    intro path v h hpath
    cases hpath
    rw [follow]
    exact h
  | cons n sizes ih =>
    intro path v h hpath
    obtain ⟨items, rfl, rfl, hi⟩ := h
    cases hpath with
    | cons hp hpath =>
      rw [follow, List.getElem?_eq_getElem hp]
      exact ih (hi _ (List.getElem_mem hp)) hpath

theorem gather_nest {source : Value} : ∀ {sizes path : List Nat},
    (∀ q, List.Forall₂ (· < ·) q sizes →
      Yields (follow source (q.reverse ++ path)) P err) →
    Yields (gather source sizes path) (Nest P sizes) err
  | [], path, h => by rw [gather]; exact h [] .nil
  | size :: sizes, path, h => by
    rw [gather]
    have each : ∀ p ∈ List.range size, Yields (gather source sizes (p :: path)) (Nest P sizes) err := by
      intro p hp
      refine gather_nest fun q hq => ?_
      have followed := h (p :: q) (.cons (List.mem_range.mp hp) hq)
      rwa [List.reverse_cons, List.append_assoc] at followed
    have built := mapM_arrayOf each
    rwa [List.length_range] at built

theorem gather_reverse {sizes : List Nat} (h : Nest P sizes v) :
    Yields (gather v sizes.reverse []) (Nest P sizes.reverse) err := by
  refine gather_nest fun q hq => ?_
  rw [List.append_nil]
  refine follow_nest h ?_
  have hq' := List.forall₂_reverse_iff.mpr hq
  rwa [List.reverse_reverse] at hq'

end

theorem transpose_isMatrix (hk : k ≠ .array) (hm : 1 ≤ m) (hn : 1 ≤ n) (hv : IsMatrix k m n v) :
    Limited v.transpose (IsMatrix k n m) := by
  have built : Limited (gather v [m, n].reverse []) (Nest (·.kind = k) [m, n].reverse) :=
    gather_reverse hv
  unfold transpose
  rw [((isMatrix_iff hk hm hn).mp hv).1]
  exact built

theorem transpose_scalar (hv : v.isArray = false) : v.transpose = .ok v := by
  cases v with
  | array items => cases hv
  | _ => rfl

/-! ## Arrays of a given size -/

theorem ofSize_isMatrix {function : Sized} (hf : function ≠ .zeros) (n : Nat) :
    IsMatrix .real n n (function.ofSize n) := by
  cases function with
  | zeros => exact absurd rfl hf
  | ones =>
    refine ⟨_, rfl, List.length_replicate, fun row hrow => ?_⟩
    rw [List.eq_of_mem_replicate hrow]
    refine ⟨_, rfl, List.length_replicate, fun entry hentry => ?_⟩
    rw [List.eq_of_mem_replicate hentry]
    rfl
  | eye =>
    refine ⟨_, rfl, by rw [List.length_map, List.length_range], fun row hrow => ?_⟩
    obtain ⟨i, -, rfl⟩ := List.mem_map.mp hrow
    refine ⟨_, rfl, by rw [List.length_map, List.length_range], fun entry hentry => ?_⟩
    obtain ⟨j, -, rfl⟩ := List.mem_map.mp hentry
    rfl

end

end Value

end MatrixScript
