import MatrixScript.Proofs.Alignment
import MatrixScript.Proofs.Entries
import Mathlib.Data.List.Lex

/-!
# Operators entry by entry

Two values of one shape are combined by an operation on their entries: the entry of the
result at a path comes from the two entries there, and the first path at which the
operation fails decides the fault (`zipLeaves_pointwise`). Paths are taken in
lexicographic order, which goes along the rows. A scalar that meets an array stands
for the array filled with it (`zipLeaves_filled`), whether or not the array has a shape.
-/

namespace MatrixScript

def BinaryOp.scalar (op : BinaryOp) : Value → Value → Except Cause Value :=
  if op.arithmetic?.isSome then Value.arithmetic op else Value.comparison op

theorem apply_eq_zipLeaves {op : BinaryOp} (hop : op ∈ BinaryOp.elementwise) (v w : Value) :
    op.apply v w = Value.zipLeaves op.scalar v w := by
  cases op <;> first | rfl | simp [BinaryOp.elementwise] at hop

theorem scalar_scalarly (op : BinaryOp) (a b : Value) :
    Scalarly (op.scalar a b) (·.isArray = false) := by
  unfold BinaryOp.scalar
  split
  · exact Value.arithmetic_isArray op a b
  · exact Value.comparison_isArray op a b

theorem scalar_yields (op : BinaryOp) (a b : Value) :
    Yields (op.scalar a b) (·.isArray = false) fun _ => True :=
  (scalar_scalarly op a b).mono (fun _ h => h) fun _ _ => trivial

namespace Value

/-! ## Entries of a result -/

def pointAt (f : Value → Value → Except Cause Value) (v w : Value) (path : List Nat) :
    Except Cause Value := do
  f (← follow v path) (← follow w path)

/-- A computation for every path inside a shape fails at this one, and at none before it. -/
structure FirstFailure (x : List Nat → Except Cause Value) (sizes path : List Nat) (cause : Cause) :
    Prop where
  inside : Inside path sizes
  fails : x path = .error cause
  before : ∀ q, Inside q sizes → q < path → ∃ a, x q = .ok a

section
variable {f : Value → Value → Except Cause Value} {sizes : List Nat} {v w : Value}

theorem pointAt_item {xs ys : List Value} {i : Nat} (hx : i < xs.length) (hy : i < ys.length)
    (path : List Nat) : pointAt f (array xs) (array ys) (i :: path) = pointAt f xs[i] ys[i] path := by
  unfold pointAt
  rw [follow_item hx, follow_item hy]

theorem FirstFailure.unique {x : List Nat → Except Cause Value} {p q : List Nat} {cause cause' : Cause}
    (h : FirstFailure x sizes p cause) (h' : FirstFailure x sizes q cause') : cause = cause' := by
  rcases lt_trichotomy p q with hlt | heq | hgt
  · obtain ⟨a, ha⟩ := h'.before p h.inside hlt
    rw [h.fails] at ha
    cases ha
  · subst heq
    exact Except.error.inj (h.fails.symm.trans h'.fails)
  · obtain ⟨a, ha⟩ := h.before q h'.inside hgt
    rw [h'.fails] at ha
    cases ha

/-- Where all items before have every entry, the first failure inside an item is the first of all. -/
theorem FirstFailure.item {xs ys : List Value} {i n : Nat} {path : List Nat} {cause : Cause}
    (hx : xs.length = n) (hy : ys.length = n) (hi : i < n)
    (h : FirstFailure (pointAt f xs[i] ys[i]) sizes path cause)
    (before : ∀ (j : Nat) (hj : j < i) (q : List Nat), Inside q sizes →
      ∃ a, pointAt f xs[j] ys[j] q = .ok a) :
    FirstFailure (pointAt f (array xs) (array ys)) (n :: sizes) (i :: path) cause where
  inside := .cons hi h.inside
  fails := by rw [pointAt_item (by omega) (by omega), h.fails]
  before := by
    intro q hq hlt
    cases hq with
    | @cons j _ q _ hj hq =>
      rw [pointAt_item (by omega) (by omega)]
      rcases List.cons_lt_cons_iff.mp hlt with hji | ⟨rfl, hrest⟩
      · exact before j hji q hq
      · exact h.before q hq hrest

theorem zipLeaves_items {xs ys : List Value} (h : xs.length = ys.length) :
    zipLeaves f (array xs) (array ys) =
      array <$> (xs.zip ys).mapM fun p => zipLeaves f p.1 p.2 := by
  rw [zipLeaves, if_pos h, zipAllLeaves_eq, ← bind_pure_comp]

def Pointwise (f : Value → Value → Except Cause Value) (sizes : List Nat) (v w : Value) : Prop :=
  Yields (zipLeaves f v w)
    (fun u => Rectangular sizes u ∧ ∀ path, Inside path sizes → pointAt f v w path = follow u path)
    fun cause => ∃ path, FirstFailure (pointAt f v w) sizes path cause

theorem pointwise_scalars (hv : v.isArray = false) (hw : w.isArray = false)
    (hf : Yields (f v w) (·.isArray = false) fun _ => True) : Pointwise f [] v w := by
  have here : pointAt f v w [] = f v w := rfl
  unfold Pointwise
  rw [zipLeaves_scalar f hv, mapLeaves_scalar _ hw]
  cases hfvw : f v w with
  | ok u =>
    rw [hfvw] at here hf
    refine ⟨hf, fun path hp => ?_⟩
    cases hp
    exact here
  | error cause =>
    rw [hfvw] at here
    exact ⟨[], .nil, here, fun q _ hlt => absurd hlt (List.not_lt_nil q)⟩

theorem pointwise_arrays {xs ys : List Value} {n : Nat} (hx : xs.length = n) (hy : ys.length = n)
    (items : ∀ (i : Nat) (hi : i < n), Pointwise f sizes xs[i] ys[i]) :
    Pointwise f (n :: sizes) (array xs) (array ys) := by
  have hzip : (xs.zip ys).length = n := by rw [List.length_zip, hx, hy, Nat.min_self]
  have first := yields_mapM_first (f := fun p => zipLeaves f p.1 p.2) (xs.zip ys)
  simp only [hzip, List.getElem_zip] at first
  unfold Pointwise
  rw [zipLeaves_items (hx.trans hy.symm)]
  cases hm : (xs.zip ys).mapM fun p => zipLeaves f p.1 p.2 with
  | ok us =>
    rw [hm] at first
    obtain ⟨hlen, hus⟩ := first
    have entries : ∀ (i : Nat) (hi : i < n) (hi' : i < us.length), Rectangular sizes us[i] ∧
        ∀ path, Inside path sizes → pointAt f xs[i] ys[i] path = follow us[i] path := by
      intro i hi hi'
      have hitem := items i hi
      rwa [Pointwise, hus i hi hi'] at hitem
    refine ⟨⟨us, rfl, hlen, List.forall_mem_iff_forall_getElem.mpr fun i hi => ?_⟩, ?_⟩
    · exact (entries i (by omega) hi).1
    · intro path hp
      cases hp with
      | @cons i _ path _ hi hp =>
        rw [pointAt_item (by omega) (by omega), follow_item (by omega)]
        exact (entries i hi (by omega)).2 path hp
  | error cause =>
    rw [hm] at first
    obtain ⟨i, hi, hfails, hbefore⟩ := first
    have hitem := items i hi
    rw [Pointwise, hfails] at hitem
    obtain ⟨path, hpath⟩ := hitem
    refine ⟨i :: path, hpath.item hx hy hi fun j hj q hq => ?_⟩
    obtain ⟨u, hu⟩ := hbefore j hj
    have earlier := items j (by omega)
    rw [Pointwise, hu] at earlier
    obtain ⟨a, ha, -⟩ := entry_exists earlier.1 hq
    exact ⟨a, (earlier.2 q hq).trans ha⟩

theorem zipLeaves_pointwise
    (hf : ∀ a b, a.isArray = false → b.isArray = false →
      Yields (f a b) (·.isArray = false) fun _ => True) :
    ∀ {sizes : List Nat} {v w : Value}, Rectangular sizes v → Rectangular sizes w →
      Pointwise f sizes v w
  | [], v, w, hv, hw => pointwise_scalars hv hw (hf v w hv hw)
  | _ :: _, _, _, ⟨_, rfl, hx, hxs⟩, ⟨_, rfl, hy, hys⟩ =>
    pointwise_arrays hx hy fun _ _ =>
      zipLeaves_pointwise hf (hxs _ (List.getElem_mem _)) (hys _ (List.getElem_mem _))

/-- What is computed entry by entry has a result exactly if all entries have one. -/
theorem Pointwise.exists_ok_iff (h : Pointwise f sizes v w) : (∃ u, zipLeaves f v w = .ok u) ↔
    ∀ path, Inside path sizes → ∃ a, pointAt f v w path = .ok a := by
  unfold Pointwise at h
  cases hz : zipLeaves f v w with
  | ok u =>
    rw [hz] at h
    refine ⟨fun _ path hp => ?_, fun _ => ⟨u, rfl⟩⟩
    obtain ⟨a, ha, -⟩ := entry_exists h.1 hp
    exact ⟨a, (h.2 path hp).trans ha⟩
  | error cause =>
    rw [hz] at h
    obtain ⟨path, hpath⟩ := h
    refine ⟨fun ⟨u, hu⟩ => (by cases hu), fun hall => ?_⟩
    obtain ⟨a, ha⟩ := hall path hpath.inside
    rw [hpath.fails] at ha
    cases ha

theorem Pointwise.error_iff (h : Pointwise f sizes v w) (cause : Cause) :
    zipLeaves f v w = .error cause ↔ ∃ path, FirstFailure (pointAt f v w) sizes path cause := by
  constructor
  · intro hz
    rwa [Pointwise, hz] at h
  · rintro ⟨path, hpath⟩
    cases hz : zipLeaves f v w with
    | ok u =>
      obtain ⟨a, ha⟩ := h.exists_ok_iff.mp ⟨u, hz⟩ path hpath.inside
      rw [hpath.fails] at ha
      cases ha
    | error cause' =>
      rw [Pointwise, hz] at h
      obtain ⟨path', hpath'⟩ := h
      rw [hpath'.unique hpath]

/-! ## Arrays filled with a scalar -/

mutual

def filled (c : Value) : Value → Value
  | array items => array (allFilled c items)
  | _ => c

def allFilled (c : Value) : List Value → List Value
  | [] => []
  | item :: items => filled c item :: allFilled c items

end

theorem length_allFilled (c : Value) : ∀ items : List Value, (allFilled c items).length = items.length
  | [] => rfl
  | _ :: items => congrArg (· + 1) (length_allFilled c items)

theorem zipLeaves_scalar_right {c : Value} (hc : c.isArray = false) (a : Value) :
    zipLeaves f a c = mapLeaves (f · c) a := by
  cases a with
  | array items => exact zipLeaves_array_scalar f items hc
  | _ => rw [zipLeaves_scalar f rfl, mapLeaves_scalar _ hc]; rfl

mutual

theorem mapLeaves_filled {c : Value} (hc : c.isArray = false) : ∀ a : Value,
    mapLeaves (f · c) a = zipLeaves f a (filled c a) ∧
      mapLeaves (f c) a = zipLeaves f (filled c a) a
  | array items => by
    obtain ⟨right, left⟩ := mapAllLeaves_filled hc items
    have hlen := length_allFilled c items
    rw [filled, zipLeaves, if_pos hlen.symm, zipLeaves, if_pos hlen, mapLeaves, mapLeaves, right, left]
    exact ⟨rfl, rfl⟩
  | .int _ | .real _ | .bool _ | .str _ | .range _ _ =>
    ⟨(zipLeaves_scalar_right hc _).symm, (zipLeaves_scalar f hc _).symm⟩

theorem mapAllLeaves_filled {c : Value} (hc : c.isArray = false) : ∀ items : List Value,
    mapAllLeaves (f · c) items = zipAllLeaves f items (allFilled c items) ∧
      mapAllLeaves (f c) items = zipAllLeaves f (allFilled c items) items
  | [] => ⟨rfl, rfl⟩
  | item :: items => by
    obtain ⟨right, left⟩ := mapLeaves_filled hc item
    obtain ⟨rights, lefts⟩ := mapAllLeaves_filled hc items
    rw [allFilled, zipAllLeaves, zipAllLeaves, mapAllLeaves, mapAllLeaves, right, left, rights, lefts]
    exact ⟨rfl, rfl⟩

end

theorem zipLeaves_filled {c : Value} (hc : c.isArray = false) (a : Value) :
    zipLeaves f a c = zipLeaves f a (filled c a) ∧ zipLeaves f c a = zipLeaves f (filled c a) a :=
  ⟨(zipLeaves_scalar_right hc a).trans (mapLeaves_filled hc a).1,
    (zipLeaves_scalar f hc a).trans (mapLeaves_filled hc a).2⟩

end

/-- **Element by element.** For two values of one shape the result has that shape, and its entries
come from theirs: it is there exactly if the operation succeeds on all of them, and otherwise the
fault is that of the first path, along the rows, where it fails. Indices lead to the entries at
their positions. An array meets a scalar as it meets the array that is filled with it. -/
theorem apply_pointwise {op : BinaryOp} (hop : op ∈ BinaryOp.elementwise) :
    (∀ (l r : Value) (sizes : List Nat), l.shape = .ok sizes → r.shape = .ok sizes →
      ((∃ w, op.apply l r = .ok w) ↔
        ∀ path, Inside path sizes → ∃ x, pointAt op.scalar l r path = .ok x) ∧
      (∀ w, op.apply l r = .ok w → w.shape = .ok sizes ∧
        (∀ path, Inside path sizes → pointAt op.scalar l r path = follow w path) ∧
        ∀ p, InRange p sizes → w.element p = pointAt op.scalar l r (positions p)) ∧
      (∀ cause, op.apply l r = .error cause ↔
        ∃ path, FirstFailure (pointAt op.scalar l r) sizes path cause) ∧
      ∀ p, InRange p sizes → ∃ a b, l.element p = .ok a ∧ r.element p = .ok b ∧
        a.isArray = false ∧ b.isArray = false ∧
        pointAt op.scalar l r (positions p) = op.scalar a b) ∧
    ∀ a c : Value, c.isArray = false →
      op.apply a c = op.apply a (filled c a) ∧ op.apply c a = op.apply (filled c a) a := by
  refine ⟨fun l r sizes hl hr => ?_, fun a c hc => ?_⟩
  · rw [shape_eq_ok_iff] at hl hr
    have hv := rectangular_of_shape? hl
    have hw := rectangular_of_shape? hr
    have h := zipLeaves_pointwise (fun a b _ _ => scalar_yields op a b) hv hw
    rw [apply_eq_zipLeaves hop]
    refine ⟨h.exists_ok_iff, fun w hz => ?_, h.error_iff, fun p hp => ?_⟩
    · rw [Pointwise, hz] at h
      obtain ⟨hrect, hentries⟩ := h
      have hs := shape?_of_rectangular (zero_not_mem_of_shape? hl) hrect
      refine ⟨shape_eq_ok_iff.mpr hs, hentries, fun p hp => ?_⟩
      rw [element_entry hrect hp, hentries _ (positions_inside hp)]
    · obtain ⟨a, ha, hascalar⟩ := entry_exists hv (positions_inside hp)
      obtain ⟨b, hb, hbscalar⟩ := entry_exists hw (positions_inside hp)
      refine ⟨a, b, ?_, ?_, hascalar, hbscalar, ?_⟩
      · rw [element_entry hv hp, ha]
      · rw [element_entry hw hp, hb]
      · rw [pointAt, ha, hb]
        rfl
  · rw [apply_eq_zipLeaves hop, apply_eq_zipLeaves hop, apply_eq_zipLeaves hop, apply_eq_zipLeaves hop]
    exact zipLeaves_filled hc a

/-- A sum overflows before one meets a word in the next row; an array that is not rectangular
meets a scalar. -/
theorem apply_pointwise_rows :
    let l := array [array [int 1, int 2], array [int 3, int 4]]
    let r := array [array [int 5, int 9223372036854775807], array [str "x", int 6]]
    let a := array [array [int 1], array [], int 2]
    BinaryOp.add ∈ BinaryOp.elementwise ∧ l.shape = .ok [2, 2] ∧ r.shape = .ok [2, 2] ∧
      BinaryOp.add.apply l r = .error .overflow ∧
      (∃ w, BinaryOp.add.apply l l = .ok w ∧ w.shape = .ok [2, 2] ∧ w.element [1, 0] = .ok (int 6)) ∧
      BinaryOp.add.apply a (int 7) = BinaryOp.add.apply a (array [array [int 7], array [], int 7]) := by
  intro l r a
  have hadd : BinaryOp.add ∈ BinaryOp.elementwise := by decide
  obtain ⟨hshape, hfilled⟩ := apply_pointwise hadd
  obtain ⟨-, -, herror, -⟩ := hshape l r [2, 2] rfl rfl
  obtain ⟨-, hentries, -⟩ := hshape l l [2, 2] rfl rfl
  have first : FirstFailure (pointAt BinaryOp.add.scalar l r) [2, 2] [0, 1] .overflow := by
    refine ⟨by decide, rfl, fun q hq hlt => ?_⟩
    obtain ⟨i, j, rfl⟩ := List.length_eq_two.mp hq.length_eq
    have hzero : i = 0 ∧ j = 0 := by simpa [List.cons_lt_cons_iff] using hlt
    rw [hzero.1, hzero.2]
    exact ⟨int 6, rfl⟩
  obtain ⟨hs, -, helement⟩ := hentries _ rfl
  exact ⟨hadd, rfl, rfl, (herror _).mpr ⟨[0, 1], first⟩,
    ⟨_, rfl, hs, helement [1, 0] (by decide)⟩, (hfilled a (int 7) rfl).1⟩

end Value

end MatrixScript
