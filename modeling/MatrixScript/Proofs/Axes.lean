import MatrixScript.Proofs.Matrices

/-!
# Axes of length one

A value can have fewer axes than are counted for it: a scalar counts as a vector
of one, a vector as one column, and a vector stays what it is when the axes of a
column are reversed. `Fits anywhere axes v` is what is left of a list of axes in a
value: any axis is there in full, unless its length is one and it is missing.
Without `anywhere` only axes at the end are missing.

Element by element, axes that are missing do no harm as long as none of those
after them is longer (`zipLeaves_fits`). Axes can be reversed unless this takes
missing ones from the end to the front (`transpose_fits`), and a product fits
if the axis that it sums over is longer than one (`product_fits`).
-/

namespace MatrixScript

def Cause.isMismatch : Cause → Bool
  | shapeMismatch _ _ => true
  | _ => false

abbrev Aligns {α : Type} (x : Except Cause α) (ok : α → Prop) : Prop :=
  Yields x ok fun cause => cause.isMismatch = false

theorem Scalarly.aligns {α : Type} {x : Except Cause α} {ok : α → Prop} (h : Scalarly x ok) :
    Aligns x ok := by
  refine h.mono (fun _ ha => ha) fun cause hc => ?_
  cases cause <;> first | rfl | cases hc

namespace Value

abbrev Rectangular : List Nat → Value → Prop := Nest (·.isArray = false)

/-- The sizes are the axes without some of length one. -/
inductive Thins (anywhere : Bool) : List Nat → List Nat → Prop
  | nil : Thins anywhere [] []
  | keep {n axes sizes} : Thins anywhere axes sizes → Thins anywhere (n :: axes) (n :: sizes)
  | drop {axes sizes} : (anywhere = true ∨ ∀ k ∈ axes, k = 1) → Thins anywhere axes sizes →
      Thins anywhere (1 :: axes) sizes

def Fits (anywhere : Bool) : List Nat → Value → Prop
  | [] => fun v => v.isArray = false
  | n :: axes => fun v => ArrayOf n (Fits anywhere axes) v ∨
      n = 1 ∧ (anywhere = true ∨ ∀ k ∈ axes, k = 1) ∧ Fits anywhere axes v

section
variable {anywhere : Bool} {axes sizes : List Nat} {k m n : Nat} {v w : Value} {err : Cause → Prop}

/-! ## Rectangular values -/

theorem shape_aligns (v : Value) : Aligns v.shape fun sizes => v.shape? = some sizes :=
  shape_yields (by rfl) v

theorem shape?_ne_nil (ha : v.isArray = true) (h : v.shape? = some sizes) : sizes ≠ [] := by
  rintro rfl
  rw [shape?_eq_nil_iff.mp h] at ha
  cases ha

theorem rectangular_of_shape? : ∀ {sizes : List Nat} {v : Value}, v.shape? = some sizes →
    Rectangular sizes v
  | [], _, h => shape?_eq_nil_iff.mp h
  | (n + 1) :: sizes, _, h =>
    ((shape?_eq_cons_iff (by omega)).mp h).mono fun _ hi => rectangular_of_shape? hi
  | 0 :: sizes, array items, h => by
    obtain ⟨inner, hs⟩ := length_of_shape? h
    have hlen : items.length = 0 := (List.cons.inj hs).1.symm
    refine ⟨items, rfl, hlen, fun item hm => ?_⟩
    rw [List.eq_nil_of_length_eq_zero hlen] at hm
    cases hm

/-! ## Missing axes -/

theorem Thins.refl : ∀ axes : List Nat, Thins anywhere axes axes
  | [] => .nil
  | _ :: axes => .keep (.refl axes)

theorem Thins.subset (h : Thins anywhere axes sizes) : sizes ⊆ axes := by
  induction h with
  | nil => exact List.Subset.refl _
  | keep _ ih => exact List.cons_subset_cons _ ih
  | drop _ _ ih => exact List.subset_cons_of_subset _ ih

theorem Thins.append {axes' sizes' : List Nat} (h : Thins true axes sizes)
    (h' : Thins true axes' sizes') : Thins true (axes ++ axes') (sizes ++ sizes') := by
  induction h with
  | nil => exact h'
  | keep _ ih => exact .keep ih
  | drop _ _ ih => exact .drop (.inl rfl) ih

/-- Axes are only missing at the end, so none is missing before one of another length. -/
theorem Thins.eq_of_last (h : Thins false axes sizes) (hl : axes.getLast? ≠ some 1) :
    sizes = axes := by
  induction h with
  | nil => rfl
  | @keep n axes sizes h ih =>
    cases axes with
    | nil => cases h; rfl
    | cons next axes => rw [ih (by rwa [List.getLast?_cons_cons] at hl)]
  | @drop axes sizes hd _ _ =>
    have ones : ∀ k ∈ 1 :: axes, k = 1 := List.forall_mem_cons.mpr ⟨rfl, hd.resolve_left (by simp)⟩
    rw [List.getLast?_eq_some_getLast (by simp), ones _ (List.getLast_mem _)] at hl
    exact absurd rfl hl

theorem reverse_of_ones (h : ∀ k ∈ axes, k = 1) : axes.reverse = axes := by
  rw [List.eq_replicate_of_mem h, List.reverse_replicate]

theorem Thins.reverse (h : Thins anywhere axes sizes)
    (hl : anywhere = true ∨ axes.getLast? ≠ some 1 ∨ ∀ k ∈ axes, k = 1) :
    Thins anywhere axes.reverse sizes.reverse := by
  cases anywhere with
  | true =>
    induction h with
    | nil => exact .nil
    | keep _ ih =>
      rw [List.reverse_cons, List.reverse_cons]
      exact (ih (.inl rfl)).append (.keep .nil)
    | @drop axes sizes _ _ ih =>
      rw [List.reverse_cons, ← List.append_nil sizes.reverse]
      exact (ih (.inl rfl)).append (.drop (.inl rfl) .nil)
  | false =>
    rcases hl.resolve_left (by simp) with hlast | hones
    · rw [h.eq_of_last hlast]
      exact .refl _
    · rw [reverse_of_ones hones, reverse_of_ones fun k hk => hones k (h.subset hk)]
      exact h

/-! ## Values with missing axes -/

theorem fits_of_rectangular (h : Thins anywhere axes sizes) (hv : Rectangular sizes v) :
    Fits anywhere axes v := by
  induction h generalizing v with
  | nil => exact hv
  | keep _ ih => exact .inl (hv.mono fun _ hi => ih hi)
  | drop hd _ ih => exact .inr ⟨rfl, hd, ih hv⟩

-- Below an array without items the shape does not show any axes.
theorem thins_of_fits (hz : 0 ∉ axes.dropLast) (h : Fits anywhere axes v)
    (hs : v.shape? = some sizes) : Thins anywhere axes sizes := by
  induction axes generalizing v sizes with
  | nil =>
    rw [shape?_eq_nil_iff.mpr h] at hs
    cases hs
    exact .nil
  | cons n axes ih =>
    have inner : 0 ∉ axes.dropLast := fun hm => hz (by
      cases axes with
      | nil => cases hm
      | cons next axes => exact List.mem_cons_of_mem n hm)
    rcases h with ⟨items, rfl, hn, hi⟩ | ⟨rfl, hd, h⟩
    · obtain ⟨rest, rfl⟩ := length_of_shape? hs
      cases items with
      | nil =>
        have hrest : rest = [] := by cases hs; rfl
        have hlast : axes = [] := by
          by_contra hne
          exact hz (by rw [List.dropLast_cons_of_ne_nil hne, ← hn]; exact List.mem_cons_self)
        rw [hrest, hlast, ← hn]
        exact .keep .nil
      | cons first others =>
        obtain ⟨_, hitems, -, hshapes⟩ := (shape?_eq_cons_iff (by simp)).mp hs
        cases hitems
        rw [← hn]
        exact .keep (ih inner (hi first List.mem_cons_self) (hshapes first List.mem_cons_self))
    · exact .drop hd (ih inner h hs)

/-! ## Element by element -/

theorem Fits.ones (hones : ∀ k ∈ axes, k = 1) (h : Fits anywhere axes v) :
    v.isArray = false ∨ ArrayOf 1 (Fits anywhere axes) v := by
  induction axes with
  | nil => exact .inl h
  | cons n axes ih =>
    obtain ⟨rfl, hrest⟩ := List.forall_mem_cons.mp hones
    have wider : ArrayOf 1 (Fits anywhere axes) v → ArrayOf 1 (Fits anywhere (1 :: axes)) v :=
      fun ha => ha.mono fun _ hi => .inr ⟨rfl, .inr hrest, hi⟩
    rcases h with ha | ⟨-, -, h⟩
    · exact .inr (wider ha)
    · exact (ih hrest h).imp_right wider

theorem Fits.ones_of_scalar (h : Fits anywhere axes v) (hv : v.isArray = false) :
    ∀ k ∈ axes, k = 1 := by
  induction axes with
  | nil => simp
  | cons n axes ih =>
    rcases h with ⟨items, rfl, -⟩ | ⟨rfl, -, h⟩
    · cases hv
    · exact List.forall_mem_cons.mpr ⟨rfl, ih h⟩

/-- All scalars fit where one does. -/
theorem Fits.of_scalar (h : Fits anywhere axes v) (hv : v.isArray = false) (hw : w.isArray = false) :
    Fits anywhere axes w := by
  induction axes with
  | nil => exact hw
  | cons n axes ih =>
    rcases h with ⟨items, rfl, -⟩ | ⟨hn, hd, h⟩
    · cases hv
    · exact .inr ⟨hn, hd, ih h⟩

/-- Where nothing but axes of length one comes after a missing one, a value is an array of
the full length or a scalar. -/
theorem Fits.array_or_scalar (hl : anywhere = true → n = 1 → ∀ k ∈ axes, k = 1)
    (h : Fits anywhere (n :: axes) v) : ArrayOf n (Fits anywhere axes) v ∨ v.isArray = false := by
  rcases h with ha | ⟨rfl, hd, h⟩
  · exact .inl ha
  · have hones : ∀ k ∈ axes, k = 1 := hd.elim (fun ht => hl ht rfl) id
    exact (h.ones hones).symm

theorem mapLeaves_fits {f : Value → Except Cause Value}
    (hf : ∀ a, a.isArray = false → Yields (f a) (·.isArray = false) err)
    (h : Fits anywhere axes v) : Yields (mapLeaves f v) (Fits anywhere axes) err := by
  induction axes generalizing v with
  | nil => rw [mapLeaves_scalar f h]; exact hf v h
  | cons n axes ih =>
    rcases h with ha | ⟨hn, hd, h⟩
    · exact (mapLeaves_arrayOf (fun _ => ih) ha).imp fun _ hc => .inl hc
    · exact (ih h).imp fun _ hc => .inr ⟨hn, hd, hc⟩

theorem zipLeaves_fits {f : Value → Value → Except Cause Value}
    (hf : ∀ a b, a.isArray = false → b.isArray = false → Yields (f a b) (·.isArray = false) err)
    (hl : anywhere = true → axes.Pairwise fun m n => m = 1 → n = 1)
    (hv : Fits anywhere axes v) (hw : Fits anywhere axes w) :
    Yields (zipLeaves f v w) (Fits anywhere axes) err := by
  induction axes generalizing v w with
  | nil => rw [zipLeaves_scalar f hv, mapLeaves_scalar _ hw]; exact hf v w hv hw
  | cons n axes ih =>
    have after : anywhere = true → n = 1 → ∀ k ∈ axes, k = 1 := fun ht hn k hk =>
      (List.pairwise_cons.mp (hl ht)).1 k hk hn
    rcases hv.array_or_scalar after with hva | hvs
    · rcases hw.array_or_scalar after with hwa | hws
      · have inner := fun ht => (List.pairwise_cons.mp (hl ht)).2
        exact (zipLeaves_arrayOf (fun _ _ => ih inner) hva hwa).imp fun _ hc => .inl hc
      · obtain ⟨items, rfl, -⟩ := hva
        rw [zipLeaves_array_scalar f items hws]
        exact mapLeaves_fits (fun a ha => hf a w ha hws) hv
    · rw [zipLeaves_scalar f hvs]
      exact mapLeaves_fits (fun b hb => hf v b hvs hb) hw

/-! ## Transposition -/

theorem transpose_fits (hz : 0 ∉ axes.dropLast)
    (hl : anywhere = true ∨ axes.getLast? ≠ some 1 ∨ ∀ k ∈ axes, k = 1)
    (h : Fits anywhere axes v) : Aligns v.transpose (Fits anywhere axes.reverse) := by
  unfold transpose
  refine (shape_aligns v).bind fun sizes hs => ?_
  have thin := (thins_of_fits hz h hs).reverse hl
  split
  · rename_i hshort
    refine fits_of_rectangular thin ?_
    match sizes, hshort with
    | [], _ => exact rectangular_of_shape? hs
    | [_], _ => exact rectangular_of_shape? hs
  · exact (gather_reverse (rectangular_of_shape? hs)).imp fun _ hc => fits_of_rectangular thin hc

/-! ## Products -/

theorem arithmetic_aligns (op : BinaryOp) (a b : Value) :
    Aligns (arithmetic op a b) (·.isArray = false) := (arithmetic_isArray op a b).aligns

/-- What is left of two axes, if not all are missing. -/
theorem Thins.pair (h : Thins anywhere [m, n] sizes) (hne : sizes ≠ []) : sizes = [m, n] ∨
    sizes = [n] ∧ m = 1 ∧ (anywhere = true ∨ n = 1) ∨ sizes = [m] ∧ n = 1 := by
  cases h with
  | keep h =>
    cases h with
    | keep h => cases h; exact .inl rfl
    | drop _ h => cases h; exact .inr (.inr ⟨rfl, rfl⟩)
  | drop hd h =>
    cases h with
    | keep h => cases h; exact .inr (.inl ⟨rfl, rfl, by simpa using hd⟩)
    | drop _ h => cases h; exact absurd rfl hne

theorem product_fits (hk : 2 ≤ k ∧ 1 ≤ m ∨ m = 1 ∧ k = 1 ∧ n = 1) (hva : v.isArray = true)
    (hwa : w.isArray = true) (hv : Fits anywhere [m, k] v) (hw : Fits anywhere [k, n] w) :
    Aligns (v.product w) (Fits anywhere [m, n]) := by
  have hz : 0 ∉ [m, k].dropLast ∧ 0 ∉ [k, n].dropLast := by
    simp only [List.dropLast, List.mem_singleton]
    omega
  unfold product
  refine (shape_aligns _).bind fun leftSizes hls => (shape_aligns _).bind fun rightSizes hrs => ?_
  have left := (thins_of_fits hz.1 hv hls).pair (shape?_ne_nil hva hls)
  have right := (thins_of_fits hz.2 hw hrs).pair (shape?_ne_nil hwa hrs)
  have left : leftSizes = [m, k] ∨ leftSizes = [k] ∧ m = 1 ∧ (anywhere = true ∨ k = 1) := by
    rcases left with h | h | ⟨rfl, rfl⟩
    · exact .inl h
    · exact .inr h
    · obtain rfl : m = 1 := by omega
      exact .inr ⟨rfl, rfl, .inr rfl⟩
  have right : rightSizes = [k, n] ∨ rightSizes = [k] ∧ n = 1 := by
    rcases right with h | ⟨rfl, rfl, -⟩ | h
    · exact .inl h
    · obtain rfl : n = 1 := by omega
      exact .inr ⟨rfl, rfl⟩
    · exact .inr h
  have leftRect := rectangular_of_shape? hls
  have rightRect := rectangular_of_shape? hrs
  have mul := fun a b (_ : a.isArray = false) (_ : b.isArray = false) => arithmetic_aligns .mul a b
  have add := fun a b (_ : a.isArray = false) (_ : b.isArray = false) => arithmetic_aligns .add a b
  rcases left with rfl | ⟨rfl, rfl, hd⟩
  · rcases right with rfl | ⟨rfl, rfl⟩
    · dsimp only
      rw [if_pos rfl]
      refine (matrixMatrix_yields mul add (fun _ => rfl) leftRect rightRect).imp fun _ hc => ?_
      exact fits_of_rectangular (.refl _) hc
    · dsimp only
      rw [if_pos rfl]
      refine (matrixVector_yields mul add (fun _ => rfl) leftRect rightRect).imp fun _ hc => ?_
      exact fits_of_rectangular (.keep (.drop (.inr (by simp)) .nil)) hc
  · rcases right with rfl | ⟨rfl, rfl⟩
    · dsimp only
      rw [if_pos rfl]
      refine (vectorMatrix_yields mul add (fun _ => rfl) leftRect rightRect).imp fun _ hc => ?_
      refine fits_of_rectangular (.drop ?_ (.keep .nil)) hc
      exact hd.imp_right fun hk1 => by simp; omega
    · dsimp only
      rw [if_pos rfl]
      refine (vectorVector_yields mul add (fun _ => rfl) leftRect rightRect).imp fun _ hc => ?_
      exact fits_of_rectangular (.drop (.inr (by simp)) (.drop (.inr (by simp)) .nil)) hc

end

end Value

end MatrixScript
