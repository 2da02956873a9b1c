import MatrixScript.Proofs.Matrices
import MatrixScript.Proofs.Places

/-!
# Subscripts and shapes

Looking for an element goes down one way through a value, while the shape is taken
from all of it. For a value that has a shape the two agree: indices lead to an element
as long as each is inside its axis, and the axes that are left are the shape of the
element. The first index that is off its axis is the one that is reported, with the
size of that axis, or with the number of axes where there is none (`element_axes`).
-/

namespace MatrixScript.Value

/-! ## Indices and axes -/

def OnAxis (p : List Int64) (sizes : List Nat) (i : Nat) : Prop :=
  ∃ (hp : i < p.length) (hn : i < sizes.length), 0 ≤ p[i].toInt ∧ p[i].toInt < sizes[i]

instance (p : List Int64) (sizes : List Nat) (i : Nat) : Decidable (OnAxis p sizes i) :=
  inferInstanceAs (Decidable (∃ (_ : i < p.length) (_ : i < sizes.length), _))

structure FirstOff (p : List Int64) (sizes : List Nat) (i : Nat) : Prop where
  given : i < p.length
  before : ∀ j < i, OnAxis p sizes j
  off : ¬ OnAxis p sizes i

/-- What is reported of an index, when `found` were given in all and `axis` have been
followed before these. -/
def offAxis (found axis : Nat) (p : List Int64) (sizes : List Nat) (i : Nat) : Cause :=
  match p[i]?, sizes[i]? with
  | some index, some size => .indexOutOfBounds (axis + i) index size
  | _, _ => .tooManyIndices found (axis + sizes.length)

section
variable {index : Int64} {p : List Int64} {n : Nat} {sizes : List Nat} {i : Nat}

theorem onAxis_zero :
    OnAxis (index :: p) (n :: sizes) 0 ↔ 0 ≤ index.toInt ∧ index.toInt < n := by
  simp [OnAxis]

theorem onAxis_succ : OnAxis (index :: p) (n :: sizes) (i + 1) ↔ OnAxis p sizes i := by
  simp [OnAxis]

theorem not_onAxis_nil : ¬ OnAxis p [] i := fun ⟨_, hn, _⟩ => Nat.not_lt_zero i hn

theorem forall_onAxis_cons (h : OnAxis (index :: p) (n :: sizes) 0)
    (hall : ∀ i < p.length, OnAxis p sizes i) :
    ∀ i < (index :: p).length, OnAxis (index :: p) (n :: sizes) i := by
  intro i hi
  cases i with
  | zero => exact h
  | succ i => exact onAxis_succ.mpr (hall i (Nat.lt_of_succ_lt_succ hi))

theorem forall_onAxis_iff : (∀ i < p.length, OnAxis p sizes i) ↔ p.length ≤ sizes.length ∧
    ∀ (i : Nat) (hp : i < p.length) (hn : i < sizes.length),
      0 ≤ p[i].toInt ∧ p[i].toInt < sizes[i] := by
  constructor
  · intro hall
    refine ⟨Nat.le_of_not_lt fun hlt => ?_, fun i hp hn => ?_⟩
    · obtain ⟨_, hn, _⟩ := hall sizes.length hlt
      exact Nat.lt_irrefl _ hn
    · obtain ⟨_, _, h⟩ := hall i hp
      exact h
  · rintro ⟨hle, hall⟩ i hp
    exact ⟨hp, Nat.lt_of_lt_of_le hp hle, hall i hp _⟩

theorem FirstOff.here (h : ¬ OnAxis (index :: p) sizes 0) : FirstOff (index :: p) sizes 0 :=
  ⟨Nat.zero_lt_succ _, fun j hj => absurd hj (Nat.not_lt_zero j), h⟩

theorem FirstOff.cons (h : OnAxis (index :: p) (n :: sizes) 0) (hi : FirstOff p sizes i) :
    FirstOff (index :: p) (n :: sizes) (i + 1) where
  given := Nat.succ_lt_succ hi.given
  before j hj := by
    cases j with
    | zero => exact h
    | succ j => exact onAxis_succ.mpr (hi.before j (Nat.lt_of_succ_lt_succ hj))
  off := fun hon => hi.off (onAxis_succ.mp hon)

theorem FirstOff.unique {j : Nat} (hi : FirstOff p sizes i) (hj : FirstOff p sizes j) : i = j := by
  rcases Nat.lt_trichotomy i j with hlt | heq | hgt
  · exact absurd (hj.before i hlt) hi.off
  · exact heq
  · exact absurd (hi.before j hgt) hj.off

/-- All axes before the first index that is off have one, so at most the last is passed. -/
theorem FirstOff.le (h : FirstOff p sizes i) : i ≤ sizes.length := by
  cases i with
  | zero => exact Nat.zero_le _
  | succ i =>
    obtain ⟨_, hn, _⟩ := h.before i (Nat.lt_succ_self i)
    exact hn

theorem offAxis_cons (found axis : Nat) :
    offAxis found (axis + 1) p sizes i = offAxis found axis (index :: p) (n :: sizes) (i + 1) := by
  have haxis : axis + 1 + i = axis + (i + 1) := by omega
  have hrank : axis + 1 + sizes.length = axis + (n :: sizes).length := by
    rw [List.length_cons]
    omega
  unfold offAxis
  rw [List.getElem?_cons_succ, List.getElem?_cons_succ, haxis, hrank]

end

/-! ## The way down a value -/

theorem shape?_item {items : List Value} {sizes : List Nat} {k : Nat} {item : Value}
    (h : (array items).shape? = some (items.length :: sizes)) (hk : items[k]? = some item) :
    item.shape? = some sizes := by
  obtain ⟨hlt, -⟩ := List.getElem?_eq_some_iff.mp hk
  obtain ⟨_, hitems, -, hi⟩ := (shape?_eq_cons_iff (by omega)).mp h
  cases hitems
  exact hi item (List.mem_of_getElem? hk)

theorem elementFrom_axes (found : Nat) : ∀ {p : List Int64} {v : Value} {sizes : List Nat} (axis : Nat),
    v.shape? = some sizes →
    Yields (elementFrom found axis v p)
      (fun x => (∀ i < p.length, OnAxis p sizes i) ∧ x.shape? = some (sizes.drop p.length))
      (fun cause => ∃ i, FirstOff p sizes i ∧ cause = offAxis found axis p sizes i) := by
  intro p
  induction p with
  | nil => exact fun axis hs => ⟨fun i hi => absurd hi (Nat.not_lt_zero i), hs⟩
  | cons index p ih =>
    intro v sizes axis hs
    cases hv : v.isArray with
    | false =>
      obtain rfl : sizes = [] := by
        rw [shape?_eq_nil_iff.mpr hv] at hs
        exact (Option.some.inj hs).symm
      rw [elementFrom_beyond found axis hv]
      exact ⟨0, .here not_onAxis_nil, rfl⟩
    | true =>
      obtain ⟨items, rfl⟩ := exists_items hv
      obtain ⟨inner, rfl⟩ := length_of_shape? hs
      rcases index_cases index items with ⟨k, item, hi, hk⟩ | hout
      · obtain ⟨hlt, -⟩ := List.getElem?_eq_some_iff.mp hk
        have hon : OnAxis (index :: p) (items.length :: inner) 0 := onAxis_zero.mpr (by omega)
        rw [elementFrom_inside found axis hi hk]
        refine (ih (axis + 1) (shape?_item hs hk)).mono ?_ ?_
        · exact fun x hx => ⟨forall_onAxis_cons hon hx.1, hx.2⟩
        · rintro cause ⟨i, hoff, rfl⟩
          exact ⟨i + 1, hoff.cons hon, offAxis_cons found axis⟩
      · have hoff : ¬ OnAxis (index :: p) (items.length :: inner) 0 := by
          rw [onAxis_zero]
          rintro ⟨hlo, hhi⟩
          have := hout index.toInt.toNat (by omega)
          omega
        rw [elementFrom_outside found axis hout]
        exact ⟨0, .here hoff, rfl⟩

theorem FirstOff.offAxis_iff {p : List Int64} {sizes : List Nat} {i : Nat} (h : FirstOff p sizes i)
    (found : Nat) (cause : Cause) : cause = offAxis found 0 p sizes i ↔
      (∃ (hp : i < p.length) (hn : i < sizes.length), cause = .indexOutOfBounds i p[i] sizes[i]) ∨
        i = sizes.length ∧ cause = .tooManyIndices found sizes.length := by
  have hle := h.le
  have hp := h.given
  unfold offAxis
  rw [List.getElem?_eq_getElem hp, Nat.zero_add, Nat.zero_add]
  by_cases hn : i < sizes.length
  · rw [List.getElem?_eq_getElem hn]
    have hne : i ≠ sizes.length := Nat.ne_of_lt hn
    simp [hp, hn, hne]
  · rw [List.getElem?_eq_none (Nat.le_of_not_lt hn)]
    have heq : i = sizes.length := by omega
    simp [heq]

/-- **Subscripts.** Indices lead to an element of a value that has a shape exactly if there are no
more of them than axes and each is inside its axis; the axes after these are the shape of the
element. Otherwise the first index that is off is reported: with its axis and the size of it, or
with the numbers of indices and of axes if there is no axis for it. -/
theorem element_axes {v : Value} {sizes : List Nat} (hs : v.shape = .ok sizes) (p : List Int64) :
    ((∃ x, v.element p = .ok x) ↔ p.length ≤ sizes.length ∧
      ∀ (i : Nat) (hp : i < p.length) (hn : i < sizes.length),
        0 ≤ p[i].toInt ∧ p[i].toInt < sizes[i]) ∧
    (∀ x, v.element p = .ok x → x.shape = .ok (sizes.drop p.length)) ∧
    ∀ cause, v.element p = .error cause ↔ ∃ i, FirstOff p sizes i ∧
      ((∃ (hp : i < p.length) (hn : i < sizes.length),
          cause = .indexOutOfBounds i p[i] sizes[i]) ∨
        i = sizes.length ∧ cause = .tooManyIndices p.length sizes.length) := by
  have hway := elementFrom_axes p.length (p := p) 0 (shape_eq_ok_iff.mp hs)
  rw [← forall_onAxis_iff]
  unfold element
  cases he : elementFrom p.length 0 v p with
  | ok x =>
    rw [he] at hway
    obtain ⟨hall, hshape⟩ := hway
    refine ⟨⟨fun _ => hall, fun _ => ⟨x, rfl⟩⟩, fun y hy => ?_, fun cause => ⟨fun h => ?_, ?_⟩⟩
    · cases hy
      exact shape_eq_ok_iff.mpr hshape
    · cases h
    · rintro ⟨i, hi, -⟩
      exact absurd (hall i hi.given) hi.off
  | error found =>
    rw [he] at hway
    obtain ⟨i, hi, hcause⟩ := hway
    refine ⟨⟨?_, fun hall => absurd (hall i hi.given) hi.off⟩, fun y hy => ?_,
      fun cause => ⟨fun h => ?_, ?_⟩⟩
    · rintro ⟨x, hx⟩
      cases hx
    · cases hy
    · cases h
      exact ⟨i, hi, (hi.offAxis_iff _ _).mp hcause⟩
    · rintro ⟨j, hj, h⟩
      obtain rfl := hi.unique hj
      rw [hcause, (hi.offAxis_iff _ _).mpr h]

/-- A row of a table, an index below zero, which is reported before the one after it, and an
index too many. -/
theorem element_axes_table :
    let v := array [array [int 1, int 2, int 3], array [int 4, int 5, int 6]]
    v.shape = .ok [2, 3] ∧ (∃ x, v.element [1] = .ok x ∧ x.shape = .ok [3]) ∧
      v.element [1, -1, 7] = .error (.indexOutOfBounds 1 (-1) 3) ∧
      v.element [1, 2, 0] = .error (.tooManyIndices 3 2) := by
  intro v
  have hs : v.shape = .ok [2, 3] := rfl
  obtain ⟨hrow, hshape, -⟩ := element_axes hs [1]
  obtain ⟨x, hx⟩ := hrow.mpr (by decide)
  have below : FirstOff [1, -1, 7] [2, 3] 1 := ⟨by decide, by decide, by decide⟩
  have beyond : FirstOff [1, 2, 0] [2, 3] 2 := ⟨by decide, by decide, by decide⟩
  refine ⟨hs, ⟨x, hx, hshape x hx⟩, ?_, ?_⟩
  · exact ((element_axes hs [1, -1, 7]).2.2 _).mpr ⟨1, below, .inl ⟨by decide, by decide, rfl⟩⟩
  · exact ((element_axes hs [1, 2, 0]).2.2 _).mpr ⟨2, beyond, .inr ⟨rfl, rfl⟩⟩

end MatrixScript.Value
