import MatrixScript.Proofs.Axes
import MatrixScript.Proofs.Places

/-!
# Entries of arrays

A path chooses a position on every axis. A rectangular value has an entry at the
end of every path inside its shape, and these entries determine it
(`eq_of_entries`). Indices lead to the entry at the positions that they name
(`element_entry`).
-/

namespace MatrixScript.Value

abbrev Inside (path sizes : List Nat) : Prop := List.Forall₂ (· < ·) path sizes

section
variable {P Q : Value → Prop} {sizes path : List Nat} {v w : Value}

theorem follow_item {items : List Value} {p : Nat} (h : p < items.length) (path : List Nat) :
    follow (array items) (p :: path) = follow items[p] path := by
  rw [follow, List.getElem?_eq_getElem h]

theorem entry_exists (hv : Nest P sizes v) (hp : Inside path sizes) :
    ∃ entry, follow v path = .ok entry ∧ P entry := by
  have followed : Yields (follow v path) P fun _ => False := follow_nest hv hp
  exact followed.exists_ok

theorem eq_of_entries : ∀ {sizes : List Nat} {v w : Value}, Rectangular sizes v →
    Rectangular sizes w → (∀ path, Inside path sizes → follow v path = follow w path) → v = w
  | [], v, w, _, _, h => by
    have here := h [] .nil
    rw [follow, follow] at here
    exact Except.ok.inj here
  | n :: sizes, v, w, hv, hw, h => by
    obtain ⟨xs, rfl, hx, hxs⟩ := hv
    obtain ⟨ys, rfl, hy, hys⟩ := hw
    congr 1
    apply List.ext_getElem (hx.trans hy.symm)
    intro i hi hi'
    apply eq_of_entries (hxs _ (List.getElem_mem hi)) (hys _ (List.getElem_mem hi'))
    intro path hp
    have there := h (i :: path) (.cons (hx ▸ hi) hp)
    rwa [follow_item hi, follow_item hi'] at there

theorem nest_mono (h : ∀ entry, P entry → Q entry) :
    ∀ {sizes : List Nat} {v : Value}, Nest P sizes v → Nest Q sizes v
  | [], v, hv => h v hv
  | _ :: _, _, hv => ArrayOf.mono hv fun _ hi => nest_mono h hi

theorem nest_of_leaves : ∀ {sizes : List Nat} {v : Value}, Rectangular sizes v →
    (∀ leaf ∈ v.leaves, P leaf) → Nest P sizes v
  | [], v, hv, hl => hl v (by rw [leaves_scalar hv]; exact List.mem_singleton_self v)
  | _ :: _, _, hv, hl =>
    (arrayOf_leaves_iff.mp ⟨hv, hl⟩).mono fun _ hi => nest_of_leaves hi.1 hi.2

/-! ## Shapes -/

theorem zero_not_mem_of_shape? : ∀ {sizes : List Nat} {v : Value}, v.shape? = some sizes →
    0 ∉ sizes.dropLast
  | [], _, _ => by simp
  | [_], _, _ => by simp
  | n :: next :: sizes, v, h => by
    have hv : v.isArray = true := by
      by_contra hv
      rw [shape?_eq_nil_iff.mpr (by simpa using hv)] at h
      cases h
    cases v with
    | array items =>
      cases items with
      | nil => cases h
      | cons first others =>
        obtain ⟨_, hs⟩ := length_of_shape? h
        have hn : 1 ≤ n := by
          rw [(List.cons.inj hs).1]
          exact Nat.succ_le_succ (Nat.zero_le _)
        obtain ⟨_, hitems, -, hi⟩ := (shape?_eq_cons_iff hn).mp h
        cases hitems
        have inner := zero_not_mem_of_shape? (hi first List.mem_cons_self)
        rw [List.dropLast_cons_cons, List.mem_cons]
        intro hz
        rcases hz with hz | hz
        · omega
        · exact inner hz
    | _ => cases hv

/-- An array without items on an axis hides the axes after it. -/
theorem shape?_of_rectangular : ∀ {sizes : List Nat} {v : Value}, 0 ∉ sizes.dropLast →
    Rectangular sizes v → v.shape? = some sizes
  | [], _, _, hv => shape?_eq_nil_iff.mpr hv
  | [0], _, _, hv => by
    obtain ⟨items, rfl, hn, -⟩ := hv
    rw [List.eq_nil_of_length_eq_zero hn]
    rfl
  | [n + 1], _, _, hv => (shape?_eq_cons_iff (by omega)).mpr <|
    ArrayOf.mono hv fun _ hi => shape?_of_rectangular (by simp) hi
  | n :: next :: sizes, _, hz, hv => by
    rw [List.dropLast_cons_cons, List.mem_cons, not_or] at hz
    apply (shape?_eq_cons_iff (by omega)).mpr
    exact ArrayOf.mono hv fun _ hi => shape?_of_rectangular hz.2 hi

/-! ## Indices -/

abbrev InRange (indices : List Int64) (sizes : List Nat) : Prop :=
  List.Forall₂ (fun (index : Int64) (size : Nat) => 0 ≤ index.toInt ∧ index.toInt < size)
    indices sizes

def positions (indices : List Int64) : List Nat := indices.map (·.toInt.toNat)

theorem positions_inside {indices : List Int64} (h : InRange indices sizes) :
    Inside (positions indices) sizes := by
  apply List.forall₂_map_left_iff.mpr
  exact h.imp fun index size hi => by omega

theorem positions_reverse (indices : List Int64) :
    positions indices.reverse = (positions indices).reverse := List.map_reverse

theorem element_entry {indices : List Int64} (hv : Rectangular sizes v)
    (hi : InRange indices sizes) : v.element indices = follow v (positions indices) := by
  have from_axis : ∀ found axis : Nat,
      elementFrom found axis v indices = follow v (positions indices) := by
    induction hi generalizing v with
    | nil => exact fun _ _ => rfl
    | @cons index n indices sizes hin _ ih =>
      intro found axis
      obtain ⟨items, rfl, hn, hitems⟩ := hv
      have hp : index.toInt.toNat < items.length := by omega
      have named : index.toInt = index.toInt.toNat := by omega
      rw [elementFrom_inside found axis named (List.getElem?_eq_getElem hp),
        ih (hitems _ (List.getElem_mem hp))]
      exact (follow_item hp (positions indices)).symm
  exact from_axis indices.length 0

end

end MatrixScript.Value
