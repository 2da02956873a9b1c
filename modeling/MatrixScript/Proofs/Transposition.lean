import MatrixScript.Proofs.Entries

/-!
# Reversed axes

Transposition reverses the shape of a rectangular value, and the entry at a path
becomes the entry at the reversed path (`transpose_entries`). Done twice it
gives the value back, since entries determine it.
-/

namespace MatrixScript.Value

section
variable {P : Value → Prop} {sizes : List Nat} {source v w : Value} {err : Cause → Prop}

theorem reverse_short {α : Type} {l : List α} (h : l.length < 2) : l.reverse = l := by
  match l, h with
  | [], _ => rfl
  | [_], _ => rfl

-- The positions on the outer axes are in `path`, the latest first.
theorem gather_entries : ∀ {sizes path : List Nat},
    (∀ q, Inside q sizes → Yields (follow source (q.reverse ++ path)) P err) →
    Yields (gather source sizes path)
      (fun w => ∀ q, Inside q sizes → follow w q = follow source (q.reverse ++ path)) err
  | [], path, h => by
    have here : Yields (follow source path) P err := h [] .nil
    rw [gather]
    cases hf : follow source path with
    | error cause => rwa [hf] at here
    | ok entry =>
      intro q hq
      cases hq
      rw [follow, List.reverse_nil, List.nil_append, hf]
  | size :: sizes, path, h => by
    rw [gather]
    have each : ∀ (i : Nat) (hi : i < (List.range size).length),
        Yields (gather source sizes ((List.range size)[i] :: path))
          (fun item => ∀ q, Inside q sizes → follow item q = follow source (q.reverse ++ i :: path))
          err := by
      intro i hi
      rw [List.getElem_range]
      rw [List.length_range] at hi
      apply gather_entries
      intro q hq
      have followed := h (i :: q) (.cons hi hq)
      rwa [List.reverse_cons, List.append_assoc] at followed
    refine (yields_mapM_at each).bind fun items hitems => ?_
    intro q hq
    cases hq with
    | @cons p _ q _ hp hq =>
      have hp' : p < items.length := by rwa [hitems.1, List.length_range]
      rw [follow_item hp', hitems.2 p hp' q hq, List.reverse_cons, List.append_assoc]
      rfl

theorem transpose_short (hs : v.shape? = some sizes) (hn : sizes.length < 2) :
    v.transpose = .ok v := by
  unfold transpose
  rw [shape_eq_ok_iff.mpr hs]
  exact if_pos hn

theorem transpose_entries (hs : v.shape? = some sizes) (hv : Nest P sizes v) :
    ∃ w, v.transpose = .ok w ∧ Nest P sizes.reverse w ∧
      ∀ q, Inside q sizes.reverse → follow w q = follow v q.reverse := by
  by_cases hn : sizes.length < 2
  · rw [reverse_short hn]
    refine ⟨v, transpose_short hs hn, hv, fun q hq => ?_⟩
    rw [reverse_short (by rwa [hq.length_eq])]
  · have followed : ∀ q, Inside q sizes.reverse →
        Yields (follow v (q.reverse ++ [])) P fun _ => False := by
      intro q hq
      rw [List.append_nil]
      apply follow_nest hv
      rw [← List.reverse_reverse sizes]
      exact List.forall₂_reverse_iff.mpr hq
    obtain ⟨w, hw, hnest, hentries⟩ := ((gather_nest followed).and (gather_entries followed)).exists_ok
    refine ⟨w, ?_, hnest, fun q hq => ?_⟩
    · unfold transpose
      rw [shape_eq_ok_iff.mpr hs]
      exact (if_neg hn).trans hw
    · rw [hentries q hq, List.append_nil]

theorem transpose_of_no_zero (hs : v.shape? = some sizes) (hv : Nest P sizes v)
    (hP : ∀ entry, P entry → entry.isArray = false) (hz : 0 ∉ sizes) :
    ∃ w, v.transpose = .ok w ∧ Nest P sizes.reverse w ∧ w.shape? = some sizes.reverse ∧
      ∀ q, Inside q sizes.reverse → follow w q = follow v q.reverse := by
  obtain ⟨w, hw, hnest, hentries⟩ := transpose_entries hs hv
  refine ⟨w, hw, hnest, shape?_of_rectangular (fun h => ?_) (nest_mono hP hnest), hentries⟩
  exact hz (List.mem_reverse.mp (List.dropLast_subset _ h))

end

/-- **Transposition.** A rectangular value without an empty axis is transposed to one of the
reversed shape, the element at some indices becoming the one at the reversed indices; the
result is transposed back to the value, and without a second axis it is the value. Of a
ragged value transposition fails as its shape does. -/
theorem transpose_reverses (v : Value) :
    (∀ sizes, v.shape = .ok sizes → (∀ n ∈ sizes, 1 ≤ n) →
      ∃ w, UnaryOp.transpose.apply v = .ok w ∧ w.shape = .ok sizes.reverse ∧
        (∀ p, InRange p sizes → ∃ x, v.element p = .ok x ∧ w.element p.reverse = .ok x) ∧
        UnaryOp.transpose.apply w = .ok v ∧ (sizes.length ≤ 1 → w = v)) ∧
    ∀ cause, v.shape = .error cause → UnaryOp.transpose.apply v = .error cause := by
  refine ⟨fun sizes hs hpos => ?_, fun cause hs => ?_⟩
  · rw [shape_eq_ok_iff] at hs
    have hv := rectangular_of_shape? hs
    have hz : 0 ∉ sizes := fun h => absurd (hpos 0 h) (by decide)
    obtain ⟨w, hw, hrect, hws, hentries⟩ := transpose_of_no_zero hs hv (fun _ h => h) hz
    refine ⟨w, hw, shape_eq_ok_iff.mpr hws, fun p hp => ?_, ?_, fun hn => ?_⟩
    · obtain ⟨x, hx, -⟩ := entry_exists hv (positions_inside hp)
      have hp' : InRange p.reverse sizes.reverse := List.forall₂_reverse_iff.mpr hp
      refine ⟨x, by rw [element_entry hv hp, hx], ?_⟩
      rw [element_entry hrect hp', hentries _ (positions_inside hp'), positions_reverse,
        List.reverse_reverse, hx]
    · obtain ⟨u, hu, hurect, hback⟩ := transpose_entries hws hrect
      rw [List.reverse_reverse] at hurect hback
      have same : u = v := by
        apply eq_of_entries hurect hv
        intro path hp
        rw [hback path hp, hentries _ (List.forall₂_reverse_iff.mpr hp), List.reverse_reverse]
      show w.transpose = .ok v
      rw [hu, same]
    · rw [transpose_short hs (by omega)] at hw
      exact (Except.ok.inj hw).symm
  · show v.transpose = .error cause
    unfold transpose
    rw [hs]
    rfl

/-- Three axes, of one, two and three positions. -/
theorem transpose_reverses_box :
    let v := array [array [array [int 1, int 2, int 3], array [int 4, int 5, int 6]]]
    let w := array [array [array [int 1], array [int 4]], array [array [int 2], array [int 5]],
      array [array [int 3], array [int 6]]]
    UnaryOp.transpose.apply v = .ok w ∧ w.shape = .ok [3, 2, 1] ∧
      w.element [2, 1, 0] = v.element [0, 1, 2] ∧ UnaryOp.transpose.apply w = .ok v := by
  intro v w
  obtain ⟨w', hw, hs, hentries, hback, -⟩ :=
    (transpose_reverses v).1 [1, 2, 3] rfl (by decide)
  have hw' : w' = w := (Except.ok.inj hw).symm
  subst hw'
  obtain ⟨x, hx, hx'⟩ := hentries [0, 1, 2] (by decide)
  exact ⟨hw, hs, hx'.trans hx.symm, hback⟩

end MatrixScript.Value
