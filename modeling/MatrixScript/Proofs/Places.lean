import MatrixScript.Proofs.InPlace

/-!
# Reading and writing by index

Indices lead to a place in a value, or to an error at the axis where the way ends.
Reading and writing go the same way and fail alike; what is written is read back, and
nothing off the way changes (`element_put`).
-/

namespace MatrixScript.Value

def put (v : Value) (indices : List Int64) (x : Value) : Except Cause Value :=
  v.update indices fun _ => .ok x

theorem exists_items {v : Value} (hv : v.isArray = true) : ∃ items, v = array items := by
  cases v with
  | array items => exact ⟨items, rfl⟩
  | _ => cases hv

/-! ## One step of the way -/

section
variable {index : Int64} {indices : List Int64} {items : List Value}

theorem index_cases (index : Int64) (items : List Value) :
    (∃ (k : Nat) (item : Value), index.toInt = k ∧ items[k]? = some item) ∨
      ∀ k : Nat, index.toInt = k → items.length ≤ k := by
  by_cases h : 0 ≤ index.toInt ∧ index.toInt.toNat < items.length
  · exact .inl ⟨index.toInt.toNat, items.get ⟨_, h.2⟩, by omega, by simp⟩
  · right
    intro k hk
    omega

theorem item_set {k : Nat} {old : Value} (hk : items[k]? = some old) (new : Value) :
    (items.set k new)[k]? = some new := by
  rw [List.getElem?_set_self', hk]
  rfl

theorem position_inside {k size : Nat} (axis : Nat) (hi : index.toInt = k) (hk : k < size) :
    position axis index size = .ok ⟨k, hk⟩ := by
  unfold position
  simp [hi, hk]

theorem position_outside {size : Nat} (axis : Nat) (h : ∀ k : Nat, index.toInt = k → size ≤ k) :
    position axis index size = .error (.indexOutOfBounds axis index size) := by
  unfold position
  rw [dif_neg]
  rintro ⟨hlo, hhi⟩
  have := h index.toInt.toNat (by omega)
  omega

theorem elementFrom_inside {k : Nat} {item : Value} (found axis : Nat) (hi : index.toInt = k)
    (hk : items[k]? = some item) :
    elementFrom found axis (array items) (index :: indices) =
      elementFrom found (axis + 1) item indices := by
  obtain ⟨hlt, rfl⟩ := List.getElem?_eq_some_iff.mp hk
  rw [elementFrom, position_inside axis hi hlt]
  rfl

theorem elementFrom_outside (found axis : Nat) (h : ∀ k : Nat, index.toInt = k → items.length ≤ k) :
    elementFrom found axis (array items) (index :: indices) =
      .error (.indexOutOfBounds axis index items.length) := by
  rw [elementFrom, position_outside axis h]
  rfl

theorem elementFrom_beyond {v : Value} (found axis : Nat) (h : v.isArray = false) :
    elementFrom found axis v (index :: indices) = .error (.tooManyIndices found axis) := by
  cases v <;> first | rfl | cases h

variable {change : Value → Except Cause Value}

theorem updateFrom_inside {k : Nat} {item : Value} (axis : Nat) (hi : index.toInt = k)
    (hk : items[k]? = some item) :
    updateFrom change axis (array items) (index :: indices) =
      (fun new => array (items.set k new)) <$> updateFrom change (axis + 1) item indices := by
  obtain ⟨hlt, rfl⟩ := List.getElem?_eq_some_iff.mp hk
  rw [updateFrom_array, position_inside axis hi hlt]
  rfl

theorem updateFrom_outside (axis : Nat) (h : ∀ k : Nat, index.toInt = k → items.length ≤ k) :
    updateFrom change axis (array items) (index :: indices) =
      .error (.indexOutOfBounds axis index items.length) := by
  rw [updateFrom_array, position_outside axis h]
  rfl

end

/-- Only errors tell the axis and how many indices there are. -/
theorem elementFrom_of_ok {found : Nat} {y : Value} (found' : Nat) :
    ∀ {indices : List Int64} {v : Value} {axis : Nat}, elementFrom found axis v indices = .ok y →
      ∀ axis' : Nat, elementFrom found' axis' v indices = .ok y := by
  intro indices
  induction indices with
  | nil => exact fun h _ => h
  | cons index indices ih =>
    intro v axis h axis'
    cases v with
    | array items =>
      rcases index_cases index items with ⟨k, item, hi, hk⟩ | hout
      · rw [elementFrom_inside found axis hi hk] at h
        rw [elementFrom_inside found' axis' hi hk]
        exact ih h (axis' + 1)
      · rw [elementFrom_outside found axis hout] at h
        cases h
    | _ => cases h

/-! ## Written values -/

/-- The second value is the first with `x` at the place to which the indices lead. -/
inductive Written (x : Value) : List Int64 → Value → Value → Prop
  | here {v} : Written x [] v x
  | inside {index : Int64} {indices items old new} {k : Nat} : index.toInt = k →
      items[k]? = some old → Written x indices old new →
      Written x (index :: indices) (array items) (array (items.set k new))

/-- Where reading ends well, the place can be filled; elsewhere writing fails as reading does. -/
theorem updateFrom_places : ∀ (indices : List Int64) (axis : Nat) (v : Value),
    Yields (elementFrom (axis + indices.length) axis v indices)
      (fun old => ∃ fill : Value → Value, (∀ x, Written x indices v (fill x)) ∧
        ∀ change, updateFrom change axis v indices = fill <$> change old)
      (fun cause => ∀ change, updateFrom change axis v indices = .error cause) := by
  intro indices
  induction indices with
  | nil =>
    intro axis v
    refine ⟨id, fun x => .here, fun change => ?_⟩
    rw [updateFrom_nil, id_map]
  | cons index indices ih =>
    intro axis v
    by_cases hv : v.isArray = true
    · obtain ⟨items, rfl⟩ := exists_items hv
      rcases index_cases index items with ⟨k, item, hi, hk⟩ | hout
      · have hcount : axis + (index :: indices).length = axis + 1 + indices.length := by
          rw [List.length_cons]
          omega
        rw [hcount, elementFrom_inside _ axis hi hk]
        refine (ih (axis + 1) item).mono ?_ ?_
        · rintro old ⟨fill, hfill, hupdate⟩
          refine ⟨fun x => array (items.set k (fill x)), fun x => .inside hi hk (hfill x), ?_⟩
          intro change
          rw [updateFrom_inside axis hi hk, hupdate, ← comp_map]
          rfl
        · intro cause herror change
          rw [updateFrom_inside axis hi hk, herror]
          rfl
      · rw [elementFrom_outside _ axis hout]
        exact fun change => updateFrom_outside axis hout
    · have hv : v.isArray = false := by simpa using hv
      rw [elementFrom_beyond _ axis hv]
      exact fun change => updateFrom_scalar change axis hv index indices

theorem Written.of_put {v w x : Value} {p : List Int64} (h : v.put p x = .ok w) :
    Written x p v w := by
  have hplaces := updateFrom_places p 0 v
  unfold put update at h
  cases he : elementFrom (0 + p.length) 0 v p with
  | error cause =>
    rw [he] at hplaces
    rw [hplaces] at h
    cases h
  | ok old =>
    rw [he] at hplaces
    obtain ⟨fill, hfill, hupdate⟩ := hplaces
    rw [hupdate] at h
    cases h
    exact hfill x

theorem Written.put {v w x : Value} {p : List Int64} (h : Written x p v w) :
    v.put p x = .ok w := by
  have from_axis : ∀ axis, updateFrom (fun _ => .ok x) axis v p = .ok w := by
    induction h with
    | here => exact fun axis => updateFrom_nil _ axis _
    | inside hi hk _ ih =>
      intro axis
      rw [updateFrom_inside axis hi hk, ih]
      rfl
  exact from_axis 0

/-! ## What is read after writing -/

def Apart (p q : List Int64) : Prop := ∃ i, ∃ (hp : i < p.length) (hq : i < q.length), p[i] ≠ q[i]

theorem apart_cons {a b : Int64} {p q : List Int64} (h : Apart (a :: p) (b :: q)) :
    a ≠ b ∨ Apart p q := by
  obtain ⟨i, hp, hq, hne⟩ := h
  cases i with
  | zero => exact .inl hne
  | succ i => exact .inr ⟨i, Nat.lt_of_succ_lt_succ hp, Nat.lt_of_succ_lt_succ hq, hne⟩

namespace Written

variable {v w x : Value} {p : List Int64}

theorem elementFrom_append (h : Written x p v w) (r : List Int64) : ∀ found axis : Nat,
    elementFrom found axis w (p ++ r) = elementFrom found (axis + p.length) x r := by
  induction h with
  | here => exact fun _ _ => rfl
  | @inside index indices items old new k hi hk _ ih =>
    intro found axis
    rw [List.cons_append, elementFrom_inside found axis hi (item_set hk new), ih, List.length_cons]
    congr 1
    omega

/-- Off the way every item is as before, and so is the length of every array. -/
theorem elementFrom_apart (h : Written x p v w) : ∀ {q : List Int64}, Apart p q →
    ∀ found axis : Nat, elementFrom found axis w q = elementFrom found axis v q := by
  induction h with
  | here =>
    rintro q ⟨i, hp, -, -⟩
    cases hp
  | @inside index indices items old new k hi hk _ ih =>
    intro q hapart found axis
    cases q with
    | nil =>
      obtain ⟨i, -, hq, -⟩ := hapart
      cases hq
    | cons b q =>
      rcases index_cases b items with ⟨j, item, hj, hitem⟩ | hout
      · by_cases hjk : j = k
        · subst hjk
          have hb : index = b := Int64.toInt_inj.mp (hi.trans hj.symm)
          have hq : Apart indices q := (apart_cons hapart).resolve_left (fun hne => hne hb)
          rw [elementFrom_inside found axis hj (item_set hk new),
            elementFrom_inside found axis hj hk, ih hq]
        · have hsame : (items.set k new)[j]? = some item := by
            rw [List.getElem?_set_ne (Ne.symm hjk), hitem]
          rw [elementFrom_inside found axis hj hsame, elementFrom_inside found axis hj hitem]
      · have hout' : ∀ j : Nat, b.toInt = j → (items.set k new).length ≤ j := by
          simpa using hout
        rw [elementFrom_outside found axis hout, elementFrom_outside found axis hout',
          List.length_set]

/-- On the way to the place the earlier element has become one with `x` written in it. -/
theorem elementFrom_before {r : List Int64} : ∀ {q : List Int64} {v w : Value},
    Written x (q ++ r) v w → ∃ u u', Written x r u u' ∧ ∀ found axis : Nat,
      elementFrom found axis v q = .ok u ∧ elementFrom found axis w q = .ok u' := by
  intro q
  induction q with
  | nil => exact fun h => ⟨_, _, h, fun _ _ => ⟨rfl, rfl⟩⟩
  | cons index q ih =>
    intro v w h
    cases h with
    | @inside _ _ items old new k hi hk h =>
      obtain ⟨u, u', hu, hread⟩ := ih h
      refine ⟨u, u', hu, fun found axis => ?_⟩
      rw [elementFrom_inside found axis hi hk, elementFrom_inside found axis hi (item_set hk new)]
      exact hread found (axis + 1)

end Written

/-- **Reading and writing by index.** A value is written at a place exactly where one is
read there, with the same errors, and a change of it is one of what is read. After that
the place and what is below it read as what was written, everything apart from the
place as before, and what encloses it as before but for the place. -/
theorem element_put (v x : Value) (p : List Int64) :
    (∀ (line : Nat) (fault : Fault) (m after : Machine),
      Eval.atLine line (v.put p x) m = .error fault after ↔
        Eval.atLine line (v.element p) m = .error fault after) ∧
    (∀ change, v.update p change = do v.put p (← change (← v.element p))) ∧
    ∀ w, v.put p x = .ok w →
      w.element p = .ok x ∧
      (∀ q, Apart p q → w.element q = v.element q) ∧
      (∀ r y, x.element r = .ok y → w.element (p ++ r) = .ok y) ∧
      ∀ q r, p = q ++ r → r ≠ [] →
        ∃ u u', v.element q = .ok u ∧ u.put r x = .ok u' ∧ w.element q = .ok u' := by
  have hplaces := updateFrom_places p 0 v
  rw [Nat.zero_add] at hplaces
  refine ⟨fun line fault m after => ?_, fun change => ?_, fun w hw => ⟨?_, ?_, ?_, ?_⟩⟩
  · unfold put update element
    cases he : elementFrom p.length 0 v p with
    | error cause =>
      rw [he] at hplaces
      rw [hplaces]
    | ok old =>
      rw [he] at hplaces
      obtain ⟨fill, -, hupdate⟩ := hplaces
      rw [hupdate]
      constructor <;> intro h <;> cases h
  · unfold put update element
    cases he : elementFrom p.length 0 v p with
    | error cause =>
      rw [he] at hplaces
      exact hplaces change
    | ok old =>
      rw [he] at hplaces
      obtain ⟨fill, -, hupdate⟩ := hplaces
      rw [hupdate]
      show fill <$> change old = change old >>= fun new => updateFrom (fun _ => .ok new) 0 v p
      cases change old with
      | error cause => rfl
      | ok new => exact (hupdate fun _ => .ok new).symm
  · have h := (Written.of_put hw).elementFrom_append [] p.length 0
    rwa [List.append_nil] at h
  · intro q hq
    exact (Written.of_put hw).elementFrom_apart hq q.length 0
  · intro r y hy
    unfold element
    rw [(Written.of_put hw).elementFrom_append]
    exact elementFrom_of_ok _ hy _
  · rintro q r rfl -
    obtain ⟨u, u', hu, hread⟩ := (Written.of_put hw).elementFrom_before
    exact ⟨u, u', (hread q.length 0).1, hu.put, (hread q.length 0).2⟩

/-- An array written into a row of a ragged one. -/
theorem element_put_ragged :
    let x := array [int 7, int 8]
    let v := array [array [int 1, int 2], array [int 3]]
    let w := array [array [int 1, x], array [int 3]]
    v.put [0, 1] x = .ok w ∧ w.element [0, 1] = .ok x ∧ w.element [1, 1] = v.element [1, 1] ∧
      w.element [0, 1, 1] = .ok (int 8) ∧
      ∃ u u', v.element [0] = .ok u ∧ u.put [1] x = .ok u' ∧ w.element [0] = .ok u' := by
  intro x v w
  have hput : v.put [0, 1] x = .ok w := rfl
  obtain ⟨-, -, h⟩ := element_put v x [0, 1]
  obtain ⟨hplace, hapart, hbelow, habove⟩ := h w hput
  have hdiffer : Apart [0, 1] [1, 1] := ⟨0, by decide, by decide, by decide⟩
  exact ⟨hput, hplace, hapart [1, 1] hdiffer, hbelow [1] (int 8) rfl, habove [0] [1] rfl (by decide)⟩

end MatrixScript.Value
