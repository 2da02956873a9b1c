import MatrixScript.Machine.Exec
import MatrixScript.Proofs.Places
import MatrixScript.Proofs.Rendering

/-!
# Compound assignment

An expression that yields a value has written nothing (`value_quiet`), so it does not
matter how often and in which order expressions are evaluated. A compound assignment
therefore does what the plain assignment of its expansion does (`exec_compound`).
-/

namespace MatrixScript

/-! ## Quiet evaluations -/

namespace Eval

section
variable {α β : Type} {x : Eval α} {a : α} {m m' : Machine}

def Is (x : Eval α) (m : Machine) (a : α) : Prop := x m = .ok a m

/-- Only if it fails, the evaluation may have changed the machine. -/
def Quiet (x : Eval α) : Prop := ∀ m a m', x m = .ok a m' → m' = m

theorem Is.unique {b : α} (h : x.Is m a) (h' : x.Is m b) : a = b := by
  have hab : EStateM.Result.ok a m = .ok b m := Eq.trans (Eq.symm h) h'
  cases hab
  rfl

theorem quiet_of_fails (h : ∀ m a m', x m ≠ .ok a m') : Quiet x :=
  fun m a m' hok => absurd hok (h m a m')

@[simp] theorem is_pure {b : α} : (pure a : Eval α).Is m b ↔ b = a := by
  constructor
  · intro h
    cases h
    rfl
  · rintro rfl
    rfl

theorem quiet_pure (a : α) : Quiet (pure a) := by
  intro m b m' h
  cases h
  rfl

@[simp] theorem not_is_throw (f : Fault) : ¬ (throw f : Eval α).Is m a := fun h => nomatch h

theorem quiet_throw (f : Fault) : Quiet (throw f : Eval α) := quiet_of_fails fun _ _ _ h => nomatch h

theorem bind_ok {f : α → Eval β} {b : β} (h : (x >>= f) m = .ok b m') :
    ∃ a between, x m = .ok a between ∧ f a between = .ok b m' := by
  have hbind : EStateM.bind x f m = .ok b m' := h
  unfold EStateM.bind at hbind
  cases hx : x m with
  | ok a between =>
    rw [hx] at hbind
    exact ⟨a, between, rfl, hbind⟩
  | error f between =>
    rw [hx] at hbind
    cases hbind

theorem Is.bind_eq (ha : x.Is m a) (f : α → Eval β) : (x >>= f) m = f a m := by
  show EStateM.bind x f m = _
  unfold EStateM.bind
  rw [show x m = .ok a m from ha]

theorem Quiet.bind_iff {f : α → Eval β} {b : β} (hx : Quiet x) :
    (x >>= f) m = .ok b m' ↔ ∃ a, x.Is m a ∧ f a m = .ok b m' := by
  constructor
  · intro h
    obtain ⟨a, between, hxok, hf⟩ := bind_ok h
    obtain rfl := hx m a between hxok
    exact ⟨a, hxok, hf⟩
  · rintro ⟨a, ha, hf⟩
    rwa [ha.bind_eq f]

theorem Quiet.is_bind {f : α → Eval β} {b : β} (hx : Quiet x) :
    (x >>= f).Is m b ↔ ∃ a, x.Is m a ∧ (f a).Is m b := hx.bind_iff

theorem Quiet.bind {f : α → Eval β} (hx : Quiet x) (hf : ∀ a, Quiet (f a)) : Quiet (x >>= f) := by
  intro m b m' h
  obtain ⟨a, -, hfok⟩ := hx.bind_iff.mp h
  exact hf a m b m' hfok

/-! ## The steps of an evaluation -/

theorem atLine_quiet (line : Nat) (r : Except Cause α) : Quiet (atLine line r) := by
  cases r with
  | ok a => exact quiet_pure a
  | error cause => exact quiet_throw _

@[simp] theorem atLine_is {line : Nat} {r : Except Cause α} : (atLine line r).Is m a ↔ r = .ok a := by
  cases r with
  | ok b => rw [atLine, is_pure, Except.ok.injEq, eq_comm]
  | error cause => simp [atLine]

end

theorem lookup_quiet (name : String) (line : Nat) : Quiet (lookup name line) := by
  intro m a m' h
  rw [lookup_run] at h
  split at h <;> cases h
  rfl

@[simp] theorem lookup_is {name : String} {line : Nat} {value : Value} {m : Machine} :
    (lookup name line).Is m value ↔ m.memory.lookup? name = some value := by
  unfold Is
  rw [lookup_run]
  cases m.memory.lookup? name <;> simp

theorem build_quiet (function : Sized) (arguments : List Value) (line : Nat) :
    Quiet (build function arguments line) :=
  fun m => atLine_quiet line (function.build m.allocator arguments) m

@[simp] theorem need_pure (line : Nat) (v : Value) : need line (pure (some v)) = pure v := rfl

theorem need_bind {α : Type} (line : Nat) (x : Eval α) (f : α → Eval (Option Value)) :
    need line (x >>= f) = x >>= fun a => need line (f a) :=
  bind_assoc x f _

end Eval

open Eval

/-! ## Expressions that yield a value -/

theorem need_call_quiet (function : Builtin) (arguments : List Value) (line l : Nat) :
    Quiet (need l (function.call arguments line)) := by
  cases function with
  | print =>
    -- Printing is the only writing, and it leaves no value.
    refine quiet_of_fails fun m a m' h => ?_
    rw [Builtin.call, need_bind] at h
    obtain ⟨_, _, -, hnone⟩ := bind_ok h
    cases hnone
  | sized function =>
    rw [Builtin.call]
    by_cases hcount : arguments.length = 1
    · rw [if_pos hcount, need_bind]
      exact (build_quiet function arguments line).bind fun _ => quiet_pure _
    · rw [if_neg hcount]
      exact quiet_throw _

mutual

theorem need_quiet : ∀ (e : Expr) (l : Nat), Quiet (need l e.eval)
  | .int _ _, _ => by rw [Expr.eval]; exact quiet_pure _
  | .real _ _, _ => by rw [Expr.eval]; exact quiet_pure _
  | .str _ _, _ => by rw [Expr.eval]; exact quiet_pure _
  | .name spelling line, l => by
    rw [Expr.eval, need_bind]
    exact (lookup_quiet spelling line).bind fun _ => quiet_pure _
  | .vector ⟨elements, _⟩, l => by
    rw [Expr.eval, need_bind]
    exact (evalAll_quiet elements).bind fun _ => quiet_pure _
  | .matrix rows _, l => by
    rw [Expr.eval, need_bind]
    exact (evalRows_quiet rows).bind fun _ => quiet_pure _
  | .call function arguments line, l => by
    rw [Expr.eval, need_bind]
    exact (evalAll_quiet arguments).bind fun values => need_call_quiet function values line l
  | .binary op left right line, l => by
    rw [Expr.eval, need_bind]
    refine (need_quiet left left.line).bind fun leftValue => ?_
    by_cases hop : op = .subscript
    · rw [if_pos hop]
      cases right with
      | vector row =>
        obtain ⟨indices, _⟩ := row
        rw [need_bind]
        refine (evalIndices_quiet line indices).bind fun positions => ?_
        rw [need_bind]
        exact (atLine_quiet line _).bind fun _ => quiet_pure _
      | _ => exact quiet_throw _
    · rw [if_neg hop, need_bind]
      refine (need_quiet right right.line).bind fun rightValue => ?_
      rw [need_bind]
      exact (atLine_quiet line _).bind fun _ => quiet_pure _
  | .unary op operand line, l => by
    rw [Expr.eval, need_bind]
    refine (need_quiet operand operand.line).bind fun value => ?_
    rw [need_bind]
    exact (atLine_quiet line _).bind fun _ => quiet_pure _

theorem evalAll_quiet : ∀ es : List Expr, Quiet (evalAll es)
  | [] => by rw [evalAll]; exact quiet_pure _
  | e :: es => by
    rw [evalAll]
    exact (need_quiet e e.line).bind fun _ => (evalAll_quiet es).bind fun _ => quiet_pure _

theorem evalRows_quiet : ∀ rows : List Row, Quiet (evalRows rows)
  | [] => by rw [evalRows]; exact quiet_pure _
  | ⟨elements, _⟩ :: rows => by
    rw [evalRows]
    exact (evalAll_quiet elements).bind fun _ => (evalRows_quiet rows).bind fun _ => quiet_pure _

theorem evalIndices_quiet (line : Nat) : ∀ es : List Expr, Quiet (evalIndices line es)
  | [] => by rw [evalIndices]; exact quiet_pure _
  | e :: es => by
    rw [evalIndices]
    exact (need_quiet e e.line).bind fun _ => (atLine_quiet line _).bind fun _ =>
      (evalIndices_quiet line es).bind fun _ => quiet_pure _

end

theorem value_quiet (e : Expr) : Quiet e.value := need_quiet e e.line

section
variable {m m' : Machine} {v : Value}

theorem name_is {name : String} {l : Nat} :
    (Expr.name name l).value.Is m v ↔ m.memory.lookup? name = some v := by
  rw [Expr.value, Expr.eval]
  simp only [need_bind, need_pure, bind_pure, lookup_is]

theorem binary_is {op : BinaryOp} {left right : Expr} {l : Nat} (hop : op ≠ .subscript) :
    (Expr.binary op left right l).value.Is m v ↔
      ∃ a, left.value.Is m a ∧ ∃ b, right.value.Is m b ∧ op.apply a b = .ok v := by
  rw [Expr.value, Expr.eval]
  simp only [if_neg hop, need_bind, need_pure, bind_pure, (need_quiet _ _).is_bind, atLine_is,
    Expr.value]

theorem subscript_is {array : Expr} {indices : List Expr} {k l : Nat} :
    (Expr.binary .subscript array (.vector ⟨indices, k⟩) l).value.Is m v ↔
      ∃ a, array.value.Is m a ∧
        ∃ positions, (evalIndices l indices).Is m positions ∧ a.element positions = .ok v := by
  rw [Expr.value, Expr.eval]
  simp only [if_true, need_bind, need_pure, bind_pure, (need_quiet _ _).is_bind,
    (evalIndices_quiet _ _).is_bind, atLine_is, Expr.value]

/-- The line of an access only matters for its errors. -/
theorem evalIndices_is_line (line l : Nat) (es : List Expr) : ∀ {positions : List Int64},
    (evalIndices line es).Is m positions ↔ (evalIndices l es).Is m positions := by
  induction es with
  | nil => rw [evalIndices, evalIndices]
  | cons e es ih =>
    simp only [evalIndices, (need_quiet e e.line).is_bind, (atLine_quiet _ _).is_bind,
      (evalIndices_quiet _ es).is_bind, atLine_is, ih, implies_true]

end

/-! ## Combining in place -/

/-- Changing an element is reading it and writing the changed one. -/
theorem Value.update_eq_ok {v w : Value} {p : List Int64} {change : Value → Except Cause Value} :
    v.update p change = .ok w ↔
      ∃ old, v.element p = .ok old ∧ ∃ new, change old = .ok new ∧ v.put p new = .ok w := by
  have hplaces := updateFrom_places p 0 v
  rw [Nat.zero_add] at hplaces
  unfold put update element
  cases he : elementFrom p.length 0 v p with
  | error cause =>
    rw [he] at hplaces
    simp [show ∀ change, updateFrom change 0 v p = .error cause from hplaces]
  | ok old =>
    rw [he] at hplaces
    obtain ⟨fill, -, hupdate⟩ := hplaces
    simp only [hupdate, Except.ok.injEq, exists_eq_left']
    cases change old <;> simp

section
variable {op : AssignOp} {binary : BinaryOp} {new : Value} {line l : Nat} {m m' : Machine}

theorem store_name_ok (h : op.binary? = some binary) {name : String} :
    (Target.name name l).store op new line m = .ok () m' ↔
      ∃ old, m.memory.lookup? name = some old ∧
        ∃ stored, binary.apply old new = .ok stored ∧ Eval.assign name stored m = .ok () m' := by
  have hop : op ≠ .set := by
    rintro rfl
    cases h
  have hcombine : ∀ old, op.combine old new = binary.apply old new := fun old => by
    rw [AssignOp.combine, h]
  simp only [Target.store_name hop, (lookup_quiet _ _).bind_iff, (atLine_quiet _ _).bind_iff,
    lookup_is, atLine_is, hcombine]

theorem store_element_ok {array : String} {indices : Row} :
    (Target.element array indices l).store op new line m = .ok () m' ↔
      ∃ positions, (evalIndices line indices.elements).Is m positions ∧
        ∃ current, m.memory.lookup? array = some current ∧
          ∃ w, current.update positions (op.combine · new) = .ok w ∧
            Eval.replace array w m = .ok () m' := by
  simp only [Target.store_element, (evalIndices_quiet _ _).bind_iff, (lookup_quiet _ _).bind_iff,
    (atLine_quiet _ _).bind_iff, lookup_is, atLine_is]

/-- Combining with what a target holds is reading the target and storing the combination. -/
theorem store_combined_ok (h : op.binary? = some binary) (target : Target) (line l : Nat) :
    target.store op new line m = .ok () m' ↔
      ∃ old, target.expr.value.Is m old ∧
        ∃ stored, binary.apply old new = .ok stored ∧ target.store .set stored l m = .ok () m' := by
  cases target with
  | name spelling k =>
    rw [store_name_ok h]
    simp only [Target.expr, name_is, Target.store]
  | element array indices k =>
    obtain ⟨elements, j⟩ := indices
    have hcombine : (fun old => op.combine old new) = fun old => binary.apply old new := by
      funext old
      rw [AssignOp.combine, h]
    rw [store_element_ok, hcombine]
    constructor
    · rintro ⟨positions, hpositions, current, hcurrent, w, hw, hreplace⟩
      obtain ⟨old, hold, stored, hstored, hput⟩ := Value.update_eq_ok.mp hw
      refine ⟨old, ?_, stored, hstored, ?_⟩
      · exact subscript_is.mpr ⟨current, name_is.mpr hcurrent, positions,
          (evalIndices_is_line line k elements).mp hpositions, hold⟩
      · exact store_element_ok.mpr ⟨positions, (evalIndices_is_line line l elements).mp hpositions,
          current, hcurrent, w, hput, hreplace⟩
    · rintro ⟨old, hread, stored, hstored, hstore⟩
      obtain ⟨current, hcurrent, positions, hpositions, hold⟩ := subscript_is.mp hread
      obtain ⟨positions', hpositions', current', hcurrent', w, hput, hreplace⟩ :=
        store_element_ok.mp hstore
      -- The indices and the array are no others when the target is written.
      obtain rfl := hpositions.unique ((evalIndices_is_line l k elements).mp hpositions')
      obtain rfl : current = current' := Option.some.inj ((name_is.mp hcurrent).symm.trans hcurrent')
      exact ⟨positions, (evalIndices_is_line k line elements).mp hpositions, current,
        name_is.mp hcurrent, w, Value.update_eq_ok.mpr ⟨old, hold, stored, hstored, hput⟩, hreplace⟩
  | invalid e =>
    constructor
    · intro h
      cases h
    · rintro ⟨_, _, _, _, h⟩
      cases h

theorem assign_ok {target : Target} {value : Expr} :
    target.assign op value line m = .ok () m' ↔
      ∃ new, value.value.Is m new ∧ target.store op new line m = .ok () m' :=
  (value_quiet value).bind_iff

theorem assign_expansion (h : op.binary? = some binary) (target : Target) (value : Expr)
    (line l k : Nat) :
    target.assign op value line m = .ok () m' ↔
      target.assign .set (.binary binary target.expr value k) l m = .ok () m' := by
  have hop : binary ≠ .subscript := by
    rintro rfl
    cases op <;> cases h
  simp only [assign_ok, binary_is hop, store_combined_ok h target line l]
  constructor
  · rintro ⟨new, hnew, old, hold, stored, hstored, hstore⟩
    exact ⟨stored, ⟨old, hold, new, hnew, hstored⟩, hstore⟩
  · rintro ⟨stored, ⟨old, hold, new, hnew, hstored⟩, hstore⟩
    exact ⟨new, hnew, old, hold, stored, hstored, hstore⟩

end

/-! ## Compound assignments -/

theorem exec_assign_ok {fuel : Nat} {target : Target} {op : AssignOp} {value : Expr} {line : Nat}
    {m m' : Machine} {flow : Flow} :
    (Stmt.assign target op value line).exec fuel m = .ok flow m' ↔
      flow = .normal ∧ target.assign op value line m = .ok () m' := by
  rw [Stmt.exec]
  show EStateM.bind (Exec.eval _) _ m = _ ↔ _
  unfold EStateM.bind Exec.eval
  cases target.assign op value line m with
  | ok u after =>
    show EStateM.Result.ok Flow.normal after = .ok flow m' ↔ _
    simp [eq_comm]
  | error f after => simp

/-- **A compound assignment means its expansion.** It succeeds exactly where the plain
assignment of the combined value to the same target does, with the same memory and the
same output after it. -/
theorem exec_compound {op : AssignOp} {binary : BinaryOp} (h : op.binary? = some binary) (fuel : Nat)
    (target : Target) (value : Expr) (line l k : Nat) (m m' : Machine) (flow : Flow) :
    (Stmt.assign target op value line).exec fuel m = .ok flow m' ↔
      (Stmt.assign target .set (.binary binary target.expr value k) l).exec fuel m = .ok flow m' := by
  rw [exec_assign_ok, exec_assign_ok, assign_expansion h target value line l k]

/-- Inside a loop, an item of a ragged array of an outer frame times the array's first item. -/
theorem exec_compound_ragged :
    let m (last : Int64) : Machine :=
      ⟨((Scope.fresh.bind "x" (.array [.int 3, .array [.int 4, .int last]])).push .whileLoop).bind
        "i" (.int 1), .unbounded, fun _ _ => true⟩
    let target : Target := .element "x" ⟨[.name "i" 1, .int 1 1], 1⟩ 1
    let first : Expr := .binary .subscript (.name "x" 1) (.vector ⟨[.int 0 1], 1⟩) 1
    AssignOp.mul.binary? = some .mul ∧
      (Stmt.assign target .mul first 1).exec 0 (m 5) = .ok .normal (m 15) ∧
      (Stmt.assign target .set (.binary .mul target.expr first 1) 1).exec 0 (m 5) =
        .ok .normal (m 15) := by
  intro m target first
  have hrun : (Stmt.assign target .mul first 1).exec 0 (m 5) = .ok .normal (m 15) := rfl
  exact ⟨rfl, hrun, (exec_compound rfl 0 target first 1 1 1 _ _ _).mp hrun⟩

end MatrixScript
