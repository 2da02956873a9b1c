import MatrixScript.Proofs.Agreement
import MatrixScript.Proofs.Evaluation
import MatrixScript.Proofs.Unwinding

/-!
# Disciplines

A discipline says what a type allows of a value, how a run may stop, and which
expressions and assignments it is about. It is sound if these evaluate to what
their types allow. Then a statement without diagnostics takes a memory that
agrees with the table before it to one that agrees with the table after it. A run
that is cut short, by a jump or a fault, ends somewhere between the two
(`Discipline.Reached`), and only in a way that is admitted (`exec_simulates`).
-/

namespace MatrixScript

/-! ## Conditions on statements -/

structure Condition where
  expr : Table → Expr → Bool
  place : Table → AssignOp → Target → Bool

mutual

/-- Whether a statement meets a condition throughout, each part in the table that
it is checked in. -/
def Stmt.meets (C : Condition) : Stmt → Table → Bool
  | .block body, table => stmtsMeet C body table
  | .expr e _, table => C.expr table e
  | .assign target op value _, table => C.expr table value && C.place table op target
  | .ifElse condition body none _, table =>
    C.expr table condition && stmtsMeet C body (table.push .branch)
  | .ifElse condition body (some other) _, table =>
    C.expr table condition && stmtsMeet C body (table.push .branch) &&
      stmtsMeet C other (table.push .branch)
  | .whileLoop condition body _, table =>
    C.expr table condition && stmtsMeet C body (table.push .whileLoop)
  | .forLoop iterator range body _, table =>
    C.expr table range && stmtsMeet C body (iteratorTable table iterator)
  | .ret value _, table => C.expr table value
  | .jump _ _, _ => true

def stmtsMeet (C : Condition) : List Stmt → Table → Bool
  | [], _ => true
  | s :: rest, table => s.meets C table && stmtsMeet C rest (s.check table).result

end

def Condition.and (C C' : Condition) : Condition where
  expr := fun table e => C.expr table e && C'.expr table e
  place := fun table op target => C.place table op target && C'.place table op target

@[simp] theorem Condition.and_expr (C C' : Condition) (table : Table) (e : Expr) :
    (C.and C').expr table e = (C.expr table e && C'.expr table e) := rfl

@[simp] theorem Condition.and_place (C C' : Condition) (table : Table) (op : AssignOp)
    (target : Target) :
    (C.and C').place table op target = (C.place table op target && C'.place table op target) := rfl

mutual

theorem meets_and {C C' : Condition} : ∀ (s : Stmt) (table : Table),
    s.meets (C.and C') table = (s.meets C table && s.meets C' table)
  | .block body, table => stmtsMeet_and body table
  | .expr e _, table => rfl
  | .assign target op value _, table => by
    simp only [Stmt.meets, Condition.and_expr, Condition.and_place]
    ac_rfl
  | .ifElse condition body none _, table => by
    simp only [Stmt.meets, Condition.and_expr, stmtsMeet_and body]
    ac_rfl
  | .ifElse condition body (some other) _, table => by
    simp only [Stmt.meets, Condition.and_expr, stmtsMeet_and body, stmtsMeet_and other]
    ac_rfl
  | .whileLoop condition body _, table => by
    simp only [Stmt.meets, Condition.and_expr, stmtsMeet_and body]
    ac_rfl
  | .forLoop iterator range body _, table => by
    simp only [Stmt.meets, Condition.and_expr, stmtsMeet_and body]
    ac_rfl
  | .ret value _, table => rfl
  | .jump _ _, _ => rfl

theorem stmtsMeet_and {C C' : Condition} : ∀ (body : List Stmt) (table : Table),
    stmtsMeet (C.and C') body table = (stmtsMeet C body table && stmtsMeet C' body table)
  | [], _ => rfl
  | s :: rest, table => by
    simp only [stmtsMeet, meets_and s, stmtsMeet_and rest]
    ac_rfl

end

/-! ## Statements without diagnostics -/

section
variable {table : Table}

theorem checkValue_clean (hs : table.Shaped) {e : Expr} (h : (e.checkValue table).diagnostics = []) :
    ∃ type, e.checkValue table = ⟨some type, []⟩ ∧ HasType table e type := by
  obtain ⟨type, hr, -, ht⟩ := ((check_rules hs e).need e.line).clean h
  exact ⟨type, hr, ht⟩

theorem checkStore_clean {place : String} {expected found : ArrayType} {line : Nat}
    (h : (checkStore place expected found line).diagnostics = []) : found = expected := by
  unfold checkStore at h
  split at h
  · assumption
  · cases h

theorem checkBound_clean (hs : table.Shaped) {bound : Expr} {line : Nat}
    (h : (checkBound table bound line).diagnostics = []) :
    bound.checkValue table = ⟨some (.scalar .int), []⟩ ∧ HasType table bound (.scalar .int) := by
  unfold checkBound at h
  rw [Report.diagnostics_bind, List.append_eq_nil_iff] at h
  obtain ⟨type, hr, ht⟩ := checkValue_clean hs h.1
  rw [hr] at h
  have h := h.2
  dsimp only at h
  split at h
  · rename_i hint
    rw [isScalarOf_iff.mp hint] at hr ht
    exact ⟨hr, ht⟩
  · cases h

theorem inCheckedFrame_clean {kind : FrameKind} {body : Table → Report Table}
    (h : (inCheckedFrame table kind body).diagnostics = []) :
    (body (table.push kind)).diagnostics = [] := by
  rw [inCheckedFrame, Report.diagnostics_bind, List.append_eq_nil_iff] at h
  exact h.1

theorem ifElse_clean {condition : Expr} {body : List Stmt} {otherwise : Option (List Stmt)}
    {line : Nat} (h : ((Stmt.ifElse condition body otherwise line).check table).diagnostics = []) :
    (condition.checkValue table).diagnostics = [] ∧
      ∀ branch ∈ body :: otherwise.toList,
        (checkStmts branch (table.push .branch)).diagnostics = [] := by
  unfold Stmt.check at h
  rw [Report.diagnostics_bind, Report.diagnostics_bind, List.append_eq_nil_iff,
    List.append_eq_nil_iff, inCheckedFrame_result (checkStmts_extends body)] at h
  refine ⟨h.1, fun branch hm => ?_⟩
  rcases List.mem_cons.mp hm with rfl | hm
  · exact inCheckedFrame_clean h.2.1
  · cases otherwise with
    | none => cases hm
    | some other => cases List.mem_singleton.mp hm; exact inCheckedFrame_clean h.2.2

theorem whileLoop_clean {condition : Expr} {body : List Stmt} {line : Nat}
    (h : ((Stmt.whileLoop condition body line).check table).diagnostics = []) :
    (condition.checkValue table).diagnostics = [] ∧
      (checkStmts body (table.push .whileLoop)).diagnostics = [] := by
  rw [Stmt.check, Report.diagnostics_bind, List.append_eq_nil_iff] at h
  exact ⟨h.1, inCheckedFrame_clean h.2⟩

theorem forLoop_clean {iterator : String} {range : Expr} {body : List Stmt} {line : Nat}
    (h : ((Stmt.forLoop iterator range body line).check table).diagnostics = []) :
    (checkHeader table range line).diagnostics = [] ∧
      (checkStmts body (iteratorTable table iterator)).diagnostics = [] := by
  rw [Stmt.check, Report.diagnostics_bind, List.append_eq_nil_iff] at h
  exact ⟨h.1, inCheckedFrame_clean h.2⟩

end

/-! ## Disciplines -/

structure Discipline extends Condition where
  holds : ArrayType → Value → Prop
  admits : Stop → Prop

theorem Exec.ends_evalOr {α : Type} {x : Eval α} {ok : α → Prop} {err : Stop → Prop} {m : Machine}
    (h : x.GivesOr (fun f => err (.fault f)) m.memory ok) :
    Ends (Exec.eval x m) (fun a m' => m'.memory = m.memory ∧ ok a)
      (fun stop m' => m'.memory = m.memory ∧ err stop) :=
  (Exec.ends_eval x m).mpr (h m rfl)

namespace Discipline

abbrev Gives (D : Discipline) {α : Type} (memory : Memory) (x : Eval α) (ok : α → Prop) : Prop :=
  x.GivesOr (fun f => D.admits (.fault f)) memory ok

abbrev Stores (D : Discipline) (memory : Memory) (x : Eval Unit) (ok : Memory → Prop) : Prop :=
  x.StoresOr (fun f => D.admits (.fault f)) memory ok

def Typed (D : Discipline) (table : Table) (memory : Memory) : Prop :=
  ∀ name type, table.lookup? name = some type →
    ∃ value, memory.lookup? name = some value ∧ D.holds type value

structure Sound (D : Discipline) : Prop where
  shaped : ∀ {type v}, D.holds type v → type.shape ≠ []
  iterator : ∀ i, D.holds (.scalar .int) (.int i)
  outOfFuel : D.admits .outOfFuel
  output : ∀ failure, D.admits (.fault (.output failure))
  expected : ∀ line, ∀ cause ∈ [Cause.booleanExpected, .integerExpected],
    D.admits (.fault (.atLine line cause))
  bounds : ∀ {table left right line}, D.expr table (.binary .range left right line) = true →
    D.expr table left = true ∧ D.expr table right = true
  eval : ∀ {table memory e}, D.Typed table memory → D.expr table e = true →
    (e.check table).diagnostics = [] → D.Gives memory e.eval fun _ => True
  value : ∀ {table memory e type}, D.Typed table memory → D.expr table e = true →
    e.checkValue table = ⟨some type, []⟩ → D.Gives memory e.value (D.holds type)
  combine : ∀ {table op name nameLine type v w}, D.place table op (.name name nameLine) = true →
    table.lookup? name = some type → D.holds type v → D.holds type w →
    ∀ line, Yields (op.combine v w) (D.holds type) fun cause => D.admits (.fault (.atLine line cause))
  element : ∀ {table memory op array indices indicesLine targetLine type types new},
    D.place table op (.element array ⟨indices, indicesLine⟩ targetLine) = true →
    Agrees D.holds table memory → table.lookup? array = some type →
    HaveTypes table indices types → D.holds (.scalar type.base) new →
    ∀ line, D.Stores memory ((Target.element array ⟨indices, indicesLine⟩ targetLine).store op new line)
      (Agrees D.holds table)

section
variable {D : Discipline} {table : Table} {memory : Memory}

theorem Typed.shaped (h : D.Typed table memory)
    (hs : ∀ {type v}, D.holds type v → type.shape ≠ []) : table.Shaped := by
  intro name type hn
  obtain ⟨_, _, hv⟩ := h name type hn
  exact hs hv

theorem typed_of_agrees (h : Agrees D.holds table memory) : D.Typed table memory :=
  fun _ _ hn => h.typed hn

/-- Where a frame was opened, the names of the table around it still have values. -/
theorem typed_of_push {kind : FrameKind} (h : Agrees D.holds (table.push kind) memory) :
    D.Typed table memory :=
  fun _ _ hn => h.typed hn

theorem Typed.lookup (h : D.Typed table memory) {name : String} {type : ArrayType}
    (hn : table.lookup? name = some type) (line : Nat) :
    D.Gives memory (Eval.lookup name line) (D.holds type) := by
  obtain ⟨value, hv, hr⟩ := h name type hn
  exact Eval.givesOr_lookup hv hr line

theorem value_gives (hD : D.Sound) (hm : D.Typed table memory) {e : Expr}
    (he : D.expr table e = true) (h : (e.checkValue table).diagnostics = []) :
    D.Gives memory e.value fun v => ∃ type, D.holds type v := by
  obtain ⟨type, hr, -⟩ := checkValue_clean (hm.shaped hD.shaped) h
  exact (hD.value hm he hr).imp fun v hv => ⟨type, hv⟩

theorem condition_gives (hD : D.Sound) (hm : D.Typed table memory) {e : Expr}
    (he : D.expr table e = true) (h : (e.checkValue table).diagnostics = []) (line : Nat) :
    D.Gives memory (do Eval.atLine line (← e.value).holds) fun _ => True := by
  refine (value_gives hD hm he h).bind fun v _ => Eval.givesOr_atLine ?_
  cases v with
  | str _ => exact hD.expected line _ (by simp)
  | array _ => exact hD.expected line _ (by simp)
  | range _ _ => exact hD.expected line _ (by simp)
  | _ => trivial

theorem bounds_gives (hD : D.Sound) (hm : D.Typed table memory) {header : Expr} {line : Nat}
    (he : D.expr table header = true) (h : (checkHeader table header line).diagnostics = []) :
    D.Gives memory (do
      match ← header.value with
      | .range start stop => return (start, stop)
      | other => throw (.atLine line (.rangeExpected other.kind)) : Eval (Int64 × Int64))
      fun _ => True := by
  unfold checkHeader at h
  split at h
  · rename_i left right l
    rw [Report.diagnostics_bind, List.append_eq_nil_iff] at h
    have hs := hm.shaped hD.shaped
    have integer : ∀ v : Value, Yields v.toInteger (fun _ => True) fun cause =>
        D.admits (.fault (.atLine l cause)) := by
      intro v
      cases v with
      | int _ => trivial
      | _ => exact hD.expected l _ (by simp)
    have range : D.Gives memory (Expr.binary .range left right l).value
        fun v => ∃ start stop, v = .range start stop := by
      refine Eval.GivesOr.need ?_ _
      rw [Expr.eval]
      refine (hD.value hm (hD.bounds he).1 (checkBound_clean hs h.1).1).bind fun v _ => ?_
      rw [if_neg (by simp)]
      refine (hD.value hm (hD.bounds he).2 (checkBound_clean hs h.2).1).bind fun w _ => ?_
      refine (Eval.givesOr_atLine ?_).value
      exact (integer v).bind fun start _ => (integer w).bind fun stop _ => ⟨start, stop, rfl⟩
    refine range.bind ?_
    rintro _ ⟨start, stop, rfl⟩
    exact Eval.givesOr_pure trivial
  · rw [Report.diagnostics_bind, List.append_eq_nil_iff] at h
    cases h.2

/-! ## Assignments -/

theorem store_name (hD : D.Sound) (ha : Agrees D.holds table memory) {name : String} {op : AssignOp}
    {nameLine : Nat} (hp : D.place table op (.name name nameLine) = true) {type : ArrayType}
    (hn : table.lookup? name = some type) {new : Value} (hv : D.holds type new) (line : Nat) :
    D.Stores memory ((Target.name name nameLine).store op new line) (Agrees D.holds table) := by
  by_cases hop : op = .set
  · subst hop
    exact Eval.storesOr_assign (ha.assign hn hv)
  · rw [Target.store_name hop]
    refine ((typed_of_agrees ha).lookup hn line).storing fun current hc => ?_
    refine (Eval.givesOr_atLine (hD.combine hp hn hc hv line)).storing fun stored hs => ?_
    exact Eval.storesOr_assign (ha.assign hn hs)

theorem assign_agrees (hD : D.Sound) (ha : Agrees D.holds table memory) {target : Target}
    {op : AssignOp} {value : Expr} {line : Nat} (he : D.expr table value = true)
    (hp : D.place table op target = true)
    (h : (checkAssignment table target op value line).diagnostics = []) :
    D.Stores memory (target.assign op value line)
      (Agrees D.holds (checkAssignment table target op value line).result) := by
  have hm := typed_of_agrees ha
  unfold checkAssignment at h ⊢
  have hvalue : (value.checkValue table).diagnostics = [] := by
    rw [Report.diagnostics_bind] at h
    exact (List.append_eq_nil_iff.mp h).1
  obtain ⟨type, hr, -⟩ := checkValue_clean (hm.shaped hD.shaped) hvalue
  have given := hD.value hm he hr
  rw [hr, bind_clean] at h ⊢
  refine given.storing fun new hv => ?_
  cases target with
  | invalid e => cases h
  | name spelling l =>
    dsimp only at h ⊢
    cases hn : table.lookup? spelling with
    | some current =>
      rw [hn] at h
      dsimp only at h ⊢
      have := checkStore_clean (List.append_eq_nil_iff.mp h).1
      subst this
      exact store_name hD ha hp hn hv line
    | none =>
      rw [hn] at h
      dsimp only at h ⊢
      cases op with
      | set =>
        rw [if_pos rfl, defineName_extends hn]
        exact Eval.storesOr_assign (ha.define hn hv)
      | _ => cases h
  | element array indices l =>
    obtain ⟨elements, indicesLine⟩ := indices
    dsimp only [Row.elements] at h ⊢
    have hindices : (checkAll table elements).diagnostics = [] := by
      rw [Report.diagnostics_bind] at h
      exact (List.append_eq_nil_iff.mp h).1
    obtain ⟨types, hts, hat⟩ := (checkAll_rules (hm.shaped hD.shaped) elements).clean hindices
    rw [hts, bind_clean, elementType] at h ⊢
    cases hn : table.lookup? array with
    | none => rw [hn] at h; cases h
    | some arrayType =>
      rw [hn] at h
      have h : (checkStore _ (.scalar arrayType.base) type l >>= fun _ => pure table).diagnostics = [] := h
      have := checkStore_clean (List.append_eq_nil_iff.mp h).1
      subst this
      exact hD.element hp ha hn hat hv line

end

/-! ## Endings -/

/-- The memory agrees with a table on the way from one to another. -/
def Reached (D : Discipline) (before after : Table) (memory : Memory) : Prop :=
  ∃ table, before.Extends table ∧ table.Extends after ∧ Agrees D.holds table memory

structure HandsOn (D : Discipline) (before after : Table) (flow : Flow) (memory : Memory) : Prop where
  reached : D.Reached before after memory
  completed : flow = .normal → Agrees D.holds after memory
  returned : ∀ v, flow = .ret v → ∃ type, D.holds type v

def Simulates (D : Discipline) (c : Exec Flow) (before after : Table) : Prop :=
  ∀ m : Machine, Agrees D.holds before m.memory →
    Ends (c m) (fun flow m' => D.HandsOn before after flow m'.memory)
      (fun stop m' => D.Reached before after m'.memory ∧ D.admits stop)

section
variable {D : Discipline} {before after table : Table}

theorem Reached.refl {memory : Memory} (h : Agrees D.holds table memory) :
    D.Reached table table memory := ⟨table, .refl table, .refl table, h⟩

theorem Reached.start (he : before.Extends after) {memory : Memory}
    (h : Agrees D.holds before memory) : D.Reached before after memory :=
  ⟨before, .refl before, he, h⟩

theorem simulates_pure {flow : Flow} (h : ∀ v, flow = .ret v → ∃ type, D.holds type v) :
    D.Simulates (pure flow) table table := fun _ ha => ⟨.refl ha, fun _ => ha, h⟩

theorem simulates_eval {α : Type} {x : Eval α} {ok : α → Prop} {next : α → Exec Flow}
    (he : before.Extends after)
    (hx : ∀ memory, Agrees D.holds before memory → D.Gives memory x ok)
    (hnext : ∀ a, ok a → D.Simulates (next a) before after) :
    D.Simulates (Exec.eval x >>= next) before after := by
  intro m ha
  rw [ends_bind]
  refine (Exec.ends_evalOr (hx m.memory ha)).mono ?_ ?_
  · rintro a m' ⟨hmem, hok⟩
    exact hnext a hok m' (by rw [hmem]; exact ha)
  · rintro stop m' ⟨hmem, hstop⟩
    exact ⟨.start he (by rw [hmem]; exact ha), hstop⟩

theorem simulates_storing {x : Eval Unit} (he : before.Extends after)
    (hx : ∀ memory, Agrees D.holds before memory → D.Stores memory x (Agrees D.holds after)) :
    D.Simulates (do Exec.eval x; return .normal) before after := by
  intro m ha
  rw [ends_bind, Exec.ends_eval]
  refine (hx m.memory ha m rfl).mono ?_ ?_
  · intro _ m' hok
    exact ⟨⟨after, he, .refl after, hok⟩, fun _ => hok, fun _ h => by cases h⟩
  · rintro f m' ⟨hmem, hstop⟩
    exact ⟨.start he (by rw [hmem]; exact ha), hstop⟩

theorem Reached.widen {before' after' : Table} {memory : Memory}
    (h : D.Reached before' after' memory) (he₁ : before.Extends before')
    (he₂ : after'.Extends after) : D.Reached before after memory := by
  obtain ⟨t, hbt, hta, hat⟩ := h
  exact ⟨t, he₁.trans hbt, hta.trans he₂, hat⟩

/-- Two computations in turn, the second only after the first completes. -/
theorem Simulates.andThen {first second : Exec Flow} {middle : Table}
    (h₁ : D.Simulates first before middle) (h₂ : D.Simulates second middle after)
    (he₁ : before.Extends middle) (he₂ : middle.Extends after) :
    D.Simulates (do
      match ← first with
      | .normal => second
      | flow => return flow) before after := by
  intro m ha
  rw [ends_bind]
  refine (h₁ m ha).mono (fun flow m₁ hf => ?_) ?_
  · have cut := hf.reached.widen (.refl before) he₂
    cases flow with
    | normal =>
      refine (h₂ m₁ (hf.completed rfl)).mono (fun flow m₂ hf' => ?_) ?_
      · exact ⟨hf'.reached.widen he₁ (.refl after), hf'.completed, hf'.returned⟩
      · rintro stop m₂ ⟨hr, hstop⟩
        exact ⟨hr.widen he₁ (.refl after), hstop⟩
    | jump j => exact ⟨cut, by simp, hf.returned⟩
    | ret v => exact ⟨cut, by simp, hf.returned⟩
  · rintro stop m₁ ⟨hr, hstop⟩
    exact ⟨hr.widen (.refl before) he₂, hstop⟩

/-! ## Frames -/

def Inside (D : Discipline) (table : Table) (memory : Memory) : Prop :=
  ∃ inside : Table, inside.outer = table.chain ∧ Agrees D.holds inside memory

def EndsInside (D : Discipline) (table : Table) (r : EStateM.Result Stop Machine Flow) : Prop :=
  Ends r (fun flow m => D.Inside table m.memory ∧ ∀ v, flow = .ret v → ∃ type, D.holds type v)
    (fun stop m => D.Inside table m.memory ∧ D.admits stop)

theorem Reached.inside {memory : Memory} (h : D.Reached before after memory)
    (ho : before.outer = table.chain) : D.Inside table memory := by
  obtain ⟨t, hbt, _, hat⟩ := h
  exact ⟨t, hbt.outer.trans ho, hat⟩

theorem Simulates.endsInside {body : Exec Flow} (h : D.Simulates body before after)
    (ho : before.outer = table.chain) {m : Machine} (ha : Agrees D.holds before m.memory) :
    D.EndsInside table (body m) := by
  refine (h m ha).mono (fun flow m' hf => ⟨hf.reached.inside ho, hf.returned⟩) ?_
  rintro stop m' ⟨hr, hstop⟩
  exact ⟨hr.inside ho, hstop⟩

theorem simulates_inFrame {kind : FrameKind} {body : Exec Flow}
    (h : ∀ m : Machine, Agrees D.holds (table.push kind) m.memory → D.EndsInside table (body m)) :
    D.Simulates (Exec.inFrame kind body) table table := by
  intro m ha
  rw [Exec.ends_inFrame]
  refine (h { m with memory := m.memory.push kind } (ha.push kind)).mono ?_ ?_
  · rintro flow m' ⟨⟨inside, ho, hin⟩, hret⟩
    have hpop : Agrees D.holds table m'.memory.pop := hin.pop ho
    exact ⟨.refl hpop, fun _ => hpop, hret⟩
  · rintro stop m' ⟨⟨inside, ho, hin⟩, hstop⟩
    exact ⟨.refl (hin.pop ho), hstop⟩

theorem Simulates.inFrame {kind : FrameKind} {body : Exec Flow}
    (h : D.Simulates body (table.push kind) after) :
    D.Simulates (Exec.inFrame kind body) table table :=
  simulates_inFrame fun _ ha => h.endsInside rfl ha

/-! ## Loops -/

/-- After a turn the memory agrees with the table at the start of the body again. -/
theorem Reached.restart {memory : Memory} (h : D.Reached before after memory)
    (hl : before.inner.kind.isLoop = true) : Agrees D.holds before memory := by
  obtain ⟨t, hbt, _, hat⟩ := h
  exact hat.restart hbt hl

theorem repeatWhile_endsInside (hD : D.Sound) {condition : Eval Bool} {body : Exec Flow}
    (hc : ∀ memory, Agrees D.holds (table.push .whileLoop) memory →
      D.Gives memory condition fun _ => True)
    (hb : D.Simulates body (table.push .whileLoop) after) :
    ∀ (fuel : Nat) (m : Machine), Agrees D.holds (table.push .whileLoop) m.memory →
      D.EndsInside table (Exec.repeatWhile (Exec.eval condition) body fuel m) := by
  intro fuel
  induction fuel with
  | zero =>
    intro m ha
    exact ⟨(Reached.refl ha).inside rfl, hD.outOfFuel⟩
  | succ fuel ih =>
    intro m ha
    unfold EndsInside
    rw [Exec.repeatWhile, ends_bind]
    refine (Exec.ends_evalOr (hc m.memory ha)).mono ?_ ?_
    · rintro holds m₁ ⟨hmem, -⟩
      have ha₁ : Agrees D.holds (table.push .whileLoop) m₁.memory := by rw [hmem]; exact ha
      cases holds with
      | false => exact ⟨(Reached.refl ha₁).inside rfl, by simp⟩
      | true =>
        rw [if_pos rfl, ends_bind]
        refine (hb m₁ ha₁).mono (fun flow m₂ hf => ?_) ?_
        -- The frame stays open, with names of this turn that the table does not have.
        · have again := ih m₂ (hf.reached.restart rfl)
          cases flow with
          | normal => exact again
          | ret v => exact ⟨hf.reached.inside rfl, hf.returned⟩
          | jump j =>
            cases j with
            | exit => exact ⟨hf.reached.inside rfl, by simp⟩
            | next => exact again
        · rintro stop m₂ ⟨hr, hstop⟩
          exact ⟨hr.inside rfl, hstop⟩
    · rintro stop m₁ ⟨hmem, hstop⟩
      exact ⟨(Reached.refl (by rw [hmem]; exact ha)).inside rfl, hstop⟩

theorem repeatFor_endsInside (hD : D.Sound) {iterator : String} {body : Exec Flow}
    (hb : D.Simulates body (iteratorTable table iterator) after) :
    ∀ (turns : Nat) (i : Int64) (m : Machine), D.Inside table m.memory →
      (∀ i, Agrees D.holds (iteratorTable table iterator) (m.memory.bind iterator (.int i))) →
      D.EndsInside table (Exec.repeatFor iterator body turns i m) := by
  intro turns
  induction turns with
  | zero =>
    intro i m hin ha
    exact ⟨hin, by simp⟩
  | succ turns ih =>
    intro i m hin ha
    unfold EndsInside
    rw [Exec.repeatFor, ends_bind]
    show Ends ((body >>= _) { m with memory := m.memory.bind iterator (.int i) }) _ _
    rw [ends_bind]
    refine (hb _ (ha i)).mono (fun flow m₁ hf => ?_) ?_
    · have ha₁ : Agrees D.holds (iteratorTable table iterator) m₁.memory := hf.reached.restart rfl
      have again := ih (i + 1) m₁ (hf.reached.inside rfl) fun i => by
        rw [← bind_iterator]
        exact ha₁.bind (hD.iterator i) iterator
      cases flow with
      | normal => exact again
      | ret v => exact ⟨hf.reached.inside rfl, hf.returned⟩
      | jump j =>
        cases j with
        | exit => exact ⟨hf.reached.inside rfl, by simp⟩
        | next => exact again
    · rintro stop m₁ ⟨hr, hstop⟩
      exact ⟨hr.inside rfl, hstop⟩

/-! ## Statements -/

theorem ifElse_meets {C : Condition} {condition : Expr} {body : List Stmt}
    {otherwise : Option (List Stmt)} {line : Nat}
    (h : (Stmt.ifElse condition body otherwise line).meets C table = true) :
    C.expr table condition = true ∧
      ∀ branch ∈ body :: otherwise.toList, stmtsMeet C branch (table.push .branch) = true := by
  cases otherwise with
  | none =>
    rw [Stmt.meets, Bool.and_eq_true] at h
    exact ⟨h.1, fun branch hm => by cases List.mem_singleton.mp hm; exact h.2⟩
  | some other =>
    rw [Stmt.meets, Bool.and_eq_true, Bool.and_eq_true] at h
    refine ⟨h.1.1, fun branch hm => ?_⟩
    rcases List.mem_cons.mp hm with rfl | hm
    · exact h.1.2
    · cases List.mem_singleton.mp hm; exact h.2

mutual

theorem exec_simulates (hD : D.Sound) (fuel : Nat) : ∀ (s : Stmt) (table : Table),
    s.meets D.toCondition table = true → (s.check table).diagnostics = [] →
    D.Simulates (s.exec fuel) table (s.check table).result
  | .block body, table, hm, h => execAll_simulates hD fuel body table hm h
  | .expr e line, table, hm, h => by
    rw [Stmt.check, Report.diagnostics_bind, List.append_eq_nil_iff] at h
    exact simulates_eval (.refl table) (fun _ ha => hD.eval (typed_of_agrees ha) hm h.1) fun _ _ =>
      simulates_pure (by simp)
  | .assign target op value line, table, hm, h => by
    rw [Stmt.meets, Bool.and_eq_true] at hm
    exact simulates_storing (checkAssignment_extends table target op value line) fun _ ha =>
      assign_agrees hD ha hm.1 hm.2 h
  | .ifElse condition body none line, table, hm, h => by
    obtain ⟨hcondition, hbranches⟩ := ifElse_clean h
    obtain ⟨hcm, hbm⟩ := ifElse_meets hm
    rw [(check_branch (checkStmts_extends body) (checkStmts_extends body) condition line table).1,
      exec_ifElse]
    refine simulates_eval (.refl table)
      (fun _ ha => condition_gives hD (typed_of_agrees ha) hcm hcondition line) fun holds _ => ?_
    cases holds with
    | true =>
      exact (execAll_simulates hD fuel body _ (hbm body (by simp)) (hbranches body (by simp))).inFrame
    | false => exact simulates_pure (by simp)
  | .ifElse condition body (some other) line, table, hm, h => by
    obtain ⟨hcondition, hbranches⟩ := ifElse_clean h
    obtain ⟨hcm, hbm⟩ := ifElse_meets hm
    rw [(check_branch (checkStmts_extends body) (checkStmts_extends other) condition line table).2,
      exec_ifElse]
    refine simulates_eval (.refl table)
      (fun _ ha => condition_gives hD (typed_of_agrees ha) hcm hcondition line) fun holds _ => ?_
    cases holds with
    | true =>
      exact (execAll_simulates hD fuel body _ (hbm body (by simp)) (hbranches body (by simp))).inFrame
    | false =>
      exact (execAll_simulates hD fuel other _ (hbm other (by simp))
        (hbranches other (by simp))).inFrame
  | .whileLoop condition body line, table, hm, h => by
    rw [Stmt.meets, Bool.and_eq_true] at hm
    obtain ⟨hcondition, hbody⟩ := whileLoop_clean h
    have hb := execAll_simulates hD fuel body _ hm.2 hbody
    rw [Stmt.check, Report.result_bind, inCheckedFrame_result (checkStmts_extends body), Stmt.exec]
    refine simulates_inFrame fun m ha => repeatWhile_endsInside hD (fun memory ha => ?_) hb fuel m ha
    -- the condition was checked around the frame that it is evaluated in
    exact condition_gives hD (typed_of_push ha) hm.1 hcondition line
  | .forLoop iterator range body line, table, hm, h => by
    rw [Stmt.meets, Bool.and_eq_true] at hm
    obtain ⟨hheader, hbody⟩ := forLoop_clean h
    have hb := execAll_simulates hD fuel body _ hm.2 hbody
    rw [check_for (checkStmts_extends body), Stmt.exec]
    refine simulates_eval (.refl table)
      (fun memory ha => bounds_gives hD (typed_of_agrees ha) hm.1 hheader) ?_
    rintro ⟨start, stop⟩ -
    refine simulates_inFrame fun m ha => ?_
    refine repeatFor_endsInside hD hb _ start m ((Reached.refl ha).inside rfl) fun i => ?_
    exact ha.bind (hD.iterator i) iterator
  | .ret value line, table, hm, h => by
    rw [Stmt.check, Report.diagnostics_bind, List.append_eq_nil_iff] at h
    refine simulates_eval (.refl table)
      (fun _ ha => value_gives hD (typed_of_agrees ha) hm h.1) fun v hv => simulates_pure ?_
    rintro _ ⟨⟩
    exact hv
  | .jump jump line, table, hm, h => by
    intro m ha
    rw [Stmt.check] at h ⊢
    rw [Stmt.exec, Exec.jump]
    split at h
    · rename_i hl
      rw [if_pos hl, if_pos (by rw [ha.inLoop_eq]; exact hl)]
      exact ⟨.refl ha, by simp, by simp⟩
    · cases h

theorem execAll_simulates (hD : D.Sound) (fuel : Nat) : ∀ (body : List Stmt) (table : Table),
    stmtsMeet D.toCondition body table = true → (checkStmts body table).diagnostics = [] →
    D.Simulates (execAll fuel body) table (checkStmts body table).result
  | [], table, _, _ => simulates_pure (by simp)
  | s :: rest, table, hm, h => by
    rw [stmtsMeet, Bool.and_eq_true] at hm
    rw [checkStmts, Report.diagnostics_bind, List.append_eq_nil_iff] at h
    exact (exec_simulates hD fuel s table hm.1 h.1).andThen
      (execAll_simulates hD fuel rest _ hm.2 h.2) (check_extends s table)
      (checkStmts_extends rest _)

end

/-! ## Programs -/

theorem program_simulates (hD : D.Sound) (fuel : Nat) {p : Program}
    (hm : stmtsMeet D.toCondition p .fresh = true) (h : checkProgram p = []) (sink : Sink)
    (allocator : Allocator) : Ends (Exec.program fuel p ⟨.fresh, sink, allocator⟩)
      (fun outcome m => D.Reached .fresh (Checker.fresh.check p).table m.memory ∧
        ∀ v, outcome = .returned v → ∃ type, D.holds type v)
      (fun stop m => D.Reached .fresh (Checker.fresh.check p).table m.memory ∧ D.admits stop) := by
  rw [Exec.program, ends_bind]
  refine (execAll_simulates hD fuel p .fresh hm h ⟨.fresh, sink, allocator⟩ .fresh).mono
    (fun flow m hf => ?_) fun _ _ he => he
  -- Flushing the output leaves the memory as it is.
  rw [ends_bind]
  have flushed : D.Gives m.memory Eval.flush fun _ => True := Eval.givesOr_flush hD.output
  refine (Exec.ends_evalOr flushed).mono ?_ ?_
  · rintro _ m' ⟨hmem, -⟩
    refine ⟨by rw [hmem]; exact hf.reached, fun v hv => ?_⟩
    cases flow with
    | ret w => cases hv; exact hf.returned v rfl
    | _ => cases hv
  · rintro stop m' ⟨hmem, hstop⟩
    exact ⟨by rw [hmem]; exact hf.reached, hstop⟩

end

end Discipline

end MatrixScript
