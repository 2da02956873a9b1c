import MatrixScript.Proofs.Simulation

/-!
# Moments of a run

What can be seen while statements run: the memories that they go through, at
every statement and at every turn of a loop, and the values that they print. A
checked program only shows what its types allow (`showsAll_allows`).
-/

namespace MatrixScript

/-! ## Moments -/

inductive Moment where
  | memory (memory : Memory)
  | prints (values : List Value)

mutual

/-- The arguments of all calls inside an expression that print. -/
def Expr.printed : Expr → List (List Expr)
  | .vector ⟨elements, _⟩ => allPrinted elements
  | .matrix rows _ => rowsPrinted rows
  | .call .print arguments _ => arguments :: allPrinted arguments
  | .call (.sized _) arguments _ => allPrinted arguments
  | .binary _ left right _ => left.printed ++ right.printed
  | .unary _ operand _ => operand.printed
  | _ => []

def allPrinted : List Expr → List (List Expr)
  | [] => []
  | e :: es => e.printed ++ allPrinted es

def rowsPrinted : List Row → List (List Expr)
  | [] => []
  | ⟨elements, _⟩ :: rows => allPrinted elements ++ rowsPrinted rows

end

/-- Values that an expression may print in a memory: those of the arguments of any
call inside it, even if the evaluation does not get there. -/
def Expr.Prints (e : Expr) (memory : Memory) (values : List Value) : Prop :=
  ∃ arguments ∈ e.printed, ∃ m m' : Machine, m.memory = memory ∧ evalAll arguments m = .ok values m'

def Stmt.heads : Stmt → List Expr
  | expr e _ => [e]
  | assign (.element _ indices _) _ value _ => value :: indices.elements
  | assign _ _ value _ => [value]
  | ifElse condition _ _ _ => [condition]
  | forLoop _ range _ _ => [range]
  | ret value _ => [value]
  | _ => []

def Machine.push (m : Machine) (kind : FrameKind) : Machine := { m with memory := m.memory.push kind }

def Machine.bind (m : Machine) (name : String) (value : Value) : Machine :=
  { m with memory := m.memory.bind name value }

def Flow.goesOn : Flow → Bool
  | normal => true
  | jump .next => true
  | _ => false

inductive WhileTurn (condition : Exec Bool) (body : Exec Flow) : Machine → Machine → Prop
  | here {m} : WhileTurn condition body m m
  | next {m m₁ m₂ m' flow} : condition m = .ok true m₁ → body m₁ = .ok flow m₂ →
      flow.goesOn = true → WhileTurn condition body m₂ m' → WhileTurn condition body m m'

inductive ForTurn (iterator : String) (body : Exec Flow) : Nat → Int64 → Machine → Machine → Prop
  | here {turns i m} : ForTurn iterator body (turns + 1) i m (m.bind iterator (.int i))
  | next {turns i m m₁ m' flow} : body (m.bind iterator (.int i)) = .ok flow m₁ →
      flow.goesOn = true → ForTurn iterator body turns (i + 1) m₁ m' →
      ForTurn iterator body (turns + 1) i m m'

mutual

inductive Shows (fuel : Nat) : Stmt → Machine → Moment → Prop
  | before {s m} : Shows fuel s m (.memory m.memory)
  | after {s m flow m'} : s.exec fuel m = .ok flow m' → Shows fuel s m (.memory m'.memory)
  | stopped {s m stop m'} : s.exec fuel m = .error stop m' → Shows fuel s m (.memory m'.memory)
  | head {s m e values} : e ∈ s.heads → e.Prints m.memory values → Shows fuel s m (.prints values)
  | block {body m x} : ShowsAll fuel body m x → Shows fuel (.block body) m x
  | branch {condition body otherwise line m m' x} : Exec.condition condition line m = .ok true m' →
      ShowsAll fuel body (m'.push .branch) x →
      Shows fuel (.ifElse condition body otherwise line) m x
  | otherwise {condition body other line m m' x} : Exec.condition condition line m = .ok false m' →
      ShowsAll fuel other (m'.push .branch) x →
      Shows fuel (.ifElse condition body (some other) line) m x
  | turn {condition body line m m'} :
      WhileTurn (Exec.condition condition line) (execAll fuel body) (m.push .whileLoop) m' →
      Shows fuel (.whileLoop condition body line) m (.memory m'.memory)
  | condition {condition body line m m' values} :
      WhileTurn (Exec.condition condition line) (execAll fuel body) (m.push .whileLoop) m' →
      condition.Prints m'.memory values →
      Shows fuel (.whileLoop condition body line) m (.prints values)
  | whileBody {condition body line m m₁ m₂ x} :
      WhileTurn (Exec.condition condition line) (execAll fuel body) (m.push .whileLoop) m₁ →
      Exec.condition condition line m₁ = .ok true m₂ → ShowsAll fuel body m₂ x →
      Shows fuel (.whileLoop condition body line) m x
  | forBody {iterator range body line m start stop m₁ m₂ x} :
      Exec.bounds range line m = .ok (start, stop) m₁ →
      ForTurn iterator (execAll fuel body) (stop.toInt - start.toInt).toNat start
        (m₁.push .forLoop) m₂ →
      ShowsAll fuel body m₂ x → Shows fuel (.forLoop iterator range body line) m x

inductive ShowsAll (fuel : Nat) : List Stmt → Machine → Moment → Prop
  | before {body m} : ShowsAll fuel body m (.memory m.memory)
  | head {s rest m x} : Shows fuel s m x → ShowsAll fuel (s :: rest) m x
  | tail {s rest m m' x} : s.exec fuel m = .ok .normal m' → ShowsAll fuel rest m' x →
      ShowsAll fuel (s :: rest) m x

end

/-! ## Typed expressions print nothing -/

section
variable {table : Table}

mutual

theorem printed_of_hasType {e : Expr} {type : ArrayType} (h : HasType table e type) :
    e.printed = [] := by
  match h with
  | .int => rfl
  | .real => rfl
  | .str => rfl
  | .name _ => rfl
  | .emptyVector => rfl
  | .vector hts => exact allPrinted_of_haveTypes hts
  | .matrix hrows => exact rowsPrinted_of_haveRows hrows
  | .sized _ => rfl
  | .element _ hts => exact allPrinted_of_haveTypes hts
  | .binary hl hr _ => rw [Expr.printed, printed_of_hasType hl, printed_of_hasType hr, List.append_nil]
  | .negate ho => rw [Expr.printed]; exact printed_of_hasType ho
  | .transpose ho => rw [Expr.printed]; exact printed_of_hasType ho

theorem allPrinted_of_haveTypes {es : List Expr} {types : List ArrayType}
    (h : HaveTypes table es types) : allPrinted es = [] := by
  match h with
  | .nil => rfl
  | .cons he hes =>
    rw [allPrinted, printed_of_hasType he, allPrinted_of_haveTypes hes, List.append_nil]

theorem rowsPrinted_of_haveRows {base : BaseType} {width : Nat} {rows : List Row}
    (h : HaveRows table base width rows) : rowsPrinted rows = [] := by
  match h with
  | .nil => rfl
  | .cons hts hrows =>
    rw [rowsPrinted, allPrinted_of_haveTypes hts, rowsPrinted_of_haveRows hrows, List.append_nil]

end

theorem printed_of_mem {e : Expr} : ∀ {es : List Expr}, e ∈ es → allPrinted es = [] → e.printed = []
  | first :: es, hm, h => by
    rw [allPrinted, List.append_eq_nil_iff] at h
    rcases List.mem_cons.mp hm with rfl | hm
    · exact h.1
    · exact printed_of_mem hm h.2

theorem printed_of_checkValue (hs : table.Shaped) {e : Expr}
    (h : (e.checkValue table).diagnostics = []) : e.printed = [] := by
  obtain ⟨type, -, ht⟩ := checkValue_clean hs h
  exact printed_of_hasType ht

theorem printed_of_checkHeader (hs : table.Shaped) {header : Expr} {line : Nat}
    (h : (checkHeader table header line).diagnostics = []) : header.printed = [] := by
  unfold checkHeader at h
  split at h
  · rw [Report.diagnostics_bind, List.append_eq_nil_iff] at h
    rw [Expr.printed, printed_of_hasType (checkBound_clean hs h.1).2,
      printed_of_hasType (checkBound_clean hs h.2).2, List.append_nil]
  · rw [Report.diagnostics_bind, List.append_eq_nil_iff] at h
    cases h.2

/-- Only a call on its own prints, and its arguments have types. -/
theorem heads_printed (hs : table.Shaped) {s : Stmt} (h : (s.check table).diagnostics = [])
    {e : Expr} (he : e ∈ s.heads) : e.printed = [] ∨
      ∃ arguments callLine line types, s = .expr (.call .print arguments callLine) line ∧
        e = .call .print arguments callLine ∧ HaveTypes table arguments types := by
  cases s with
  | expr e' line =>
    rw [Stmt.heads, List.mem_singleton] at he
    subst he
    rw [Stmt.check, Report.diagnostics_bind, List.append_eq_nil_iff] at h
    rcases (check_rules hs e).clean h.1 with ⟨type, ht⟩ | ⟨arguments, l, types, rfl, ht⟩
    · exact .inl (printed_of_hasType ht)
    · exact .inr ⟨arguments, l, line, types, rfl, rfl, ht⟩
  | assign target op value line =>
    rw [Stmt.check, checkAssignment, Report.diagnostics_bind, List.append_eq_nil_iff] at h
    have hv := printed_of_checkValue hs h.1
    cases target with
    | element array indices l =>
      have h := h.2
      rw [Report.diagnostics_bind, List.append_eq_nil_iff] at h
      obtain ⟨types, -, ht⟩ := (checkAll_rules hs indices.elements).clean h.1
      rcases List.mem_cons.mp he with rfl | he
      · exact .inl hv
      · exact .inl (printed_of_mem he (allPrinted_of_haveTypes ht))
    | name spelling l => cases List.mem_singleton.mp he; exact .inl hv
    | invalid e' => cases List.mem_singleton.mp he; exact .inl hv
  | ifElse condition body otherwise line =>
    cases List.mem_singleton.mp he
    unfold Stmt.check at h
    rw [Report.diagnostics_bind, List.append_eq_nil_iff] at h
    exact .inl (printed_of_checkValue hs h.1)
  | forLoop iterator range body line =>
    cases List.mem_singleton.mp he
    rw [Stmt.check, Report.diagnostics_bind, List.append_eq_nil_iff] at h
    exact .inl (printed_of_checkHeader hs h.1)
  | ret value line =>
    cases List.mem_singleton.mp he
    rw [Stmt.check, Report.diagnostics_bind, List.append_eq_nil_iff] at h
    exact .inl (printed_of_checkValue hs h.1)
  | block body => cases he
  | whileLoop condition body line => cases he
  | jump jump line => cases he

end

/-! ## Allowed moments -/

namespace Sense

def Allows (S : Sense) : Moment → Prop
  | .memory memory => ∀ f ∈ memory.frames, ∀ name value, f.find? name = some value →
      ∃ type, S.holds type value
  | .prints values => ∀ value ∈ values, ∃ type, S.holds type value

section
variable {S : Sense} {table after : Table}

theorem allows_memory {memory : Memory} (h : Agrees S.holds table memory) :
    S.Allows (.memory memory) := by
  intro f hf name value hv
  exact FramesAgree.stored h (List.mem_reverse.mp hf) hv

theorem Reached.allows {before : Table} {memory : Memory} (h : S.Reached before after memory) :
    S.Allows (.memory memory) := by
  obtain ⟨table, _, _, ha⟩ := h
  exact allows_memory ha

theorem Simulates.of_ok {c : Exec Flow} (h : S.Simulates c table after) {m m' : Machine}
    {flow : Flow} (ha : Agrees S.holds table m.memory) (hr : c m = .ok flow m') :
    S.HandsOn table after flow m'.memory := by
  have := h m ha
  rw [hr] at this
  exact this

theorem Simulates.of_error {c : Exec Flow} (h : S.Simulates c table after) {m m' : Machine}
    {stop : Stop} (ha : Agrees S.holds table m.memory) (hr : c m = .error stop m') :
    S.Reached table after m'.memory := by
  have := h m ha
  rw [hr] at this
  exact this.1

theorem not_prints {e : Expr} (h : e.printed = []) {memory : Memory} {values : List Value} :
    ¬ e.Prints memory values := by
  rintro ⟨arguments, hm, -⟩
  rw [h] at hm
  cases hm

theorem allows_head (hS : S.Sound) {s : Stmt} (hw : s.within S.toFragment = true)
    (hc : (s.check table).diagnostics = []) {memory : Memory} (ha : Agrees S.holds table memory)
    {e : Expr} (he : e ∈ s.heads) {values : List Value} (hp : e.Prints memory values) :
    S.Allows (.prints values) := by
  rcases heads_printed ha.sense.shaped hc he with h | ⟨arguments, callLine, line, types, rfl, rfl, ht⟩
  · exact absurd hp (not_prints h)
  · obtain ⟨arguments', hm, m, m', hmem, hv⟩ := hp
    rw [Expr.printed, allPrinted_of_haveTypes ht, List.mem_singleton] at hm
    subst hm
    rw [Stmt.within, Expr.within, Bool.and_eq_true] at hw
    have hall := (evalAll_holds hS ha.sense ht hw.2).1 m hmem
    rw [hv] at hall
    intro value hmem
    obtain ⟨i, hi, rfl⟩ := List.mem_iff_getElem.mp hmem
    have hall : List.Forall₂ S.holds types values := hall.2
    have hi' : i < types.length := by rw [hall.length_eq]; exact hi
    exact ⟨types[i], by simpa using hall.get hi' hi⟩

/-! ## Turns of a loop -/

theorem memory_of_eval {α : Type} {x : Eval α} (hx : x.KeepsMemory) {a : α} {m m' : Machine}
    (h : Exec.eval x m = .ok a m') : m'.memory = m.memory := by
  have kept : Ends (Exec.eval x m) (fun _ m' => m'.memory = m.memory)
      fun _ m' => m'.memory = m.memory := (Exec.ends_eval x m).mpr (hx m)
  rw [h] at kept
  exact kept

theorem memory_of_condition {e : Expr} {line : Nat} {holds : Bool} {m m' : Machine}
    (h : Exec.condition e line m = .ok holds m') : m'.memory = m.memory :=
  memory_of_eval (Eval.keepsMemory_stepwise.condition trivial fun _ _ => trivial) h

theorem memory_of_bounds {e : Expr} {line : Nat} {range : Int64 × Int64} {m m' : Machine}
    (h : Exec.bounds e line m = .ok range m') : m'.memory = m.memory :=
  memory_of_eval (Eval.keepsMemory_stepwise.bounds trivial fun _ _ => trivial) h

theorem whileTurn_agrees {condition : Expr} {line : Nat} {body : Exec Flow}
    (hb : S.Simulates body table after) (hl : table.inner.kind.isLoop = true) {m m' : Machine}
    (h : WhileTurn (Exec.condition condition line) body m m') (ha : Agrees S.holds table m.memory) :
    Agrees S.holds table m'.memory := by
  induction h with
  | here => exact ha
  | next hc hr _ _ ih =>
    have ha₁ := (memory_of_condition hc).symm ▸ ha
    exact ih ((hb.of_ok ha₁ hr).reached.restart hl)

theorem forTurn_agrees (hS : S.Sound) {iterator : String} {body : Exec Flow}
    (hb : S.Simulates body (iteratorTable table iterator) after) {turns : Nat} {i : Int64}
    {m m' : Machine} (h : ForTurn iterator body turns i m m')
    (ha : ∀ i, Agrees S.holds (iteratorTable table iterator) (m.memory.bind iterator (.int i))) :
    Agrees S.holds (iteratorTable table iterator) m'.memory := by
  induction h with
  | here => exact ha _
  | next hr _ _ ih =>
    refine ih fun i => ?_
    have ha₁ := (hb.of_ok (ha _) hr).reached.restart rfl
    rw [← bind_iterator]
    exact ha₁.bind ⟨scalar_shape _, hS.scalar rfl⟩ iterator

/-! ## Statements -/

theorem turn_agrees (hS : S.Sound) {fuel : Nat} {condition : Expr} {body : List Stmt} {line : Nat}
    {m m' : Machine} (hw : (Stmt.whileLoop condition body line).within S.toFragment = true)
    (hc : ((Stmt.whileLoop condition body line).check table).diagnostics = [])
    (ha : Agrees S.holds table m.memory)
    (h : WhileTurn (Exec.condition condition line) (execAll fuel body) (m.push .whileLoop) m') :
    Agrees S.holds (table.push .whileLoop) m'.memory := by
  rw [Stmt.within, Bool.and_eq_true] at hw
  have hb := execAll_simulates hS fuel body _ hw.2 (whileLoop_clean hc).2
  exact whileTurn_agrees hb rfl h (ha.push .whileLoop)

mutual

theorem shows_allows (hS : S.Sound) {fuel : Nat} {s : Stmt} {table : Table} {m : Machine}
    {x : Moment} (h : Shows fuel s m x) (hw : s.within S.toFragment = true)
    (hc : (s.check table).diagnostics = []) (ha : Agrees S.holds table m.memory) : S.Allows x := by
  match h with
  | .before => exact allows_memory ha
  | .after hr => exact Reached.allows ((exec_simulates hS fuel s table hw hc).of_ok ha hr).reached
  | .stopped hr => exact ((exec_simulates hS fuel s table hw hc).of_error ha hr).allows
  | .head he hp => exact allows_head hS hw hc ha he hp
  | .block hbody => exact showsAll_allows hS hbody hw hc ha
  | .branch hr hbody =>
    have ha' := (memory_of_condition hr).symm ▸ ha
    exact showsAll_allows hS hbody ((ifElse_within hw).2 _ (by simp)) ((ifElse_clean hc).2 _ (by simp))
      (ha'.push .branch)
  | .otherwise hr hbody =>
    have ha' := (memory_of_condition hr).symm ▸ ha
    exact showsAll_allows hS hbody ((ifElse_within hw).2 _ (by simp)) ((ifElse_clean hc).2 _ (by simp))
      (ha'.push .branch)
  | .turn ht => exact allows_memory (turn_agrees hS hw hc ha ht)
  | .condition ht hp =>
    exact absurd hp (not_prints (printed_of_checkValue ha.sense.shaped (whileLoop_clean hc).1))
  | .whileBody ht hr hbody =>
    have ha' := (memory_of_condition hr).symm ▸ turn_agrees hS hw hc ha ht
    rw [Stmt.within, Bool.and_eq_true] at hw
    exact showsAll_allows hS hbody hw.2 (whileLoop_clean hc).2 ha'
  | .forBody hr ht hbody =>
    rw [Stmt.within, Bool.and_eq_true] at hw
    have hb := execAll_simulates hS fuel _ _ hw.2 (forLoop_clean hc).2
    have ha' := (memory_of_bounds hr).symm ▸ ha
    have hturn := forTurn_agrees hS hb ht fun i =>
      (ha'.push .forLoop).bind ⟨scalar_shape _, hS.scalar rfl⟩ _
    exact showsAll_allows hS hbody hw.2 (forLoop_clean hc).2 hturn

theorem showsAll_allows (hS : S.Sound) {fuel : Nat} {body : List Stmt} {table : Table}
    {m : Machine} {x : Moment} (h : ShowsAll fuel body m x)
    (hw : stmtsWithin S.toFragment body = true) (hc : (checkStmts body table).diagnostics = [])
    (ha : Agrees S.holds table m.memory) : S.Allows x := by
  match h with
  | .before => exact allows_memory ha
  | .head hs =>
    rw [stmtsWithin, Bool.and_eq_true] at hw
    rw [checkStmts, Report.diagnostics_bind, List.append_eq_nil_iff] at hc
    exact shows_allows hS hs hw.1 hc.1 ha
  | .tail hr hrest =>
    rw [stmtsWithin, Bool.and_eq_true] at hw
    rw [checkStmts, Report.diagnostics_bind, List.append_eq_nil_iff] at hc
    have hf := (exec_simulates hS fuel _ table hw.1 hc.1).of_ok ha hr
    exact showsAll_allows hS hrest hw.2 hc.2 (hf.completed rfl)

end

end

end Sense

end MatrixScript
