import MatrixScript.Proofs.Discipline

/-!
# Running checked statements

Every sound sense is a sound discipline, for the statements that keep to its
fragment: values are built from what their types allow, and no run stops for a
reason that checking rules out (`Sense.exec_simulates`).
-/

namespace MatrixScript

/-! ## Fragments of the statements -/

def Target.within (F : Fragment) : Target → Bool
  | element _ indices _ => allWithin F indices.elements
  | _ => true

mutual

def Stmt.within (F : Fragment) : Stmt → Bool
  | .block body => stmtsWithin F body
  | .expr e _ => e.within F
  | .assign target op value _ => target.within F && op.binary?.all F.ops && value.within F
  | .ifElse condition body none _ => condition.within F && stmtsWithin F body
  | .ifElse condition body (some other) _ =>
    condition.within F && stmtsWithin F body && stmtsWithin F other
  | .whileLoop condition body _ => condition.within F && stmtsWithin F body
  | .forLoop _ range body _ => range.within F && stmtsWithin F body
  | .ret value _ => value.within F
  | .jump _ _ => true

def stmtsWithin (F : Fragment) : List Stmt → Bool
  | [] => true
  | s :: rest => s.within F && stmtsWithin F rest

end

/-! ## Expressions of statements -/

section
variable {S : Sense} {table : Table} {memory : Memory}

theorem Sense.Typed.shaped (h : S.Typed table memory) : table.Shaped := by
  intro name type hn
  obtain ⟨_, _, hv⟩ := h name type hn
  exact hv.1

theorem Agrees.sense (h : Agrees S.holds table memory) : S.Typed table memory :=
  fun _ _ hn => h.typed hn

theorem value_holds (hS : S.Sound) (hm : S.Typed table memory) {e : Expr} {type : ArrayType}
    (h : HasType table e type) (hw : e.within S.toFragment = true) :
    e.value.Gives memory (S.holds type) :=
  (Sense.eval_holds hS hm h hw).need e.line

theorem print_gives (hS : S.Sound) (hm : S.Typed table memory) {arguments : List Expr}
    {types : List ArrayType} (h : HaveTypes table arguments types)
    (hw : allWithin S.toFragment arguments = true) (line : Nat) :
    (Expr.call .print arguments line).eval.Gives memory (· = none) := by
  rw [Expr.eval]
  refine (Sense.evalAll_holds hS hm h hw).1.bind fun vs _ => ?_
  exact (Eval.givesOr_writeAll (fun _ => rfl) _).bind fun _ _ => Eval.gives_pure rfl

theorem eval_gives (hS : S.Sound) (hm : S.Typed table memory) {e : Expr}
    (hw : e.within S.toFragment = true) (h : (e.check table).diagnostics = []) :
    e.eval.Gives memory fun _ => True := by
  rcases (check_rules hm.shaped e).clean h with ⟨type, ht⟩ | ⟨arguments, line, types, rfl, ht⟩
  · exact (Sense.eval_holds hS hm ht hw).imp fun _ _ => trivial
  · rw [Expr.within, Bool.and_eq_true] at hw
    exact (print_gives hS hm ht hw.2 line).imp fun _ _ => trivial

theorem store_element (hS : S.Sound) (ha : Agrees S.holds table memory) {array : String}
    {op : AssignOp} (hop : op.binary?.all S.ops = true) {type : ArrayType}
    (hn : table.lookup? array = some type) {indices : List Expr} {indicesLine : Nat}
    {types : List ArrayType} (ht : HaveTypes table indices types)
    (hw : allWithin S.toFragment indices = true) {new : Value}
    (hv : S.holds (.scalar type.base) new) (line targetLine : Nat) :
    ((Target.element array ⟨indices, indicesLine⟩ targetLine).store op new line).StoresOr
      (fun f => f.ruledOut = false) memory (Agrees S.holds table) := by
  rw [Target.store_element]
  refine ((Sense.evalAll_holds hS ha.sense ht hw).2 line).storing fun positions _ => ?_
  refine (ha.sense.lookup hn line).storing fun current hc => ?_
  have updated : Computes (current.update positions (op.combine · new)) (S.builds type.base) :=
    Value.updateFrom_computes (fun v hb => hS.combine_builds hop hb hv.2) hc.2
  refine (Eval.gives_atLine updated line).storing fun stored hs => ?_
  exact Eval.storesOr_replace (ha.replace hn ⟨hc.1, hs⟩)

end

/-! ## Disciplines -/

def Stop.ruledOut : Stop → Bool
  | fault f => f.ruledOut
  | outOfFuel => false

namespace Sense

def discipline (S : Sense) : Discipline where
  expr := fun _ e => e.within S.toFragment
  place := fun _ op target => target.within S.toFragment && op.binary?.all S.ops
  holds := S.holds
  admits := fun stop => stop.ruledOut = false

section
variable {S : Sense} {table : Table}

theorem Sound.discipline (hS : S.Sound) : S.discipline.Sound where
  shaped := fun h => h.1
  iterator := fun _ => ⟨scalar_shape _, hS.scalar rfl⟩
  outOfFuel := rfl
  output := fun _ => rfl
  expected := fun _ cause hc => by
    simp only [List.mem_cons, List.not_mem_nil, or_false] at hc
    rcases hc with rfl | rfl <;> rfl
  bounds := fun h => by
    have hw := (within_binary S.toFragment (by simp) _ _ _).symm.trans h
    rw [Bool.and_eq_true, Bool.and_eq_true] at hw
    exact ⟨hw.1.2, hw.2⟩
  eval := fun hm he h => eval_gives hS hm he h
  value := fun {table memory e type} hm he hr => by
    have hm : S.Typed table memory := hm
    obtain ⟨type', hr', ht⟩ := checkValue_clean hm.shaped (by rw [hr])
    rw [hr] at hr'
    cases hr'
    exact value_holds hS hm ht he
  combine := fun {table op name nameLine type v w} hp _ hv hw _ => by
    have hp : (true && op.binary?.all S.ops) = true := hp
    exact (hS.combine_builds hp hv.2 hw.2).imp fun _ hc => ⟨hv.1, hc⟩
  element := fun {table memory op array indices indicesLine targetLine type types new}
      hp ha hn ht hv line => by
    have hp := Bool.and_eq_true_iff.mp hp
    exact store_element hS ha hp.2 hn ht hp.1 hv line targetLine

theorem ifElse_within {F : Fragment} {condition : Expr} {body : List Stmt}
    {otherwise : Option (List Stmt)} {line : Nat}
    (h : (Stmt.ifElse condition body otherwise line).within F = true) :
    condition.within F = true ∧ ∀ branch ∈ body :: otherwise.toList, stmtsWithin F branch = true := by
  cases otherwise with
  | none =>
    rw [Stmt.within, Bool.and_eq_true] at h
    exact ⟨h.1, fun branch hm => by cases List.mem_singleton.mp hm; exact h.2⟩
  | some other =>
    rw [Stmt.within, Bool.and_eq_true, Bool.and_eq_true] at h
    refine ⟨h.1.1, fun branch hm => ?_⟩
    rcases List.mem_cons.mp hm with rfl | hm
    · exact h.1.2
    · cases List.mem_singleton.mp hm; exact h.2

mutual

theorem within_meets : ∀ (s : Stmt) (table : Table), s.within S.toFragment = true →
    s.meets S.discipline.toCondition table = true
  | .block body, table, h => stmtsWithin_meet body table h
  | .expr e _, _, h => h
  | .assign target op value _, _, h => by
    rw [Stmt.within, Bool.and_eq_true] at h
    rw [Stmt.meets, Bool.and_eq_true]
    exact ⟨h.2, h.1⟩
  | .ifElse condition body none _, table, h => by
    rw [Stmt.within, Bool.and_eq_true] at h
    rw [Stmt.meets, Bool.and_eq_true]
    exact ⟨h.1, stmtsWithin_meet body _ h.2⟩
  | .ifElse condition body (some other) _, table, h => by
    rw [Stmt.within, Bool.and_eq_true, Bool.and_eq_true] at h
    rw [Stmt.meets, Bool.and_eq_true, Bool.and_eq_true]
    exact ⟨⟨h.1.1, stmtsWithin_meet body _ h.1.2⟩, stmtsWithin_meet other _ h.2⟩
  | .whileLoop condition body _, table, h => by
    rw [Stmt.within, Bool.and_eq_true] at h
    rw [Stmt.meets, Bool.and_eq_true]
    exact ⟨h.1, stmtsWithin_meet body _ h.2⟩
  | .forLoop iterator range body _, table, h => by
    rw [Stmt.within, Bool.and_eq_true] at h
    rw [Stmt.meets, Bool.and_eq_true]
    exact ⟨h.1, stmtsWithin_meet body _ h.2⟩
  | .ret value _, _, h => h
  | .jump _ _, _, _ => rfl

theorem stmtsWithin_meet : ∀ (body : List Stmt) (table : Table),
    stmtsWithin S.toFragment body = true → stmtsMeet S.discipline.toCondition body table = true
  | [], _, _ => rfl
  | s :: rest, table, h => by
    rw [stmtsWithin, Bool.and_eq_true] at h
    rw [stmtsMeet, Bool.and_eq_true]
    exact ⟨within_meets s table h.1, stmtsWithin_meet rest _ h.2⟩

end

end

/-! ## Runs -/

abbrev Reached (S : Sense) : Table → Table → Memory → Prop := S.discipline.Reached

abbrev HandsOn (S : Sense) : Table → Table → Flow → Memory → Prop := S.discipline.HandsOn

abbrev Simulates (S : Sense) : Exec Flow → Table → Table → Prop := S.discipline.Simulates

section
variable {S : Sense}

theorem exec_simulates (hS : S.Sound) (fuel : Nat) (s : Stmt) (table : Table)
    (hw : s.within S.toFragment = true) (h : (s.check table).diagnostics = []) :
    S.Simulates (s.exec fuel) table (s.check table).result :=
  Discipline.exec_simulates hS.discipline fuel s table (within_meets s table hw) h

theorem execAll_simulates (hS : S.Sound) (fuel : Nat) (body : List Stmt) (table : Table)
    (hw : stmtsWithin S.toFragment body = true) (h : (checkStmts body table).diagnostics = []) :
    S.Simulates (execAll fuel body) table (checkStmts body table).result :=
  Discipline.execAll_simulates hS.discipline fuel body table (stmtsWithin_meet body table hw) h

theorem fresh_simulates (hS : S.Sound) (fuel : Nat) {p : Program}
    (hw : stmtsWithin S.toFragment p = true) (h : checkProgram p = []) :
    S.Simulates (execAll fuel p) .fresh (Checker.fresh.check p).table :=
  execAll_simulates hS fuel p .fresh hw h

theorem program_simulates (hS : S.Sound) (fuel : Nat) {p : Program}
    (hw : stmtsWithin S.toFragment p = true) (h : checkProgram p = []) (sink : Sink)
    (allocator : Allocator) : Ends (Exec.program fuel p ⟨.fresh, sink, allocator⟩)
      (fun outcome m => S.Reached .fresh (Checker.fresh.check p).table m.memory ∧
        ∀ v, outcome = .returned v → ∃ type, S.holds type v)
      (fun stop m => S.Reached .fresh (Checker.fresh.check p).table m.memory ∧
        stop.ruledOut = false) :=
  Discipline.program_simulates hS.discipline fuel (stmtsWithin_meet p .fresh hw) h sink
    allocator

end

end Sense

end MatrixScript
