import MatrixScript.Proofs.Gate

/-!
# Global names

Checking defines a name where no frame has it, and running assigns to the nearest
frame that has it. The two come to the same global names: a program that
completes has bound exactly the globals that its check found, and one that is cut
short has bound no others (`program_globalNames`).
-/

namespace MatrixScript

/-! ## Names of a single frame -/

structure GlobalsWithin (table : Table) (memory : Memory) : Prop where
  alone : memory.outer = [] ∧ table.outer = []
  names : ∀ name, memory.inner.binds name = true → table.inner.binds name = true

theorem Agrees.globalsWithin {R : ArrayType → Value → Prop} {table final : Table} {memory : Memory}
    (h : Agrees R table memory) (hstart : Scope.fresh.Extends table) (hfinal : table.Extends final) :
    GlobalsWithin final memory := by
  have hout : table.outer = [] := hstart.outer
  have hkind : table.inner.kind = .global := hstart.kind
  refine ⟨⟨h.outer_eq_nil hout, hfinal.outer.trans hout⟩, fun name hb => ?_⟩
  have howned : table.inner.binds name = true := h.head.owned (by rw [hkind]; rfl) name hb
  obtain ⟨type, htype⟩ := Option.isSome_iff_exists.mp howned
  exact Frame.binds_of_find? (hfinal.keeps name type htype)

/-- Around a single frame there is nowhere else for a value to be. -/
theorem Agrees.binds_of_table {R : ArrayType → Value → Prop} {table : Table} {memory : Memory}
    (h : Agrees R table memory) (hout : table.outer = []) {name : String}
    (hb : table.inner.binds name = true) : memory.inner.binds name = true := by
  obtain ⟨type, htype⟩ := Option.isSome_iff_exists.mp hb
  obtain ⟨value, hvalue, -⟩ := h.head.typed name type (seenIn_of_find? _ htype)
  rw [h.outer_eq_nil hout, seenIn_cons, seenIn_nil, Option.or_none] at hvalue
  exact Frame.binds_of_find? hvalue

/-! ## Runs -/

theorem Discipline.HandsOn.globalNames {D : Discipline} {final : Table} {flow : Flow} {memory : Memory}
    (h : D.HandsOn .fresh final flow memory) : GlobalsWithin final memory ∧
      (flow = .normal → ∀ name, memory.inner.binds name = final.inner.binds name) := by
  obtain ⟨table, hstart, hfinal, ha⟩ := h.reached
  have within := ha.globalsWithin hstart hfinal
  refine ⟨within, fun hflow name => Bool.eq_iff_iff.mpr ⟨within.names name, fun hb => ?_⟩⟩
  exact (h.completed hflow).binds_of_table within.alone.2 hb

/-- **Global names.** However a run of a checked program ends, one frame is open and
the check has found all its names. If the program completes, these are all the
names that the check found. -/
theorem program_globalNames (fuel : Nat) {p : Program} (h : checkProgram p = []) (sink : Sink)
    (allocator : Allocator) : Ends (Exec.program fuel p ⟨.fresh, sink, allocator⟩)
      (fun outcome m => GlobalsWithin (Checker.fresh.check p).table m.memory ∧
        (outcome = .completed → ∀ name,
          m.memory.inner.binds name = (Checker.fresh.check p).table.inner.binds name))
      (fun _ m => GlobalsWithin (Checker.fresh.check p).table m.memory) := by
  have simulated := Sense.fresh_simulates Sense.loose_sound fuel (stmtsWithin_all p) h
    ⟨.fresh, sink, allocator⟩ .fresh
  have jumps := execAll_jumpsInLoops fuel p ⟨.fresh, sink, allocator⟩
  rw [Exec.program, ends_bind]
  refine (simulated.and jumps).mono ?_ ?_
  · rintro flow m ⟨hf, hjump⟩
    obtain ⟨within, same⟩ := hf.globalNames
    -- No loop is open around a program, so a run that completes ends normally.
    have normal : flow.outcome = .completed → flow = .normal := by
      intro houtcome
      cases flow with
      | normal => rfl
      | jump j => cases hjump rfl
      | ret v => cases houtcome
    rw [ends_bind, Exec.ends_eval]
    refine (Eval.flush_keeps m).mono ?_ ?_
    · intro _ m' hmem
      refine ⟨by rw [hmem]; exact within, fun houtcome => ?_⟩
      rw [hmem]
      exact same (normal houtcome)
    · intro _ m' hmem
      rw [hmem]
      exact within
  · rintro stop m ⟨⟨⟨table, hstart, hfinal, ha⟩, -⟩, -⟩
    exact ha.globalsWithin hstart hfinal

def keptNames : Program :=
  [.assign (.name "x" 1) .set (.int 0 1) 1,
    .whileLoop (.binary .less (.name "x" 2) (.int 3 2) 2)
      [.ifElse (.binary .less (.name "x" 3) (.int 1 3) 3)
        [.assign (.name "y" 3) .set (.name "x" 3) 3] none 3,
        .assign (.name "y" 4) .set (.name "x" 4) 4,
        .forLoop "x" (.binary .range (.int 0 5) (.int 2 5) 5)
          [.assign (.name "x" 5) .add (.name "y" 5) 5] 5,
        .assign (.name "x" 6) .add (.int 1 6) 6] 2,
    .assign (.name "last" 7) .set (.name "x" 7) 7]

theorem keptNames_globalNames : checkProgram keptNames = [] ∧ ∀ sink allocator,
    Ends (Exec.program 4 keptNames ⟨.fresh, sink, allocator⟩)
      (fun outcome m => GlobalsWithin (Checker.fresh.check keptNames).table m.memory ∧
        (outcome = .completed → ∀ name,
          m.memory.inner.binds name = (Checker.fresh.check keptNames).table.inner.binds name))
      (fun _ m => GlobalsWithin (Checker.fresh.check keptNames).table m.memory) :=
  ⟨by decide, @program_globalNames 4 keptNames (by decide)⟩

end MatrixScript
