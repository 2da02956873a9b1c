import MatrixScript.Proofs.Steps

/-!
# Termination

A program comes to an end step by step exactly where some fuel is enough (`reaches_iff`). A loop
over a range takes no fuel, whatever its body assigns. So a program without loops on conditions
always comes to an end (`program_terminates`).
-/

namespace MatrixScript

namespace Exec

/-! ## Computations that need no fuel -/

section
variable {α β : Type}

def Halts (c : Exec α) : Prop := ∀ m : Machine, Finished (c m)

theorem halts_pure (a : α) : Halts (pure a) := fun _ => trivial

theorem Finished.bind {c : Exec α} {next : α → Exec β} {m : Machine} (hc : Finished (c m))
    (hnext : ∀ a, Halts (next a)) : Finished ((c >>= next) m) := by
  unfold Finished
  rw [ends_bind]
  exact Ends.mono hc (fun a m' _ => hnext a m') fun _ _ h => h

theorem Halts.bind {c : Exec α} {next : α → Exec β} (hc : Halts c) (hnext : ∀ a, Halts (next a)) :
    Halts (c >>= next) :=
  fun m => (hc m).bind hnext

theorem halts_eval (x : Eval α) : Halts (eval x) := by
  refine fun m => (ends_eval x m).mpr ?_
  cases x m with
  | ok a m' => trivial
  | error f m' => exact Stop.noConfusion

theorem Halts.inFrame {c : Exec α} (hc : Halts c) (kind : FrameKind) : Halts (inFrame kind c) :=
  fun m => (ends_inFrame kind c m).mpr (hc _)

theorem halts_jump (j : Jump) (line : Nat) : Halts (jump j line) := by
  intro m
  unfold jump
  by_cases h : m.memory.inLoop = true
  · rw [if_pos h]; trivial
  · rw [if_neg h]; exact Stop.noConfusion

theorem halts_sequential : Sequential @Halts := ⟨halts_pure, Halts.bind⟩

theorem halts_repeatFor (iterator : String) {run : Exec Flow} (hrun : Halts run) :
    ∀ (turns : Nat) (i : Int64), Halts (repeatFor iterator run turns i) :=
  halts_sequential.repeatFor (fun _ _ => trivial) hrun

end

end Exec

/-! ## Statements without loops on conditions -/

mutual

def Stmt.whileFree : Stmt → Bool
  | .block body => allWhileFree body
  | .ifElse _ body none _ => allWhileFree body
  | .ifElse _ body (some other) _ => allWhileFree body && allWhileFree other
  | .whileLoop _ _ _ => false
  | .forLoop _ _ body _ => allWhileFree body
  | _ => true

def allWhileFree : List Stmt → Bool
  | [] => true
  | s :: rest => s.whileFree && allWhileFree rest

end

section
variable (fuel : Nat)

mutual

theorem exec_halts : ∀ {s : Stmt}, s.whileFree = true → Exec.Halts (s.exec fuel)
  | .block body, hs => execAll_halts hs
  | .expr _ _, _ => (Exec.halts_eval _).bind fun _ => Exec.halts_pure _
  | .assign _ _ _ _, _ => (Exec.halts_eval _).bind fun _ => Exec.halts_pure _
  | .ifElse condition body none line, hs => by
    refine (Exec.halts_eval _).bind fun holds => ?_
    cases holds with
    | true => exact (execAll_halts hs).inFrame .branch
    | false => exact Exec.halts_pure _
  | .ifElse condition body (some other) line, hs => by
    rw [Stmt.whileFree, Bool.and_eq_true] at hs
    refine (Exec.halts_eval _).bind fun holds => ?_
    cases holds with
    | true => exact (execAll_halts hs.1).inFrame .branch
    | false => exact (execAll_halts hs.2).inFrame .branch
  | .forLoop iterator _ body _, hs =>
    (Exec.halts_eval _).bind fun _ => (Exec.halts_repeatFor iterator (execAll_halts hs) _ _).inFrame _
  | .ret _ _, _ => (Exec.halts_eval _).bind fun _ => Exec.halts_pure _
  | .jump j line, _ => Exec.halts_jump j line

theorem execAll_halts : ∀ {body : List Stmt}, allWhileFree body = true → Exec.Halts (execAll fuel body)
  | [], _ => Exec.halts_pure _
  | s :: rest, hs => by
    rw [allWhileFree, Bool.and_eq_true] at hs
    refine (exec_halts hs.1).bind fun flow => ?_
    cases flow with
    | normal => exact execAll_halts hs.2
    | jump j => exact Exec.halts_pure _
    | ret value => exact Exec.halts_pure _

end

end

theorem Exec.program_finished {fuel : Nat} {p : Program} {m : Machine}
    (h : Finished (execAll fuel p m)) : Finished (program fuel p m) :=
  h.bind fun _ => (halts_eval _).bind fun _ => halts_pure _

namespace Config

/-! ## Fuel enough for a number of steps -/

def HaltsIn : Nat → Config → Prop
  | 0, c => c.step = none
  | n + 1, c => ∀ c', c.step = some c' → HaltsIn n c'

section
variable {n n' : Nat} {c c' : Config}

theorem HaltsIn.mono (h : HaltsIn n c) (hle : n ≤ n') : HaltsIn n' c := by
  induction n' generalizing n c with
  | zero => rwa [Nat.le_zero.mp hle] at h
  | succ n' ih =>
    intro c' hstep
    cases n with
    | zero =>
      have hnone : c.step = none := h
      rw [hnone] at hstep
      cases hstep
    | succ n => exact ih (h c' hstep) (Nat.le_of_succ_le_succ hle)

theorem HaltsIn.next (h : HaltsIn n c) (hstep : c.step = some c') : HaltsIn n c' :=
  h.mono (Nat.le_succ n) c' hstep

theorem HaltsIn.leads (h : HaltsIn n c) (hleads : Leads c c') : HaltsIn n c' := by
  induction hleads with
  | refl => exact h
  | tail _ hstep ih => exact ih.next hstep

theorem haltsIn_of_mem_eval (h : c' ∈ StateTransition.eval step c) : ∃ n, HaltsIn n c := by
  refine StateTransition.evalInduction h fun c _ ih => ?_
  cases hstep : c.step with
  | none => exact ⟨0, hstep⟩
  | some next =>
    obtain ⟨n, hn⟩ := ih next hstep
    refine ⟨n + 1, fun c' hc' => ?_⟩
    rw [hstep] at hc'
    cases hc'
    exact hn

end

def Suffices (n : Nat) (c : Exec Flow) (tasks : List Pending) : Prop :=
  ∀ (k : List Pending) (m : Machine), HaltsIn n ⟨.ok .normal, tasks ++ k, m⟩ → Exec.Finished (c m)

section
variable {n : Nat}

theorem suffices_of_halts {c : Exec Flow} (h : Exec.Halts c) (tasks : List Pending) :
    Suffices n c tasks :=
  fun _ m _ => h m

theorem Suffices.inFrame {c : Exec Flow} {tasks : List Pending} (h : Suffices n c tasks)
    {kind : FrameKind} {k : List Pending} {m : Machine} (hsteps : HaltsIn n (inFrame kind tasks k m)) :
    Exec.Finished (Exec.inFrame kind c m) :=
  (Exec.ends_inFrame kind c m).mpr (h _ _ hsteps)

theorem HaltsIn.attempt {α : Type} {c : Exec α} {f : α → Exec Flow} {next : α → Machine → Config}
    {k : List Pending} {m : Machine} (hsteps : HaltsIn n (attempt k (c m) next)) (hc : Exec.Halts c)
    (h : ∀ a m', HaltsIn n (next a m') → Exec.Finished (f a m')) : Exec.Finished ((c >>= f) m) := by
  have hfirst := hc m
  unfold Exec.Finished at hfirst ⊢
  rw [ends_bind]
  cases hr : c m with
  | ok a m' =>
    rw [hr] at hsteps
    exact h a m' hsteps
  | error stop m' => rwa [hr] at hfirst

/-- After a computation that the tasks follow, the steps that are left are those of the rest. -/
theorem Suffices.bind {c : Exec Flow} {f : Flow → Exec Flow} {tasks k : List Pending} {m : Machine}
    {left : Nat} (h : Suffices n c tasks) (hfollows : Follows c tasks) (hle : left ≤ n)
    (hsteps : HaltsIn left ⟨.ok .normal, tasks ++ k, m⟩)
    (hnext : ∀ flow m', HaltsIn left ⟨.ok flow, k, m'⟩ → Exec.Finished (f flow m')) :
    Exec.Finished ((c >>= f) m) := by
  have hfirst := h k m (hsteps.mono hle)
  have hrest := hsteps.leads (hfollows k m hfirst)
  unfold Exec.Finished at hfirst ⊢
  rw [ends_bind]
  cases hr : c m with
  | ok flow m' =>
    rw [hr] at hrest
    exact hnext flow m' hrest
  | error stop m' => rwa [hr] at hfirst

theorem Suffices.turn {run again : Exec Flow} {tasks k : List Pending} {task : Pending}
    {m : Machine} {left : Nat} (h : Suffices n run tasks) (hfollows : Follows run tasks)
    (htask : task.isTurn = true) (hle : left ≤ n)
    (hsteps : HaltsIn left ⟨.ok .normal, tasks ++ task :: k, m⟩)
    (hagain : ∀ m, HaltsIn left ⟨.ok .normal, task :: k, m⟩ → Exec.Finished (again m)) :
    Exec.Finished ((run >>= goOn again) m) := by
  refine h.bind hfollows hle hsteps fun flow m' hrest => ?_
  match flow with
  | .normal => exact hagain m' hrest
  | .jump .next =>
    have hleave : step ⟨.ok (.jump .next), task :: k, m'⟩ = some ⟨.ok .normal, task :: k, m'⟩ := by
      rw [step_leave (by simp), leave_turn htask]
    exact hagain m' (hrest.next hleave)
  | .jump .exit => trivial
  | .ret _ => trivial

theorem repeatWhile_suffices {condition : Expr} {line : Nat} {body : List Stmt} {run : Exec Flow}
    (hrun : Suffices n run (body.map .stmt)) (hfollows : Follows run (body.map .stmt)) :
    ∀ fuel ≤ n, Suffices fuel (Exec.repeatWhile (Exec.condition condition line) run fuel)
      [.whileTurn condition body line] := by
  intro fuel
  induction fuel with
  | zero =>
    intro _ k m hsteps
    cases hsteps
  | succ fuel ih =>
    intro hle k m hsteps
    rw [repeatWhile_succ]
    -- Looking at the condition is a step, so that there are no more turns than steps.
    have hsteps : HaltsIn fuel _ := hsteps _ rfl
    refine hsteps.attempt (Exec.halts_eval _) fun holds m' hturn => ?_
    cases holds with
    | false => trivial
    | true =>
      exact hrun.turn hfollows rfl (Nat.le_of_succ_le hle) hturn
        (ih (Nat.le_of_succ_le hle) k)

theorem repeatFor_suffices {iterator : String} {body : List Stmt} {run : Exec Flow}
    (hrun : Suffices n run (body.map .stmt)) (hfollows : Follows run (body.map .stmt)) :
    ∀ (turns : Nat) (i stop : Int64), (stop.toInt - i.toInt).toNat = turns →
      Suffices n (Exec.repeatFor iterator run turns i) [.forTurn iterator body i stop] := by
  intro turns
  induction turns with
  | zero => exact fun i stop _ k m _ => trivial
  | succ turns ih =>
    intro i stop hturns k m hsteps
    obtain ⟨hmore, hrest⟩ := next_turn hturns
    rw [repeatFor_succ]
    exact hrun.turn hfollows rfl (Nat.le_refl n) (hsteps.next (congrArg some (if_pos hmore)))
      (ih (i + 1) stop hrest k)

variable (n)

mutual

theorem exec_suffices : ∀ s : Stmt, Suffices n (s.exec n) [.stmt s]
  | .block body => fun k m hsteps => execAll_suffices body k m (hsteps.next rfl)
  | .expr _ _ => suffices_of_halts (exec_halts n rfl) _
  | .assign _ _ _ _ => suffices_of_halts (exec_halts n rfl) _
  | .ifElse condition body otherwise line => by
    intro k m hsteps
    rw [exec_ifElse]
    refine (hsteps.next rfl).attempt (Exec.halts_eval _) fun holds m' hbranch => ?_
    cases holds with
    | true => exact (execAll_suffices body).inFrame hbranch
    | false =>
      cases otherwise with
      | none => trivial
      | some body => exact (execAll_suffices body).inFrame hbranch
  | .whileLoop condition body line => by
    intro k m hsteps
    exact (repeatWhile_suffices (execAll_suffices body) (execAll_leads n body) n
      (Nat.le_refl n)).inFrame (hsteps.next rfl)
  | .forLoop iterator range body line => by
    intro k m hsteps
    rw [Stmt.exec]
    refine (hsteps.next rfl).attempt (Exec.halts_eval _) fun (start, stop) m' hturns => ?_
    exact (repeatFor_suffices (execAll_suffices body) (execAll_leads n body) _ start stop
      rfl).inFrame hturns
  | .ret _ _ => suffices_of_halts (exec_halts n rfl) _
  | .jump _ _ => suffices_of_halts (exec_halts n rfl) _

theorem execAll_suffices : ∀ body : List Stmt, Suffices n (execAll n body) (body.map .stmt)
  | [] => fun _ _ _ => trivial
  | s :: rest => by
    intro k m hsteps
    rw [execAll]
    refine (exec_suffices s).bind (exec_leads n s) (Nat.le_refl n) hsteps fun flow m' hrest => ?_
    cases flow with
    | normal => exact execAll_suffices rest k m' hrest
    | jump j => trivial
    | ret value => trivial

end

end

/-- **Fuel and steps.** A program reaches a result with some fuel exactly if its steps come to an
end with that result. -/
theorem reaches_iff {p : Program} {m : Machine} {r : EStateM.Result Stop Machine Outcome} :
    Exec.Reaches p m r ↔ ∃ last ∈ StateTransition.eval step (start p m), last.outcome = r := by
  constructor
  · rintro ⟨fuel, rfl, hfinished⟩
    exact program_halts (finished_of_bind hfinished)
  · rintro ⟨last, hlast, rfl⟩
    obtain ⟨n, hsteps⟩ := haltsIn_of_mem_eval hlast
    have hfinished : Exec.Finished (execAll n p m) :=
      execAll_suffices n p [] m (by rwa [List.append_nil])
    obtain ⟨last', hlast', hr⟩ := program_halts hfinished
    cases Part.mem_unique hlast hlast'
    refine ⟨n, hr.symm, ?_⟩
    rw [hr]
    exact Exec.program_finished hfinished

end Config

/-! ## Programs without loops on conditions -/

/-- **Termination.** A program without loops on conditions comes to an end, with an outcome or a
fault, from every machine, and no fuel makes a difference to it. -/
theorem program_terminates {p : Program} (hp : allWhileFree p = true) (m : Machine) :
    ∃ last ∈ StateTransition.eval Config.step (Config.start p m),
      Exec.Finished last.outcome ∧ ∀ fuel, Exec.program fuel p m = last.outcome := by
  have hfinished : Exec.Finished (Exec.program 0 p m) :=
    Exec.program_finished (execAll_halts 0 hp m)
  obtain ⟨last, hlast, hr⟩ := Config.reaches_iff.mp ⟨0, rfl, hfinished⟩
  refine ⟨last, hlast, ?_, fun fuel => ?_⟩
  · rwa [hr]
  · rw [hr]
    exact Exec.program_within (Nat.zero_le fuel) p m hfinished

def movingBounds : Program :=
  [.assign (.name "n" 1) .set (.int 3 1) 1,
    .forLoop "i" (.binary .range (.int 0 2) (.name "n" 2) 2)
      [.assign (.name "n" 3) .set (.int 9223372036854775807 3) 3,
        .forLoop "i" (.binary .range (.binary .sub (.name "n" 4) (.name "i" 4) 4) (.name "n" 4) 4)
          [.assign (.name "i" 5) .set (.int 0 5) 5,
            .assign (.name "n" 6) .sub (.int 1 6) 6,
            .ifElse (.name "n" 7) [.jump .next 7] (some [.jump .exit 8]) 7] 4] 2]

theorem movingBounds_terminates :
    let m : Machine := .unlimited
    allWhileFree movingBounds = true ∧
      ∃ last ∈ StateTransition.eval Config.step (Config.start movingBounds m),
        Exec.Finished last.outcome ∧ ∀ fuel, Exec.program fuel movingBounds m = last.outcome := by
  intro m
  exact ⟨rfl, program_terminates rfl m⟩

end MatrixScript
