import MatrixScript.Proofs.Fuel
import Mathlib.Computability.StateTransition

/-!
# Programs step by step

A machine with a stack of things still to be done runs a program one step at a time, and without
fuel: a loop over a range looks at its bounds before each turn. Wherever execution comes to an
end, the steps lead to the same end (`exec_leads`).
-/

namespace MatrixScript

/-! ## Steps -/

inductive Pending where
  | stmt (s : Stmt)
  /-- Closing the innermost frame. -/
  | close
  | whileTurn (condition : Expr) (body : List Stmt) (line : Nat)
  | forTurn (iterator : String) (body : List Stmt) (next stop : Int64)

/-- What the last step handed on, what is still to be done, the nearest first, and the machine. -/
structure Config where
  signal : Except Stop Flow
  tasks : List Pending
  machine : Machine

namespace Config

def handOn (k : List Pending) : EStateM.Result Stop Machine Flow → Config
  | .ok flow m => ⟨.ok flow, k, m⟩
  | .error stop m => ⟨.error stop, k, m⟩

def attempt {α : Type} (k : List Pending) (r : EStateM.Result Stop Machine α)
    (next : α → Machine → Config) : Config :=
  match r with
  | .ok a m => next a m
  | .error stop m => ⟨.error stop, k, m⟩

def inFrame (kind : FrameKind) (tasks k : List Pending) (m : Machine) : Config :=
  ⟨.ok .normal, tasks ++ .close :: k, { m with memory := m.memory.push kind }⟩

end Config

/-- The first step of a statement. One that holds no others is done in a step. -/
def Stmt.start (k : List Pending) (m : Machine) : Stmt → Config
  | .block body => ⟨.ok .normal, body.map .stmt ++ k, m⟩
  | .ifElse condition body otherwise line =>
    Config.attempt k (Exec.condition condition line m) fun holds m =>
      if holds then .inFrame .branch (body.map .stmt) k m
      else
        match otherwise with
        | some body => .inFrame .branch (body.map .stmt) k m
        | none => ⟨.ok .normal, k, m⟩
  | .whileLoop condition body line => .inFrame .whileLoop [.whileTurn condition body line] k m
  | .forLoop iterator range body line =>
    Config.attempt k (Exec.bounds range line m) fun (start, stop) m =>
      .inFrame .forLoop [.forTurn iterator body start stop] k m
  | s => .handOn k (s.exec 0 m)

namespace Pending

def start (k : List Pending) (m : Machine) : Pending → Config
  | stmt s => s.start k m
  | close => ⟨.ok .normal, k, { m with memory := m.memory.pop }⟩
  | whileTurn condition body line =>
    Config.attempt k (Exec.condition condition line m) fun holds m =>
      if holds then ⟨.ok .normal, body.map .stmt ++ whileTurn condition body line :: k, m⟩
      else ⟨.ok .normal, k, m⟩
  | forTurn iterator body next stop =>
    if next < stop then
      ⟨.ok .normal, body.map .stmt ++ forTurn iterator body (next + 1) stop :: k,
        { m with memory := m.memory.bind iterator (.int next) }⟩
    else ⟨.ok .normal, k, m⟩

/-- A step on the way out, up to a loop or the end. -/
def leave (signal : Except Stop Flow) (k : List Pending) (m : Machine) : Pending → Config
  | stmt _ => ⟨signal, k, m⟩
  | close => ⟨signal, k, { m with memory := m.memory.pop }⟩
  | turn =>
    match signal with
    | .ok (.jump .exit) => ⟨.ok .normal, k, m⟩
    | .ok (.jump .next) => ⟨.ok .normal, turn :: k, m⟩
    | signal => ⟨signal, k, m⟩

end Pending

def Pending.isTurn : Pending → Bool
  | whileTurn _ _ _ | forTurn _ _ _ _ => true
  | _ => false

namespace Config

def step : Config → Option Config
  | ⟨_, [], _⟩ => none
  | ⟨.ok .normal, task :: k, m⟩ => some (task.start k m)
  | ⟨signal, task :: k, m⟩ => some (task.leave signal k m)

def start (p : Program) (m : Machine) : Config := ⟨.ok .normal, p.map .stmt, m⟩

/-- How a program ends that has nothing more to do: its output is flushed, unless a fault stopped
it. -/
def outcome (c : Config) : EStateM.Result Stop Machine Outcome :=
  match c.signal with
  | .ok flow => (do Exec.eval Eval.flush; return flow.outcome : Exec Outcome) c.machine
  | .error stop => .error stop c.machine

/-! ## One step -/

theorem step_close (signal : Except Stop Flow) (k : List Pending) (m : Machine) :
    step ⟨signal, .close :: k, m⟩ = some ⟨signal, k, { m with memory := m.memory.pop }⟩ := by
  cases signal with
  | error stop => rfl
  | ok flow => cases flow <;> rfl

theorem step_leave {signal : Except Stop Flow} (h : signal ≠ .ok .normal) (task : Pending)
    (k : List Pending) (m : Machine) :
    step ⟨signal, task :: k, m⟩ = some (task.leave signal k m) := by
  cases signal with
  | error stop => rfl
  | ok flow =>
    cases flow with
    | normal => exact absurd rfl h
    | jump j => rfl
    | ret value => rfl

/-! ## Where steps lead -/

abbrev Leads : Config → Config → Prop := StateTransition.Reaches step

theorem leads_step {a b c : Config} (h : step a = some b) (h' : Leads b c) : Leads a c :=
  Relation.ReflTransGen.head h h'

theorem leads_left {signal : Except Stop Flow} (h : signal ≠ .ok .normal) (k : List Pending)
    (m : Machine) : ∀ body : List Stmt, Leads ⟨signal, body.map .stmt ++ k, m⟩ ⟨signal, k, m⟩ := by
  intro body
  induction body with
  | nil => exact .refl
  | cons s body ih => exact leads_step (step_leave h (.stmt s) _ m) ih

def Follows (c : Exec Flow) (tasks : List Pending) : Prop := ∀ (k : List Pending) (m : Machine),
  Exec.Finished (c m) → Leads ⟨.ok .normal, tasks ++ k, m⟩ (handOn k (c m))

theorem finished_of_bind {α β : Type} {c : Exec α} {f : α → Exec β} {m : Machine}
    (h : Exec.Finished ((c >>= f) m)) : Exec.Finished (c m) := by
  unfold Exec.Finished at h ⊢
  rw [ends_bind] at h
  exact h.mono (fun _ _ _ => trivial) fun _ _ h => h

/-- What a computation leads to, and then what goes on from each of its results. -/
theorem leads_bind {α : Type} {c : Exec α} {f : α → Exec Flow} {k : List Pending} {m : Machine}
    (source : EStateM.Result Stop Machine α → Config) (hfinished : Exec.Finished ((c >>= f) m))
    (ok : ∀ a m', Exec.Finished (f a m') → Leads (source (.ok a m')) (handOn k (f a m')))
    (error : ∀ stop m', Leads (source (.error stop m')) ⟨.error stop, k, m'⟩) :
    Leads (source (c m)) (handOn k ((c >>= f) m)) := by
  replace hfinished : Exec.Finished (EStateM.bind c f m) := hfinished
  show Leads _ (handOn k (EStateM.bind c f m))
  unfold EStateM.bind at hfinished ⊢
  cases hc : c m with
  | ok a m' =>
    rw [hc] at hfinished
    exact ok a m' hfinished
  | error stop m' => exact error stop m'

theorem attempt_leads {α : Type} {c : Exec α} {f : α → Exec Flow} {next : α → Machine → Config}
    {k : List Pending} {m : Machine} (hfinished : Exec.Finished ((c >>= f) m))
    (h : ∀ a m', Exec.Finished (f a m') → Leads (next a m') (handOn k (f a m'))) :
    Leads (attempt k (c m) next) (handOn k ((c >>= f) m)) :=
  leads_bind (attempt k · next) hfinished h fun _ _ => .refl

/-- Tasks that follow a computation, and then the tasks after them. -/
theorem Follows.bind {c : Exec Flow} {f : Flow → Exec Flow} {tasks rest k : List Pending} {m : Machine}
    (h : Follows c tasks) (hfinished : Exec.Finished ((c >>= f) m))
    (ok : ∀ flow m', Exec.Finished (f flow m') → Leads ⟨.ok flow, rest, m'⟩ (handOn k (f flow m')))
    (error : ∀ stop m', Leads ⟨.error stop, rest, m'⟩ ⟨.error stop, k, m'⟩) :
    Leads ⟨.ok .normal, tasks ++ rest, m⟩ (handOn k ((c >>= f) m)) :=
  Relation.ReflTransGen.trans (h rest m (finished_of_bind hfinished))
    (leads_bind (handOn rest) hfinished ok error)

theorem Follows.inFrame {c : Exec Flow} {tasks : List Pending} (h : Follows c tasks)
    (kind : FrameKind) (k : List Pending) (m : Machine)
    (hfinished : Exec.Finished (Exec.inFrame kind c m)) :
    Leads (inFrame kind tasks k m) (handOn k (Exec.inFrame kind c m)) := by
  have hbody := h (.close :: k) { m with memory := m.memory.push kind }
    ((Exec.ends_inFrame kind c m).mp hfinished)
  refine Relation.ReflTransGen.trans hbody ?_
  unfold Exec.inFrame
  cases c { m with memory := m.memory.push kind } with
  | ok flow m' => exact leads_step (step_close (.ok flow) k m') .refl
  | error stop m' => exact leads_step (step_close (.error stop) k m') .refl

/-! ## Loops -/

def goOn (again : Exec Flow) : Flow → Exec Flow
  | .normal | .jump .next => again
  | .jump .exit => pure .normal
  | .ret value => pure (.ret value)

theorem repeatWhile_succ (condition : Exec Bool) (run : Exec Flow) (fuel : Nat) :
    Exec.repeatWhile condition run (fuel + 1) = (do
      if ← condition then run >>= goOn (Exec.repeatWhile condition run fuel)
      else return .normal) :=
  rfl

theorem repeatFor_succ (iterator : String) (run : Exec Flow) (turns : Nat) (i : Int64) (m : Machine) :
    Exec.repeatFor iterator run (turns + 1) i m =
      (run >>= goOn (Exec.repeatFor iterator run turns (i + 1)))
        { m with memory := m.memory.bind iterator (.int i) } :=
  rfl

theorem leave_turn {task : Pending} (htask : task.isTurn = true) (signal : Except Stop Flow)
    (k : List Pending) (m : Machine) :
    task.leave signal k m =
      match signal with
      | .ok (.jump .exit) => ⟨.ok .normal, k, m⟩
      | .ok (.jump .next) => ⟨.ok .normal, task :: k, m⟩
      | signal => ⟨signal, k, m⟩ := by
  cases task with
  | stmt s => cases htask
  | close => cases htask
  | whileTurn condition body line => rfl
  | forTurn iterator body next stop => rfl

/-- The body of a loop, and what is left of the loop after it. -/
theorem Follows.turn {run again : Exec Flow} {tasks k : List Pending} {task : Pending}
    (hrun : Follows run tasks) (htask : task.isTurn = true)
    (hagain : ∀ m, Exec.Finished (again m) → Leads ⟨.ok .normal, task :: k, m⟩ (handOn k (again m)))
    (m : Machine) (hfinished : Exec.Finished ((run >>= goOn again) m)) :
    Leads ⟨.ok .normal, tasks ++ task :: k, m⟩ (handOn k ((run >>= goOn again) m)) := by
  have hleave : ∀ {signal : Except Stop Flow} (m' : Machine), signal ≠ .ok .normal →
      Leads ⟨signal, task :: k, m'⟩ (task.leave signal k m') :=
    fun m' hsignal => leads_step (step_leave hsignal task k m') .refl
  simp only [leave_turn htask] at hleave
  refine hrun.bind hfinished (fun flow m' hnext => ?_) fun stop m' => ?_
  · cases flow with
    | normal => exact hagain m' hnext
    | ret value => exact hleave m' (by simp)
    | jump j =>
      cases j with
      | exit => exact hleave m' (by simp)
      | next => exact (hleave m' (by simp)).trans (hagain m' hnext)
  · exact hleave m' (by simp)

theorem repeatWhile_follows {condition : Expr} {line : Nat} {body : List Stmt} {run : Exec Flow}
    (hbody : Follows run (body.map .stmt)) : ∀ fuel : Nat,
      Follows (Exec.repeatWhile (Exec.condition condition line) run fuel)
        [.whileTurn condition body line] := by
  intro fuel
  induction fuel with
  | zero => exact fun k m hfinished => absurd rfl hfinished
  | succ fuel ih =>
    intro k m hfinished
    rw [repeatWhile_succ] at hfinished ⊢
    refine leads_step rfl (attempt_leads hfinished fun holds m' hnext => ?_)
    cases holds with
    | false => exact .refl
    | true => exact hbody.turn rfl (ih k) m' hnext

/-- While turns are left the next integer is short of the stop, so that counting up to it cannot
overflow. -/
theorem next_turn {turns : Nat} {i stop : Int64} (h : (stop.toInt - i.toInt).toNat = turns + 1) :
    i < stop ∧ (stop.toInt - (i + 1).toInt).toNat = turns := by
  have hmin := i.le_toInt
  have hmax := stop.toInt_lt
  have hlt : i.toInt < stop.toInt := by omega
  have hsucc : (i + 1).toInt = i.toInt + 1 := by
    rw [Int64.toInt_add, Int64.toInt_one, Int.bmod_eq_of_le (by omega) (by omega)]
  refine ⟨Int64.lt_iff_toInt_lt.mpr hlt, ?_⟩
  rw [hsucc]
  omega

theorem repeatFor_follows {iterator : String} {body : List Stmt} {run : Exec Flow}
    (hbody : Follows run (body.map .stmt)) : ∀ (turns : Nat) (i stop : Int64),
      (stop.toInt - i.toInt).toNat = turns →
        Follows (Exec.repeatFor iterator run turns i) [.forTurn iterator body i stop] := by
  intro turns
  induction turns with
  | zero =>
    intro i stop hturns k m _
    have hdone : ¬ i < stop := by
      rw [Int64.lt_iff_toInt_lt]
      omega
    exact leads_step (congrArg some (if_neg hdone)) .refl
  | succ turns ih =>
    intro i stop hturns k m hfinished
    obtain ⟨hmore, hrest⟩ := next_turn hturns
    rw [repeatFor_succ] at hfinished ⊢
    refine leads_step (congrArg some (if_pos hmore)) ?_
    exact hbody.turn rfl (ih (i + 1) stop hrest k) _ hfinished

/-! ## Statements -/

theorem Follows.nil : Follows (pure .normal) [] := fun _ _ _ => .refl

theorem follows_simple {s : Stmt} {c : Exec Flow}
    (h : ∀ (k : List Pending) (m : Machine), s.start k m = handOn k (c m)) : Follows c [.stmt s] :=
  fun k m _ => leads_step (congrArg some (h k m)) .refl

/-- A list of statements: what its first leaves behind goes on to the rest, or past them. -/
theorem Follows.cons {fuel : Nat} {s : Stmt} {rest : List Stmt} (hs : Follows (s.exec fuel) [.stmt s])
    (hrest : Follows (execAll fuel rest) (rest.map .stmt)) :
    Follows (execAll fuel (s :: rest)) ((s :: rest).map .stmt) := by
  intro k m hfinished
  rw [execAll] at hfinished ⊢
  refine hs.bind hfinished (fun flow m' hnext => ?_) fun stop m' => ?_
  · cases flow with
    | normal => exact hrest k m' hnext
    | jump j => exact leads_left (by simp) k m' rest
    | ret value => exact leads_left (by simp) k m' rest
  · exact leads_left (by simp) k m' rest

section
variable (fuel : Nat)

mutual

theorem exec_leads : ∀ s : Stmt, Follows (s.exec fuel) [.stmt s]
  | .block body => fun k m hfinished => leads_step rfl (execAll_leads body k m hfinished)
  | .expr _ _ => follows_simple fun _ _ => rfl
  | .assign _ _ _ _ => follows_simple fun _ _ => rfl
  | .ifElse condition body otherwise line => by
    intro k m hfinished
    rw [exec_ifElse] at hfinished ⊢
    refine leads_step rfl (attempt_leads hfinished fun holds m' hbranch => ?_)
    cases holds with
    | true => exact (execAll_leads body).inFrame .branch k m' hbranch
    | false =>
      cases otherwise with
      | none => exact .refl
      | some body => exact (execAll_leads body).inFrame .branch k m' hbranch
  | .whileLoop _ body _ => fun k m hfinished =>
    leads_step rfl ((repeatWhile_follows (execAll_leads body) fuel).inFrame .whileLoop k m hfinished)
  | .forLoop iterator _ body _ => fun k m hfinished =>
    leads_step rfl (attempt_leads hfinished fun (start, stop) m' hloop =>
      (repeatFor_follows (execAll_leads body) _ start stop rfl).inFrame .forLoop k m' hloop)
  | .ret _ _ => follows_simple fun _ _ => rfl
  | .jump _ _ => follows_simple fun _ _ => rfl

theorem execAll_leads : ∀ body : List Stmt, Follows (execAll fuel body) (body.map .stmt)
  | [] => .nil
  | s :: rest => (exec_leads s).cons (execAll_leads rest)

end

end

/-- A program that comes to an end with some fuel comes to the same end step by step. -/
theorem program_halts {fuel : Nat} {p : Program} {m : Machine}
    (h : Exec.Finished (execAll fuel p m)) :
    ∃ last ∈ StateTransition.eval step (start p m), last.outcome = Exec.program fuel p m := by
  refine ⟨handOn [] (execAll fuel p m), ?_, ?_⟩
  · rw [StateTransition.mem_eval]
    constructor
    · have hleads := execAll_leads fuel p [] m h
      rwa [List.append_nil] at hleads
    · cases execAll fuel p m <;> rfl
  · show _ = EStateM.bind (execAll fuel p) _ m
    unfold EStateM.bind
    cases execAll fuel p m <;> rfl

end Config

end MatrixScript
