import MatrixScript.Proofs.Stepwise

/-!
# Unwinding

Whatever way a statement ends, the frames that were open before it are open
after it, and only the innermost of them may have gained names. Jumps come out
of a statement only into a loop that is open around it.
-/

namespace MatrixScript

/-! ## Scopes before and after -/

/-- The same frames, of which only the innermost may bind more names. -/
structure Scope.Unwound {α : Type} (before after : Scope α) : Prop where
  inner : before.inner.Grows after.inner
  outer : List.Forall₂ Frame.SameNames before.outer after.outer

namespace Scope.Unwound

variable {α : Type} {s t u : Scope α}

theorem refl (s : Scope α) : s.Unwound s :=
  ⟨.refl _, Frame.sameNames_refl _⟩

theorem trans (h₁ : s.Unwound t) (h₂ : t.Unwound u) : s.Unwound u :=
  ⟨h₁.inner.trans h₂.inner, Frame.sameNames_trans h₁.outer h₂.outer⟩

theorem bind (s : Scope α) (name : String) (value : α) : s.Unwound (s.bind name value) :=
  ⟨Frame.grows_insert _ _ _, (refl s).outer⟩

theorem replace (s : Scope α) (name : String) (value : α) : s.Unwound (s.replace name value) := by
  unfold Scope.replace
  split
  · exact ⟨(s.inner.sameNames_set name value).grows, (refl s).outer⟩
  · exact ⟨.refl _, sameNames_replaceFirst name value s.outer⟩

theorem assign (s : Scope α) (name : String) (value : α) : s.Unwound (s.assign name value) := by
  unfold Scope.assign
  split
  · exact replace s name value
  · exact bind s name value

theorem pop {kind : FrameKind} (h : (s.push kind).Unwound t) : s.Unwound t.pop := by
  obtain ⟨inner, outer⟩ := t
  cases h.outer with
  | cons hf hfs => exact ⟨hf.grows, hfs⟩

theorem kinds (h : s.Unwound t) : t.chain.map Frame.kind = s.chain.map Frame.kind := by
  rw [chain, chain, List.map_cons, List.map_cons, h.inner.kind, Frame.kinds_of_sameNames h.outer]

theorem inLoop_eq (h : s.Unwound t) : t.inLoop = s.inLoop := by
  rw [Scope.inLoop_eq, Scope.inLoop_eq, h.kinds]

end Scope.Unwound

namespace Exec

/-! ## Computations that unwind -/

section
variable {α β : Type}

def Unwinds (c : Exec α) : Prop := ∀ m : Machine,
  Ends (c m) (fun _ m' => m.memory.Unwound m'.memory) (fun _ m' => m.memory.Unwound m'.memory)

theorem unwinds_pure (a : α) : Unwinds (pure a) := fun m => Scope.Unwound.refl m.memory

theorem Unwinds.bind {c : Exec α} {next : α → Exec β} (hc : Unwinds c)
    (hnext : ∀ a, Unwinds (next a)) : Unwinds (c >>= next) := by
  intro m
  rw [ends_bind]
  refine (hc m).mono (fun a m₁ h₁ => ?_) (fun _ _ h => h)
  exact (hnext a m₁).mono (fun _ _ h₂ => h₁.trans h₂) (fun _ _ h₂ => h₁.trans h₂)

theorem unwinds_eval {x : Eval α}
    (hx : ∀ m : Machine, Ends (x m) (fun _ m' => m.memory.Unwound m'.memory)
      fun _ m' => m.memory.Unwound m'.memory) : Unwinds (eval x) :=
  fun m => (ends_eval x m).mpr (hx m)

theorem unwinds_evaluation {x : Eval α} (hx : x.KeepsMemory) : Unwinds (eval x) := by
  have same : ∀ {before after : Memory}, after = before → before.Unwound after := by
    intro before after h
    rw [h]
    exact .refl before
  exact unwinds_eval fun m => (hx m).mono (fun _ _ => same) fun _ _ => same

theorem Unwinds.inFrame {c : Exec α} (hc : Unwinds c) (kind : FrameKind) :
    Unwinds (inFrame kind c) := by
  intro m
  have h := hc { m with memory := m.memory.push kind }
  unfold Exec.inFrame
  cases hr : c { m with memory := m.memory.push kind } with
  | ok a m' => rw [hr] at h; exact h.pop
  | error stop m' => rw [hr] at h; exact h.pop

theorem unwinds_jump (j : Jump) (line : Nat) : Unwinds (jump j line) := by
  intro m
  unfold jump
  split <;> exact Scope.Unwound.refl m.memory

end

/-- Only assignments and iterators change the memory. -/
theorem unwinds_stepwise : Stepwise (fun _ => True) @Unwinds where
  pure := unwinds_pure
  bind := Unwinds.bind
  read := fun hline f => unwinds_evaluation (Eval.keepsMemory_stepwise.read hline f)
  write := fun text => unwinds_evaluation (Eval.keepsMemory_stepwise.write text)
  flush := unwinds_evaluation Eval.flush_keeps
  assign := fun name value => unwinds_eval fun m => Scope.Unwound.assign m.memory name value
  onBinding := fun _ name c => unwinds_eval fun m => by
    unfold Eval.onBinding
    cases m.memory.lookup? name with
    | none => exact Scope.Unwound.refl m.memory
    | some value =>
      dsimp only
      cases c value <;> exact Scope.Unwound.replace m.memory name _
  iterator := fun name i m => Scope.Unwound.bind m.memory name (.int i)
  inFrame := fun kind hc => hc.inFrame kind
  jump := fun _ j => unwinds_jump j _
  outOfFuel := fun m => Scope.Unwound.refl m.memory

end Exec

theorem exec_ifElse (fuel : Nat) (condition : Expr) (body : List Stmt)
    (otherwise : Option (List Stmt)) (line : Nat) :
    (Stmt.ifElse condition body otherwise line).exec fuel = do
      if ← Exec.condition condition line then Exec.inFrame .branch (execAll fuel body)
      else
        match otherwise with
        | some body => Exec.inFrame .branch (execAll fuel body)
        | none => return .normal := by
  cases otherwise <;> rfl

theorem exec_unwinds (fuel : Nat) (s : Stmt) : Exec.Unwinds (s.exec fuel) :=
  Exec.unwinds_stepwise.exec fuel fun _ _ => trivial

theorem condition_unwinds (e : Expr) (line : Nat) : Exec.Unwinds (Exec.condition e line) :=
  Exec.unwinds_stepwise.condition trivial fun _ _ => trivial

/-! ## Jumps -/

def Flow.isJump : Flow → Bool
  | jump _ => true
  | _ => false

def Stmt.isLoop : Stmt → Bool
  | whileLoop _ _ _ => true
  | forLoop _ _ _ _ => true
  | _ => false

namespace Exec

theorem repeatWhile_isJump (condition : Exec Bool) (body : Exec Flow) : ∀ (fuel : Nat) (m : Machine),
    Ends (repeatWhile condition body fuel m) (fun flow _ => flow.isJump = false) fun _ _ => True
  | 0, _ => trivial
  | fuel + 1, m => by
    rw [repeatWhile, ends_bind]
    cases condition m with
    | error stop m₁ => trivial
    | ok holds m₁ =>
      cases holds with
      | false => rfl
      | true =>
        rw [ends_ok, if_pos rfl, ends_bind]
        cases body m₁ with
        | error stop m₂ => trivial
        | ok flow m₂ =>
          cases flow with
          | normal => exact repeatWhile_isJump condition body fuel m₂
          | ret value => rfl
          | jump j =>
            cases j with
            | exit => rfl
            | next => exact repeatWhile_isJump condition body fuel m₂

theorem repeatFor_isJump (iterator : String) (body : Exec Flow) :
    ∀ (turns : Nat) (i : Int64) (m : Machine),
      Ends (repeatFor iterator body turns i m) (fun flow _ => flow.isJump = false) fun _ _ => True
  | 0, _, _ => rfl
  | turns + 1, i, m => by
    rw [repeatFor, ends_bind]
    show Ends ((body >>= _) { m with memory := m.memory.bind iterator (.int i) }) _ _
    rw [ends_bind]
    cases body { m with memory := m.memory.bind iterator (.int i) } with
    | error stop m₁ => trivial
    | ok flow m₁ =>
      cases flow with
      | normal => exact repeatFor_isJump iterator body turns (i + 1) m₁
      | ret value => rfl
      | jump j =>
        cases j with
        | exit => rfl
        | next => exact repeatFor_isJump iterator body turns (i + 1) m₁

end Exec

def Exec.JumpsInLoops (c : Exec Flow) : Prop := ∀ m : Machine,
  Ends (c m) (fun flow _ => flow.isJump = true → m.memory.inLoop = true) fun _ _ => True

theorem Exec.JumpsInLoops.branch {c : Exec Flow} (hc : JumpsInLoops c) :
    JumpsInLoops (inFrame .branch c) := by
  intro m
  rw [ends_inFrame]
  refine (hc _).mono (fun flow _ hj hf => ?_) (fun _ _ h => h)
  have := hj hf
  simpa [Scope.inLoop, Scope.push, FrameKind.isLoop] using this

/-- After a computation that unwinds the same loops are open. -/
theorem Exec.JumpsInLoops.after {α : Type} {c : Exec α} {next : α → Exec Flow} (hc : Unwinds c)
    (hnext : ∀ a, JumpsInLoops (next a)) : JumpsInLoops (c >>= next) := by
  intro m
  rw [ends_bind]
  refine (hc m).mono (fun a m₁ h₁ => ?_) (fun _ _ _ => trivial)
  refine (hnext a m₁).mono (fun _ _ h hf => ?_) (fun _ _ h => h)
  rw [← h₁.inLoop_eq]
  exact h hf

theorem Exec.jumpsInLoops_of_noJump {c : Exec Flow}
    (h : ∀ m, Ends (c m) (fun flow _ => flow.isJump = false) fun _ _ => True) : JumpsInLoops c := by
  intro m
  refine (h m).mono (fun flow _ hflow hjump => ?_) fun _ _ _ => trivial
  rw [hflow] at hjump
  cases hjump

theorem Exec.jumpsInLoops_pure {flow : Flow} (h : flow.isJump = false) :
    JumpsInLoops (pure flow) := jumpsInLoops_of_noJump fun _ => h

/-- What only ends in flows that are no jumps. -/
theorem Exec.jumpsInLoops_map {α : Type} (c : Exec α) {flow : α → Flow}
    (h : ∀ a, (flow a).isJump = false) : JumpsInLoops (do return flow (← c)) := by
  refine jumpsInLoops_of_noJump fun m => ?_
  rw [ends_bind]
  cases c m with
  | error stop m' => trivial
  | ok a m' => exact h a

theorem loop_isJump (fuel : Nat) {s : Stmt} (hs : s.isLoop = true) (m : Machine) :
    Ends (s.exec fuel m) (fun flow _ => flow.isJump = false) fun _ _ => True := by
  cases s with
  | whileLoop condition body line =>
    rw [Stmt.exec, Exec.ends_inFrame]
    exact Exec.repeatWhile_isJump _ _ _ _
  | forLoop iterator range body line =>
    rw [Stmt.exec, ends_bind]
    cases Exec.bounds range line m with
    | error stop m₁ => trivial
    | ok bounds m₁ =>
      rw [ends_ok, Exec.ends_inFrame]
      exact Exec.repeatFor_isJump _ _ _ _ _
  | _ => cases hs

theorem loop_jumpsInLoops (fuel : Nat) {s : Stmt} (hs : s.isLoop = true) :
    Exec.JumpsInLoops (s.exec fuel) := Exec.jumpsInLoops_of_noJump (loop_isJump fuel hs)

mutual

theorem exec_jumpsInLoops (fuel : Nat) : ∀ s : Stmt, Exec.JumpsInLoops (s.exec fuel)
  | .block body => execAll_jumpsInLoops fuel body
  | .expr _ _ | .assign _ _ _ _ | .ret _ _ => Exec.jumpsInLoops_map _ fun _ => rfl
  | .ifElse condition body otherwise line => by
    rw [exec_ifElse]
    refine .after (condition_unwinds condition line) fun holds => ?_
    cases holds with
    | true => exact (execAll_jumpsInLoops fuel body).branch
    | false =>
      cases otherwise with
      | none => exact Exec.jumpsInLoops_pure rfl
      | some body => exact (execAll_jumpsInLoops fuel body).branch
  | .whileLoop condition body line => loop_jumpsInLoops fuel rfl
  | .forLoop iterator range body line => loop_jumpsInLoops fuel rfl
  | .jump jump line => by
    intro m
    rw [Stmt.exec, Exec.jump]
    split
    · rename_i h; exact fun _ => h
    · trivial

theorem execAll_jumpsInLoops (fuel : Nat) : ∀ body : List Stmt,
    Exec.JumpsInLoops (execAll fuel body)
  | [] => Exec.jumpsInLoops_pure rfl
  | s :: rest => by
    intro m
    rw [execAll, ends_bind]
    refine ((exec_unwinds fuel s m).and (exec_jumpsInLoops fuel s m)).mono (fun flow m₁ h₁ => ?_)
      (fun _ _ _ => trivial)
    cases flow with
    | normal =>
      refine (execAll_jumpsInLoops fuel rest m₁).mono (fun _ _ h hf => ?_) (fun _ _ h => h)
      rw [← h₁.1.inLoop_eq]
      exact h hf
    | jump j => exact h₁.2
    | ret value => exact h₁.2

end

/-! ## The discipline -/

theorem Scope.Unwound.frames_kinds {α : Type} {s t : Scope α} (h : s.Unwound t) :
    t.frames.map Frame.kind = s.frames.map Frame.kind := by
  have := congrArg List.reverse h.kinds
  simpa [frames, chain] using this

/-- **Unwinding.** However a statement ends, the frames before it are open after it
with the names they had, the innermost perhaps with more. A jump comes out only
where a loop is open, and never out of a loop itself, so a program that starts
with no loop open sees none. -/
theorem exec_unwinding (fuel : Nat) (s : Stmt) (m : Machine) :
    Ends (s.exec fuel m)
      (fun flow m' => m'.memory.frames.map Frame.kind = m.memory.frames.map Frame.kind ∧
        m.memory.Unwound m'.memory ∧
        (flow.isJump = true → m.memory.inLoop = true ∧ s.isLoop = false))
      (fun _ m' => m'.memory.frames.map Frame.kind = m.memory.frames.map Frame.kind ∧
        m.memory.Unwound m'.memory) ∧
    (m.memory.inLoop = false → ∀ p : Program,
      Ends (execAll fuel p m) (fun flow _ => flow = .normal ∨ ∃ value, flow = .ret value)
        fun _ _ => True) := by
  constructor
  · have noJump : Ends (s.exec fuel m)
        (fun flow _ => flow.isJump = true → s.isLoop = false) (fun _ _ => True) := by
      by_cases hs : s.isLoop = true
      · refine (loop_isJump fuel hs m).mono (fun flow _ h hf => ?_) (fun _ _ h => h)
        rw [h] at hf; cases hf
      · cases s.exec fuel m <;> simp [hs]
    refine (((exec_unwinds fuel s m).and (exec_jumpsInLoops fuel s m)).and noJump).mono ?_ ?_
    · rintro flow m' ⟨⟨hu, hj⟩, hl⟩
      exact ⟨hu.frames_kinds, hu, fun hf => ⟨hj hf, hl hf⟩⟩
    · rintro stop m' ⟨⟨hu, -⟩, -⟩
      exact ⟨hu.frames_kinds, hu⟩
  · intro hm p
    refine (execAll_jumpsInLoops fuel p m).mono (fun flow _ h => ?_) (fun _ _ h => h)
    cases flow with
    | normal => exact .inl rfl
    | ret value => exact .inr ⟨value, rfl⟩
    | jump j => rw [hm] at h; cases h rfl

theorem exit_unwinding :
    Ends (execAll 1 [.whileLoop (.int 1 1) [.jump .exit 2] 1] .unlimited)
      (fun flow _ => flow = .normal ∨ ∃ value, flow = .ret value) fun _ _ => True :=
  (exec_unwinding 1 (.jump .exit 2) .unlimited).2 rfl _

end MatrixScript
