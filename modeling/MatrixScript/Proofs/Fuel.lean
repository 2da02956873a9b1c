import MatrixScript.Proofs.Unwinding

/-!
# Fuel

Once there is enough fuel, more makes no difference (`Exec.program_within`). So what a
program reaches, if it ends at all, is one result that no fuel is part of
(`Exec.Reaches.unique`).
-/

namespace MatrixScript

namespace Exec

section
variable {α β : Type}

/-- A result that is not owed to the fuel. -/
def Finished (r : EStateM.Result Stop Machine α) : Prop :=
  Ends r (fun _ _ => True) fun stop _ => stop ≠ .outOfFuel

def Within (c c' : Exec α) : Prop := ∀ m : Machine, Finished (c m) → c' m = c m

theorem within_refl (c : Exec α) : Within c c := fun _ _ => rfl

theorem Within.bind {c c' : Exec α} {next next' : α → Exec β} (hc : Within c c')
    (hnext : ∀ a, Within (next a) (next' a)) : Within (c >>= next) (c' >>= next') := by
  intro m hfinished
  have h := hc m
  replace hfinished : Finished (EStateM.bind c next m) := hfinished
  show EStateM.bind c' next' m = EStateM.bind c next m
  unfold EStateM.bind at hfinished ⊢
  cases hr : c m with
  | ok a m₁ =>
    rw [hr] at h hfinished
    rw [h trivial]
    exact hnext a m₁ hfinished
  | error stop m₁ =>
    rw [hr] at h hfinished
    rw [h hfinished]

theorem Within.inFrame {c c' : Exec α} (hc : Within c c') (kind : FrameKind) :
    Within (inFrame kind c) (inFrame kind c') := by
  intro m hfinished
  have h : Finished (c { m with memory := m.memory.push kind }) := (ends_inFrame kind c m).mp hfinished
  unfold Exec.inFrame
  rw [hc _ h]

theorem repeatWhile_within (condition : Exec Bool) {body body' : Exec Flow} (hb : Within body body') :
    ∀ {fuel fuel' : Nat}, fuel ≤ fuel' →
      Within (repeatWhile condition body fuel) (repeatWhile condition body' fuel')
  | 0, _, _ => fun _ hfinished => absurd rfl hfinished
  | fuel + 1, fuel' + 1, hle => by
    have hnext := repeatWhile_within condition hb (Nat.le_of_succ_le_succ hle)
    refine (within_refl condition).bind fun holds => ?_
    cases holds with
    | false => exact within_refl _
    | true =>
      refine hb.bind fun flow => ?_
      match flow with
      | .normal | .jump .next => exact hnext
      | .jump .exit | .ret _ => exact within_refl _

theorem repeatFor_within (iterator : String) {body body' : Exec Flow} (hb : Within body body') :
    ∀ (turns : Nat) (i : Int64),
      Within (repeatFor iterator body turns i) (repeatFor iterator body' turns i)
  | 0, _ => within_refl _
  | turns + 1, i => by
    refine (within_refl _).bind fun _ => hb.bind fun flow => ?_
    match flow with
    | .normal | .jump .next => exact repeatFor_within iterator hb turns (i + 1)
    | .jump .exit | .ret _ => exact within_refl _

end

end Exec

section
variable {fuel fuel' : Nat}

mutual

theorem exec_within (hle : fuel ≤ fuel') : ∀ s : Stmt, Exec.Within (s.exec fuel) (s.exec fuel')
  | .block body => execAll_within hle body
  | .expr _ _ => Exec.within_refl _
  | .assign _ _ _ _ => Exec.within_refl _
  | .ifElse condition body otherwise line => by
    rw [exec_ifElse, exec_ifElse]
    refine (Exec.within_refl _).bind fun holds => ?_
    cases holds with
    | true => exact (execAll_within hle body).inFrame .branch
    | false =>
      cases otherwise with
      | none => exact Exec.within_refl _
      | some body => exact (execAll_within hle body).inFrame .branch
  | .whileLoop _ body _ => (Exec.repeatWhile_within _ (execAll_within hle body) hle).inFrame .whileLoop
  | .forLoop iterator _ body _ =>
    (Exec.within_refl _).bind fun _ =>
      (Exec.repeatFor_within iterator (execAll_within hle body) _ _).inFrame .forLoop
  | .ret _ _ => Exec.within_refl _
  | .jump _ _ => Exec.within_refl _

theorem execAll_within (hle : fuel ≤ fuel') :
    ∀ body : List Stmt, Exec.Within (execAll fuel body) (execAll fuel' body)
  | [] => Exec.within_refl _
  | s :: rest => by
    refine (exec_within hle s).bind fun flow => ?_
    cases flow with
    | normal => exact execAll_within hle rest
    | jump j => exact Exec.within_refl _
    | ret value => exact Exec.within_refl _

end

theorem Exec.program_within (hle : fuel ≤ fuel') (p : Program) :
    Within (program fuel p) (program fuel' p) :=
  (execAll_within hle p).bind fun _ => within_refl _

end

namespace Exec

def Reaches (p : Program) (m : Machine) (r : EStateM.Result Stop Machine Outcome) : Prop :=
  ∃ fuel, program fuel p m = r ∧ Finished r

theorem Reaches.of_le {p : Program} {m : Machine} {r : EStateM.Result Stop Machine Outcome}
    (h : Reaches p m r) : ∃ fuel, ∀ fuel', fuel ≤ fuel' → program fuel' p m = r := by
  obtain ⟨fuel, rfl, hfinished⟩ := h
  exact ⟨fuel, fun fuel' hle => program_within hle p m hfinished⟩

theorem Reaches.unique {p : Program} {m : Machine} {r r' : EStateM.Result Stop Machine Outcome}
    (h : Reaches p m r) (h' : Reaches p m r') : r = r' := by
  obtain ⟨fuel, hr⟩ := h.of_le
  obtain ⟨fuel', hr'⟩ := h'.of_le
  exact (hr _ (Nat.le_max_left fuel fuel')).symm.trans (hr' _ (Nat.le_max_right fuel fuel'))

end Exec

end MatrixScript
