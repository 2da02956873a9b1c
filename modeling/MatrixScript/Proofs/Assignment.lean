import MatrixScript.Proofs.Stepwise

/-!
# What an assignment changes

An assignment that fails leaves the memory as it was: its evaluations never change it, and
the change of an element puts back what it took out. One that succeeds changes one
binding: the innermost of its name, or a new one in the innermost frame
(`assign_changes_one`).
-/

namespace MatrixScript

/-! ## One binding -/

section
variable {α : Type}

structure Frame.Sets (before : Frame α) (name : String) (value : α) (after : Frame α) : Prop where
  kind : after.kind = before.kind
  find : ∀ key, after.find? key = if name = key then some value else before.find? key

theorem Frame.sets_set {f : Frame α} {name : String} (h : f.binds name = true) (value : α) :
    f.Sets name value (f.set name value) :=
  ⟨rfl, fun key => Frame.find?_set_of_binds h key value⟩

theorem Frame.sets_insert (f : Frame α) (name : String) (value : α) :
    f.Sets name value (f.insert name value) :=
  ⟨rfl, fun key => Frame.find?_insert f name key value⟩

namespace Scope

/-- Only the innermost frame that binds a name has changed, and in it only the name. -/
def Replaces (before : Scope α) (name : String) (value : α) (after : Scope α) : Prop :=
  ∃ inside f g outside, before.chain = inside ++ f :: outside ∧ after.chain = inside ++ g :: outside ∧
    (∀ h ∈ inside, h.binds name = false) ∧ f.binds name = true ∧ f.Sets name value g

/-- A name that no frame binds has come into the innermost frame. -/
structure Adds (before : Scope α) (name : String) (value : α) (after : Scope α) : Prop where
  unbound : ∀ f ∈ before.chain, f.binds name = false
  inner : before.inner.Sets name value after.inner
  outer : after.outer = before.outer

theorem replaceFirst_split {name : String} (value : α) : ∀ {frames : List (Frame α)},
    (seenIn frames name).isSome → ∃ inside f outside, frames = inside ++ f :: outside ∧
      replaceFirst name value frames = inside ++ f.set name value :: outside ∧
      (∀ h ∈ inside, h.binds name = false) ∧ f.binds name = true := by
  intro frames
  induction frames with
  | nil => intro h; simp at h
  | cons f frames ih =>
    intro h
    unfold replaceFirst
    by_cases hb : f.binds name = true
    · exact ⟨[], f, frames, rfl, by simp [hb], by simp, hb⟩
    · have hb' : f.binds name = false := by simpa using hb
      rw [seenIn_of_not_binds _ hb'] at h
      obtain ⟨inside, g, outside, hsplit, hreplace, hinside, hg⟩ := ih h
      refine ⟨f :: inside, g, outside, by simp [hsplit], by simp [hb, hreplace], ?_, hg⟩
      simpa [hb'] using hinside

theorem replace_replaces {s : Scope α} {name : String} (h : (s.lookup? name).isSome) (value : α) :
    s.Replaces name value (s.replace name value) := by
  obtain ⟨inside, f, outside, hsplit, hreplace, hinside, hf⟩ := replaceFirst_split value h
  refine ⟨inside, f, f.set name value, outside, hsplit, ?_, hinside, hf, Frame.sets_set hf value⟩
  rw [chain_replace]
  exact hreplace

theorem lookup?_replace {s : Scope α} {name : String} (h : (s.lookup? name).isSome) (value : α)
    (key : String) :
    (s.replace name value).lookup? key = if name = key then some value else s.lookup? key := by
  rw [lookup?_eq, chain_replace]
  by_cases hk : name = key
  · subst hk
    rw [if_pos rfl]
    exact seenIn_replaceFirst_self value h
  · simp [hk, seenIn_replaceFirst_ne hk, lookup?_eq]

theorem binds_of_lookup?_eq_none {s : Scope α} {name : String} (h : s.lookup? name = none) :
    ∀ f ∈ s.chain, f.binds name = false := by
  intro f hf
  rw [lookup?_eq] at h
  simpa [Frame.binds] using List.findSome?_eq_none_iff.mp h f hf

theorem bind_adds {s : Scope α} {name : String} (h : s.lookup? name = none) (value : α) :
    s.Adds name value (s.bind name value) :=
  ⟨binds_of_lookup?_eq_none h, s.inner.sets_insert name value, rfl⟩

/-- One binding has changed, or one has come if that is allowed, and its name now means the
value. -/
structure Changes (before : Scope α) (new : Prop) (name : String) (value : α) (after : Scope α) :
    Prop where
  binding : before.Replaces name value after ∨ new ∧ before.Adds name value after
  lookup : ∀ key, after.lookup? key = if name = key then some value else before.lookup? key

theorem replace_changes {s : Scope α} {name : String} (h : (s.lookup? name).isSome) (new : Prop)
    (value : α) : s.Changes new name value (s.replace name value) :=
  ⟨.inl (replace_replaces h value), lookup?_replace h value⟩

theorem assign_changes (s : Scope α) (name : String) {new : Prop}
    (hnew : s.lookup? name = none → new) (value : α) :
    s.Changes new name value (s.assign name value) := by
  by_cases h : (s.lookup? name).isSome
  · unfold assign
    rw [if_pos h]
    exact replace_changes h new value
  · have hnone : s.lookup? name = none := by simpa using h
    rw [assign_of_unseen hnone]
    exact ⟨.inr ⟨hnew hnone, bind_adds hnone value⟩, fun key => lookup?_bind s name key value⟩

end Scope

end

/-! ## Assignments -/

/-- The name an assignment to a target is about and what it stores for it, given the value of the
right side and the machine after that. -/
inductive Target.Stores (op : AssignOp) (line : Nat) (new : Value) (m : Machine) :
    Target → String → Value → Prop
  | plain {name l} : op = .set → Stores op line new m (.name name l) name new
  | combined {name l current stored} : op ≠ .set → m.memory.lookup? name = some current →
      op.combine current new = .ok stored → Stores op line new m (.name name l) name stored
  | element {name indices l positions after current stored} :
      evalIndices line indices.elements m = .ok positions after →
      m.memory.lookup? name = some current →
      current.update positions (op.combine · new) = .ok stored →
      Stores op line new m (.element name indices l) name stored

/-- Where a plain assignment may bring a new name. -/
def Target.mayAdd (target : Target) (op : AssignOp) (name : String) : Prop :=
  op = .set ∧ ∃ line, target = .name name line

/-- Nothing is stored before the last step. -/
theorem Eval.ends_storing {name : String} {line : Nat} {change : Value → Except Cause Value}
    {store : Value → Eval Unit} {m : Machine} {ok : Unit → Machine → Prop}
    (h : ∀ current stored, m.memory.lookup? name = some current → change current = .ok stored →
      Ends (store stored m) ok fun _ m' => m'.memory = m.memory) :
    Ends ((do
      let current ← lookup name line
      let stored ← atLine line (change current)
      store stored : Eval Unit) m) ok fun _ m' => m'.memory = m.memory := by
  rw [lookup_bind]
  cases hcurrent : m.memory.lookup? name with
  | none => rfl
  | some current =>
    dsimp only
    rw [ends_bind]
    cases hstored : change current with
    | ok stored => exact h current stored hcurrent hstored
    | error cause => rfl

theorem store_changes (op : AssignOp) (new : Value) (line : Nat) (target : Target) (m : Machine) :
    Ends (target.store op new line m)
      (fun _ m' => ∃ name stored, target.Stores op line new m name stored ∧
        m.memory.Changes (target.mayAdd op name) name stored m'.memory)
      fun _ m' => m'.memory = m.memory := by
  cases target with
  | name spelling l =>
    by_cases hop : op = .set
    · subst hop
      exact ⟨spelling, new, .plain rfl, m.memory.assign_changes spelling (fun _ => ⟨rfl, l, rfl⟩) new⟩
    · rw [Target.store_name hop]
      refine Eval.ends_storing fun current stored hcurrent hstored => ?_
      refine ⟨spelling, stored, .combined hop hcurrent hstored, ?_⟩
      exact m.memory.assign_changes spelling (fun h => by rw [hcurrent] at h; cases h) stored
  | element array indices l =>
    have keeps : (evalIndices line indices.elements).KeepsMemory :=
      Eval.keepsMemory_stepwise.evalIndices trivial fun _ _ => trivial
    have kept := keeps m
    rw [Target.store_element, ends_bind]
    cases hpositions : evalIndices line indices.elements m with
    | error fault m₁ =>
      rw [hpositions] at kept
      exact kept
    | ok positions m₁ =>
      rw [hpositions] at kept
      have hmemory : m₁.memory = m.memory := kept
      rw [ends_ok, ← hmemory]
      refine Eval.ends_storing fun current stored hcurrent hstored => ?_
      have hbound : m.memory.lookup? array = some current := hmemory ▸ hcurrent
      refine ⟨array, stored, .element hpositions hbound hstored, ?_⟩
      exact Scope.replace_changes (by rw [hcurrent]; rfl) _ stored
  | invalid e => rfl

/-- **One binding changes, or none.** An assignment that fails, at whatever step, leaves all
frames as they were. One that succeeds gives the name of its target the stored value, in the
innermost frame that binds the name, or in the innermost of all if none does and the
assignment is a plain one to a name. Nothing else changes, and evaluations change nothing. -/
theorem assign_changes_one (fuel : Nat) (target : Target) (op : AssignOp) (value : Expr) (line : Nat)
    (m : Machine) :
    Ends ((Stmt.assign target op value line).exec fuel m)
      (fun _ m' => ∃ new m₁ name stored, value.value m = .ok new m₁ ∧
        target.Stores op line new m₁ name stored ∧
        m.memory.Changes (target.mayAdd op name) name stored m'.memory)
      (fun _ m' => m'.memory = m.memory) ∧
    ∀ e : Expr, Ends (e.eval m) (fun _ m' => m'.memory = m.memory) fun _ m' => m'.memory = m.memory := by
  refine ⟨?_, fun e => e.eval_keeps m⟩
  have keeps : value.value.KeepsMemory := Eval.keepsMemory_stepwise.value fun _ _ => trivial
  have kept := keeps m
  rw [Stmt.exec, ends_bind, Exec.ends_eval, Target.assign, ends_bind]
  cases hnew : value.value m with
  | error fault m₁ =>
    rw [hnew] at kept
    exact kept
  | ok new m₁ =>
    rw [hnew] at kept
    have hmemory : m₁.memory = m.memory := kept
    rw [ends_ok, ← hmemory]
    refine (store_changes op new line target m₁).mono ?_ fun _ _ h => h
    rintro _ m' ⟨name, stored, hstores, hchanges⟩
    exact ⟨new, m₁, name, stored, rfl, hstores, hchanges⟩

end MatrixScript
