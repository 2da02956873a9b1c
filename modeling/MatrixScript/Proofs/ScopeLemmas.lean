import MatrixScript.Scope
import Mathlib.Data.List.Forall2

/-!
# Scopes as chains of frames

A scope is read here as the list of its frames, the innermost first. `seenIn`
is what a name means in such a list; replacing a binding changes what its name
means and which names are bound nowhere.
-/

namespace MatrixScript

section
variable {α : Type}

/-! ## Frames -/

theorem Frame.find?_insert (f : Frame α) (name key : String) (value : α) :
    (f.insert name value).find? key = if name = key then some value else f.find? key :=
  Bindings.find?_insert name key value f.bindings

theorem Frame.binds_insert (f : Frame α) (name key : String) (value : α) :
    (f.insert name value).binds key = (decide (name = key) || f.binds key) := by
  unfold Frame.binds
  rw [Frame.find?_insert]
  by_cases h : name = key <;> simp [h]

theorem Frame.find?_set (f : Frame α) (name key : String) (value : α) :
    (f.set name value).find? key =
      if name = key then (f.find? key).map fun _ => value else f.find? key :=
  Bindings.find?_set name key value f.bindings

theorem Frame.binds_set (f : Frame α) (name key : String) (value : α) :
    (f.set name value).binds key = f.binds key := by
  unfold Frame.binds
  rw [Frame.find?_set]
  by_cases h : name = key <;> simp [h]

theorem Frame.find?_set_of_binds {f : Frame α} {name : String} (h : f.binds name = true)
    (key : String) (value : α) :
    (f.set name value).find? key = if name = key then some value else f.find? key := by
  rw [Frame.find?_set]
  split
  · rename_i hk
    subst hk
    obtain ⟨old, hold⟩ := Option.isSome_iff_exists.mp h
    rw [hold]
    rfl
  · rfl

theorem Frame.set_self {f : Frame α} {name : String} {value : α} (h : f.find? name = some value) :
    f.set name value = f := by
  unfold Frame.set
  rw [Bindings.set_self h]

theorem Frame.find?_eq_none {f : Frame α} {name : String} (h : f.binds name = false) :
    f.find? name = none := by
  simpa [Frame.binds] using h

theorem Frame.binds_of_find? {f : Frame α} {name : String} {value : α}
    (h : f.find? name = some value) : f.binds name = true := by
  simp [Frame.binds, h]

structure Frame.SameNames (before after : Frame α) : Prop where
  kind : after.kind = before.kind
  binds : ∀ name, after.binds name = before.binds name

theorem Frame.SameNames.refl (f : Frame α) : f.SameNames f := ⟨rfl, fun _ => rfl⟩

theorem Frame.SameNames.trans {f g h : Frame α} (h₁ : f.SameNames g) (h₂ : g.SameNames h) :
    f.SameNames h :=
  ⟨h₂.kind.trans h₁.kind, fun name => (h₂.binds name).trans (h₁.binds name)⟩

theorem Frame.sameNames_refl (frames : List (Frame α)) :
    List.Forall₂ Frame.SameNames frames frames :=
  List.forall₂_same.mpr fun f _ => Frame.SameNames.refl f

theorem Frame.sameNames_trans {fs gs hs : List (Frame α)} (h₁ : List.Forall₂ Frame.SameNames fs gs)
    (h₂ : List.Forall₂ Frame.SameNames gs hs) : List.Forall₂ Frame.SameNames fs hs := by
  induction h₁ generalizing hs with
  | nil => exact h₂
  | cons hf _ ih =>
    cases h₂ with
    | cons hg hgs => exact .cons (hf.trans hg) (ih hgs)

theorem Frame.kinds_of_sameNames {fs gs : List (Frame α)} (h : List.Forall₂ Frame.SameNames fs gs) :
    gs.map Frame.kind = fs.map Frame.kind := by
  induction h with
  | nil => rfl
  | cons hf _ ih => rw [List.map_cons, List.map_cons, hf.kind, ih]

structure Frame.Grows (before after : Frame α) : Prop where
  kind : after.kind = before.kind
  binds : ∀ name, before.binds name = true → after.binds name = true

theorem Frame.Grows.refl (f : Frame α) : f.Grows f := ⟨rfl, fun _ h => h⟩

theorem Frame.Grows.trans {f g h : Frame α} (h₁ : f.Grows g) (h₂ : g.Grows h) : f.Grows h :=
  ⟨h₂.kind.trans h₁.kind, fun name hb => h₂.binds name (h₁.binds name hb)⟩

theorem Frame.SameNames.grows {f g : Frame α} (h : f.SameNames g) : f.Grows g :=
  ⟨h.kind, fun name hb => by rw [h.binds name]; exact hb⟩

theorem Frame.sameNames_set (f : Frame α) (name : String) (value : α) :
    f.SameNames (f.set name value) :=
  ⟨rfl, fun key => Frame.binds_set f name key value⟩

theorem Frame.grows_insert (f : Frame α) (name : String) (value : α) :
    f.Grows (f.insert name value) :=
  ⟨rfl, fun key hb => by rw [Frame.binds_insert, hb, Bool.or_true]⟩

/-! ## Names in a list of frames -/

def seenIn (frames : List (Frame α)) (name : String) : Option α := frames.findSome? (·.find? name)

@[simp] theorem seenIn_nil (name : String) : seenIn ([] : List (Frame α)) name = none := rfl

theorem seenIn_cons (f : Frame α) (frames : List (Frame α)) (name : String) :
    seenIn (f :: frames) name = (f.find? name).or (seenIn frames name) := by
  unfold seenIn
  rw [List.findSome?_cons]
  cases f.find? name <;> rfl

theorem seenIn_of_find? {f : Frame α} {name : String} {value : α} (frames : List (Frame α))
    (h : f.find? name = some value) : seenIn (f :: frames) name = some value := by
  rw [seenIn_cons, h]; rfl

theorem seenIn_of_not_binds {f : Frame α} {name : String} (frames : List (Frame α))
    (h : f.binds name = false) : seenIn (f :: frames) name = seenIn frames name := by
  rw [seenIn_cons, Frame.find?_eq_none h]; rfl

theorem not_binds_of_seenIn_eq_none {f : Frame α} {frames : List (Frame α)} {name : String}
    (h : seenIn (f :: frames) name = none) : f.binds name = false ∧ seenIn frames name = none := by
  rw [seenIn_cons, Option.or_eq_none_iff] at h
  exact ⟨by simp [Frame.binds, h.1], h.2⟩

theorem seenIn_insert (f : Frame α) (frames : List (Frame α)) (name key : String) (value : α) :
    seenIn (f.insert name value :: frames) key =
      if name = key then some value else seenIn (f :: frames) key := by
  rw [seenIn_cons, Frame.find?_insert]
  by_cases h : name = key
  · simp [h]
  · simp [h, seenIn_cons]

theorem seenIn_set {f : Frame α} {name : String} (h : f.binds name = true) (frames : List (Frame α))
    (key : String) (value : α) : seenIn (f.set name value :: frames) key =
      if name = key then some value else seenIn (f :: frames) key := by
  rw [seenIn_cons, Frame.find?_set_of_binds h]
  by_cases hk : name = key
  · simp [hk]
  · simp [hk, seenIn_cons]

namespace Scope

theorem sameNames_replaceFirst (name : String) (value : α) :
    ∀ frames : List (Frame α), List.Forall₂ Frame.SameNames frames (replaceFirst name value frames)
  | [] => .nil
  | f :: frames => by
    unfold replaceFirst
    split
    · exact .cons (f.sameNames_set name value) (Frame.sameNames_refl frames)
    · exact .cons (Frame.SameNames.refl f) (sameNames_replaceFirst name value frames)

theorem seenIn_replaceFirst_ne {name key : String} (h : name ≠ key) (value : α) :
    ∀ frames : List (Frame α), seenIn (replaceFirst name value frames) key = seenIn frames key
  | [] => rfl
  | f :: frames => by
    unfold replaceFirst
    split
    · rename_i hb
      rw [seenIn_set hb, if_neg h]
    · rw [seenIn_cons, seenIn_cons, seenIn_replaceFirst_ne h value frames]

theorem seenIn_replaceFirst_self {name : String} (value : α) :
    ∀ {frames : List (Frame α)}, (seenIn frames name).isSome →
      seenIn (replaceFirst name value frames) name = some value
  | [], h => by simp at h
  | f :: frames, h => by
    unfold replaceFirst
    split
    · rename_i hb
      rw [seenIn_set hb, if_pos rfl]
    · rename_i hb
      have hb : f.binds name = false := by simpa using hb
      rw [seenIn_of_not_binds _ hb] at h ⊢
      exact seenIn_replaceFirst_self value h

theorem replaceFirst_self {name : String} {value : α} :
    ∀ {frames : List (Frame α)}, seenIn frames name = some value →
      replaceFirst name value frames = frames
  | [], _ => rfl
  | f :: frames, h => by
    unfold replaceFirst
    split
    · rename_i hb
      obtain ⟨old, hold⟩ := Option.isSome_iff_exists.mp hb
      rw [seenIn_of_find? frames hold] at h
      rw [Frame.set_self (hold.trans h)]
    · rename_i hb
      have hb : f.binds name = false := by simpa using hb
      rw [seenIn_of_not_binds frames hb] at h
      rw [replaceFirst_self h]

/-! ## Chains -/

def chain (s : Scope α) : List (Frame α) := s.inner :: s.outer

theorem lookup?_eq (s : Scope α) (name : String) : s.lookup? name = seenIn s.chain name := rfl

theorem lookup?_bind (s : Scope α) (name key : String) (value : α) :
    (s.bind name value).lookup? key = if name = key then some value else s.lookup? key :=
  seenIn_insert s.inner s.outer name key value

theorem chain_replace (s : Scope α) (name : String) (value : α) :
    (s.replace name value).chain = replaceFirst name value s.chain := by
  unfold replace chain
  rw [replaceFirst]
  split <;> rfl

theorem chain_inj {s t : Scope α} (h : s.chain = t.chain) : s = t := by
  obtain ⟨inner, outer⟩ := s
  obtain ⟨inner', outer'⟩ := t
  cases h
  rfl

/-- Putting back what a name holds changes nothing. -/
theorem replace_self {s : Scope α} {name : String} {value : α} (h : s.lookup? name = some value) :
    s.replace name value = s :=
  chain_inj ((chain_replace s name value).trans (replaceFirst_self h))

theorem chain_assign_of_seen {s : Scope α} {name : String} (h : (s.lookup? name).isSome) (value : α) :
    (s.assign name value).chain = replaceFirst name value s.chain := by
  unfold assign
  rw [if_pos h, chain_replace]

theorem assign_of_unseen {s : Scope α} {name : String} (h : s.lookup? name = none) (value : α) :
    s.assign name value = s.bind name value := by
  unfold assign
  simp [h]

theorem inLoop_eq (s : Scope α) : s.inLoop = (s.chain.map Frame.kind).any FrameKind.isLoop := by
  simp [inLoop, chain, List.any_map, Function.comp_def]

end Scope

end

end MatrixScript
