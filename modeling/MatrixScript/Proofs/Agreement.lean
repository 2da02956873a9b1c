import MatrixScript.Machine.Exec
import MatrixScript.Proofs.Growth

/-!
# Agreement of tables and memories

A table stands for the memory of a running program when both have the same
frames open and every name of the table has a value that its type allows. What
a type allows is a parameter `R`.

The two do not bind names in the same frames. A loop keeps one frame for all its
turns, while its body was checked once: in a later turn a name of an earlier one
is still there, and an assignment lands on it, although the table had the name
further inside. Such a name is none of the table's (`shadow`), so it is assigned
before it is read again.
-/

namespace MatrixScript

variable {R : ArrayType → Value → Prop}

structure FrameAgrees (R : ArrayType → Value → Prop) (t : Frame ArrayType)
    (ts : List (Frame ArrayType)) (m : Frame Value) (ms : List (Frame Value)) : Prop where
  kind : m.kind = t.kind
  /-- A name that the table has further out is bound here by both or by none. -/
  shadow : ∀ name, (seenIn ts name).isSome → m.binds name = t.binds name
  typed : ∀ name type, seenIn (t :: ts) name = some type →
    ∃ value, seenIn (m :: ms) name = some value ∧ R type value
  /-- Outside of loops no name is left over. -/
  owned : t.kind.isLoop = false → ∀ name, m.binds name = true → t.binds name = true
  stored : ∀ name value, m.find? name = some value → ∃ type, R type value

inductive FramesAgree (R : ArrayType → Value → Prop) :
    List (Frame ArrayType) → List (Frame Value) → Prop
  | nil : FramesAgree R [] []
  | cons {t ts m ms} : FrameAgrees R t ts m ms → FramesAgree R ts ms →
      FramesAgree R (t :: ts) (m :: ms)

def Agrees (R : ArrayType → Value → Prop) (table : Table) (memory : Memory) : Prop :=
  FramesAgree R table.chain memory.chain

/-! ## What agreement gives -/

theorem FramesAgree.kinds {ts : List (Frame ArrayType)} {ms : List (Frame Value)}
    (h : FramesAgree R ts ms) : ms.map Frame.kind = ts.map Frame.kind := by
  induction h with
  | nil => rfl
  | cons hf _ ih => rw [List.map_cons, List.map_cons, hf.kind, ih]

theorem FramesAgree.stored {ts : List (Frame ArrayType)} {ms : List (Frame Value)}
    (h : FramesAgree R ts ms) {m : Frame Value} (hm : m ∈ ms) {name : String} {value : Value}
    (hv : m.find? name = some value) : ∃ type, R type value := by
  induction h with
  | nil => cases hm
  | cons hf _ ih =>
    rcases List.mem_cons.mp hm with rfl | hm
    · exact hf.stored name value hv
    · exact ih hm

namespace Agrees

variable {table : Table} {memory : Memory}

theorem inLoop_eq (h : Agrees R table memory) : memory.inLoop = table.inLoop := by
  rw [Scope.inLoop_eq, Scope.inLoop_eq, FramesAgree.kinds h]

theorem typed (h : Agrees R table memory) {name : String} {type : ArrayType}
    (hn : table.lookup? name = some type) :
    ∃ value, memory.lookup? name = some value ∧ R type value := by
  cases h with
  | cons hf _ => exact hf.typed name type hn

theorem head (h : Agrees R table memory) :
    FrameAgrees R table.inner table.outer memory.inner memory.outer := by
  cases h with
  | cons hf _ => exact hf

theorem tail (h : Agrees R table memory) : FramesAgree R table.outer memory.outer := by
  cases h with
  | cons _ hs => exact hs

theorem outer_eq_nil (h : Agrees R table memory) (ho : table.outer = []) : memory.outer = [] := by
  have hs := h.tail
  rw [ho] at hs
  cases hm : memory.outer with
  | nil => rfl
  | cons m ms => rw [hm] at hs; cases hs

theorem fresh : Agrees R Scope.fresh Scope.fresh := by
  refine .cons ⟨rfl, fun _ _ => rfl, ?_, fun _ _ h => h, ?_⟩ .nil
  · intro name type h; cases h
  · intro name value h; cases h

/-! ## Frames opened and closed -/

theorem push (h : Agrees R table memory) (kind : FrameKind) :
    Agrees R (table.push kind) (memory.push kind) := by
  refine .cons ⟨rfl, fun _ _ => rfl, fun _ _ hn => h.typed hn, fun _ _ hn => hn, ?_⟩ h
  intro name value hv; cases hv

theorem pop {inside : Table} {memory : Memory} (h : Agrees R inside memory)
    (ho : inside.outer = table.chain) : Agrees R table memory.pop := by
  obtain ⟨inner, outer⟩ := memory
  have hs : FramesAgree R table.chain outer := ho ▸ h.tail
  cases outer with
  | nil => cases hs
  | cons m ms => exact hs

end Agrees

/-! ## Names bound and assigned -/

section
variable {t : Frame ArrayType} {ts : List (Frame ArrayType)} {m : Frame Value}
  {ms : List (Frame Value)} {name : String} {type : ArrayType} {value : Value}

theorem FrameAgrees.insert (hf : FrameAgrees R t ts m ms) (hv : R type value) :
    FrameAgrees R (t.insert name type) ts (m.insert name value) ms := by
  refine ⟨hf.kind, fun key hk => ?_, fun key found hk => ?_, fun hl key hk => ?_,
    fun key found hk => ?_⟩
  · rw [Frame.binds_insert, Frame.binds_insert, hf.shadow key hk]
  · rw [seenIn_insert] at hk ⊢
    by_cases hn : name = key
    · rw [if_pos hn] at hk ⊢
      cases hk
      exact ⟨value, rfl, hv⟩
    · rw [if_neg hn] at hk ⊢
      exact hf.typed key found hk
  · rw [Frame.binds_insert, Bool.or_eq_true] at hk ⊢
    exact hk.imp id fun hb => hf.owned hl key hb
  · rw [Frame.find?_insert] at hk
    split at hk
    · cases hk; exact ⟨type, hv⟩
    · exact hf.stored key found hk

/-- The table takes in a name that the memory has already. -/
theorem FrameAgrees.insertLeft (hf : FrameAgrees R t ts m ms) (hout : seenIn ts name = none)
    (hself : seenIn (m :: ms) name = some value) (hv : R type value) :
    FrameAgrees R (t.insert name type) ts m ms := by
  refine ⟨hf.kind, fun key hk => ?_, fun key found hk => ?_, fun hl key hk => ?_, hf.stored⟩
  · have hne : name ≠ key := by
      rintro rfl
      rw [hout] at hk; cases hk
    rw [Frame.binds_insert, hf.shadow key hk]
    simp [hne]
  · rw [seenIn_insert] at hk
    by_cases hne : name = key
    · subst hne
      rw [if_pos rfl] at hk
      cases hk
      exact ⟨value, hself, hv⟩
    · rw [if_neg hne] at hk
      exact hf.typed key found hk
  · rw [Frame.binds_insert, hf.owned hl key hk, Bool.or_true]

/-- At the start of a turn the names of the turn before are none of the table's. -/
theorem FrameAgrees.restart {t' : Frame ArrayType} (hf : FrameAgrees R t' ts m ms)
    (hl : t.kind.isLoop = true) (hk : t'.kind = t.kind)
    (hkeep : ∀ key found, t.find? key = some found → t'.find? key = some found)
    (hnew : ∀ key, t'.binds key = true → t.binds key = true ∨ seenIn ts key = none) :
    FrameAgrees R t ts m ms := by
  refine ⟨hf.kind.trans hk, fun key hs => ?_, fun key found hs => ?_, fun hn => ?_, hf.stored⟩
  · rw [hf.shadow key hs]
    refine Bool.eq_iff_iff.mpr ⟨fun hb => ?_, fun hb => ?_⟩
    · rcases hnew key hb with hb | hb
      · exact hb
      · rw [hb] at hs; cases hs
    · obtain ⟨found, hfound⟩ := Option.isSome_iff_exists.mp hb
      exact Frame.binds_of_find? (hkeep key found hfound)
  · refine hf.typed key found ?_
    rw [seenIn_cons] at hs ⊢
    cases hi : t.find? key with
    | some first =>
      rw [hi] at hs
      rw [hkeep key first hi]
      exact hs
    | none =>
      rw [hi] at hs
      have hnb : t'.binds key = false := by
        refine Bool.eq_false_iff.mpr fun hb => ?_
        rcases hnew key hb with hb | hb
        · simp [Frame.binds, hi] at hb
        · simp [hb] at hs
      rw [Frame.find?_eq_none hnb]
      exact hs
  · rw [hl] at hn; cases hn

end

/-- A value is put in place of the innermost binding of a name, wherever that is. -/
theorem FramesAgree.replaceFirst {name : String} {value : Value} (hs : ∃ type, R type value)
    {ts : List (Frame ArrayType)} {ms : List (Frame Value)} (h : FramesAgree R ts ms)
    (hv : ∀ type, seenIn ts name = some type → R type value) :
    FramesAgree R ts (Scope.replaceFirst name value ms) := by
  induction h with
  | nil => exact .nil
  | @cons t ts m ms hf h ih =>
    -- in either case the name means the new value where the table has it
    have typed : ∀ key type, seenIn (t :: ts) key = some type → ∃ found,
        seenIn (Scope.replaceFirst name value (m :: ms)) key = some found ∧ R type found := by
      intro key type hk
      obtain ⟨old, hold, hr⟩ := hf.typed key type hk
      by_cases hn : name = key
      · subst hn
        exact ⟨value, Scope.seenIn_replaceFirst_self value (by rw [hold]; rfl), hv type hk⟩
      · exact ⟨old, by rw [Scope.seenIn_replaceFirst_ne hn, hold], hr⟩
    unfold Scope.replaceFirst at typed ⊢
    split
    · rename_i hb
      rw [if_pos hb] at typed
      refine .cons ⟨hf.kind, fun key hk => ?_, typed, fun hl key hk => ?_, fun key found hk => ?_⟩ h
      · rw [Frame.binds_set, hf.shadow key hk]
      · rw [Frame.binds_set] at hk
        exact hf.owned hl key hk
      · rw [Frame.find?_set_of_binds hb] at hk
        split at hk
        · cases hk; exact hs
        · exact hf.stored key found hk
    · rename_i hb
      rw [if_neg hb] at typed
      refine .cons ⟨hf.kind, hf.shadow, typed, hf.owned, hf.stored⟩ (ih ?_)
      intro type hk
      refine hv type ?_
      -- the table has the name further out, so its inner frame binds it no more than the memory's
      have ht : t.binds name = false := by
        rw [← hf.shadow name (by rw [hk]; rfl)]; simpa using hb
      rw [seenIn_of_not_binds _ ht, hk]

namespace Agrees

variable {table : Table} {memory : Memory} {name : String} {type : ArrayType} {value : Value}

theorem bind (h : Agrees R table memory) (hv : R type value) (name : String) :
    Agrees R (table.bind name type) (memory.bind name value) := .cons (h.head.insert hv) h.tail

theorem replace (h : Agrees R table memory) (hn : table.lookup? name = some type)
    (hv : R type value) : Agrees R table (memory.replace name value) := by
  unfold Agrees
  rw [Scope.chain_replace]
  refine FramesAgree.replaceFirst ⟨type, hv⟩ h fun found hk => ?_
  rw [← Scope.lookup?_eq, hn] at hk
  cases hk
  exact hv

theorem assign (h : Agrees R table memory) (hn : table.lookup? name = some type)
    (hv : R type value) : Agrees R table (memory.assign name value) := by
  obtain ⟨old, hold, -⟩ := h.typed hn
  have := h.replace hn hv
  unfold Scope.assign
  rw [if_pos (by rw [hold]; rfl)]
  exact this

/-- A name new to the table is assigned: the memory may have it left over. -/
theorem define (h : Agrees R table memory) (hn : table.lookup? name = none) (hv : R type value) :
    Agrees R (table.bind name type) (memory.assign name value) := by
  cases hm : memory.lookup? name with
  | none =>
    rw [Scope.assign_of_unseen hm]
    exact h.bind hv name
  | some old =>
    have hseen : (memory.lookup? name).isSome := by rw [hm]; rfl
    have hrep : Agrees R table (memory.assign name value) := by
      unfold Agrees
      rw [Scope.chain_assign_of_seen hseen]
      refine FramesAgree.replaceFirst ⟨type, hv⟩ h fun found hk => ?_
      rw [← Scope.lookup?_eq, hn] at hk
      cases hk
    have hself : seenIn (memory.assign name value).chain name = some value := by
      rw [Scope.chain_assign_of_seen hseen]
      exact Scope.seenIn_replaceFirst_self value hseen
    obtain ⟨-, hout⟩ := not_binds_of_seenIn_eq_none (Scope.lookup?_eq table name ▸ hn)
    exact .cons (hrep.head.insertLeft hout hself hv) hrep.tail

theorem restart {later : Table} (h : Agrees R later memory) (he : table.Extends later)
    (hl : table.inner.kind.isLoop = true) : Agrees R table memory := by
  have hf := h.head
  have hs := h.tail
  rw [he.outer] at hf hs
  exact .cons (hf.restart hl he.kind he.keeps he.fresh) hs

end Agrees

end MatrixScript
