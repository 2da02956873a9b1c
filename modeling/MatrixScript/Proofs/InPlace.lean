import MatrixScript.Machine.Eval
import MatrixScript.Proofs.RunLemmas
import MatrixScript.Proofs.ScopeLemmas

/-!
# Changes in place

Changing an element where it stands comes to computing the changed value and storing it
in place of the old one (`onBinding_element`). In particular a change that fails has left
everything as it was: nothing is written before the last test.
-/

namespace MatrixScript

/-! ## Elements -/

namespace Value

/-- What a change of the element at some indices makes of a value. -/
def updateFrom (change : Value → Except Cause Value) (axis : Nat) (v : Value)
    (indices : List Int64) : Except Cause Value :=
  match (InPlace.store change).onElement axis indices v with
  | .ok () w => .ok w
  | .error cause _ => .error cause

def update (v : Value) (indices : List Int64) (change : Value → Except Cause Value) :
    Except Cause Value :=
  updateFrom change 0 v indices

section
variable (change : Value → Except Cause Value) (axis : Nat)

theorem updateFrom_nil (v : Value) : updateFrom change axis v [] = change v := by
  unfold updateFrom
  rw [InPlace.onElement, InPlace.store]
  cases change v <;> rfl

theorem updateFrom_array (items : List Value) (index : Int64) (indices : List Int64) :
    updateFrom change axis (array items) (index :: indices) = do
      let p ← position axis index items.length
      let item ← updateFrom change (axis + 1) (items.get p) indices
      return array (items.set p item) := by
  unfold updateFrom
  rw [InPlace.onElement]
  cases position axis index items.length with
  | error cause => rfl
  | ok p =>
    show (match InPlace.onItem _ items p with | .ok () w => .ok w | .error cause _ => .error cause) =
      (fun item => array (items.set p item)) <$>
        (match (InPlace.store change).onElement (axis + 1) indices items[p] with
          | .ok () w => .ok w
          | .error cause _ => .error cause : Except Cause Value)
    unfold InPlace.onItem
    cases (InPlace.store change).onElement (axis + 1) indices items[p] <;> rfl

theorem updateFrom_scalar {v : Value} (h : v.isArray = false) (index : Int64)
    (indices : List Int64) : updateFrom change axis v (index :: indices) =
      .error (.tooManyIndices (axis + (index :: indices).length) axis) := by
  cases v <;> first | rfl | cases h

end

/-- A failing walk puts back what it took out. -/
theorem onElement_error {c : InPlace Unit} (hc : ∀ v cause w, c v = .error cause w → w = v) :
    ∀ (indices : List Int64) (axis : Nat) (v : Value) (cause : Cause) (w : Value),
      c.onElement axis indices v = .error cause w → w = v
  | [], _, v, cause, w, h => hc v cause w h
  | index :: indices, axis, array items, cause, w, h => by
    rw [InPlace.onElement] at h
    cases hp : position axis index items.length with
    | error e =>
      rw [hp] at h
      cases h
      rfl
    | ok p =>
      rw [hp] at h
      dsimp only [InPlace.onItem] at h
      cases hr : c.onElement (axis + 1) indices items[p] with
      | ok u item =>
        rw [hr] at h
        cases h
      | error e item =>
        rw [hr] at h
        have hitem := onElement_error hc indices (axis + 1) _ e item hr
        cases h
        rw [hitem]
        exact congrArg array (List.set_getElem_self p.2)
  | _ :: _, _, int _, _, _, h | _ :: _, _, real _, _, _, h | _ :: _, _, bool _, _, _, h
  | _ :: _, _, str _, _, _, h | _ :: _, _, range _ _, _, _, h => by cases h; rfl

theorem store_error {change : Value → Except Cause Value} (v : Value) (cause : Cause) (w : Value)
    (h : InPlace.store change v = .error cause w) : w = v := by
  unfold InPlace.store at h
  cases hv : change v with
  | ok stored =>
    rw [hv] at h
    cases h
  | error e =>
    rw [hv] at h
    cases h
    rfl

theorem onElement_store (change : Value → Except Cause Value) (indices : List Int64) (v : Value) :
    (InPlace.store change).onElement 0 indices v =
      match v.update indices change with
      | .ok w => .ok () w
      | .error cause => .error cause v := by
  unfold update updateFrom
  cases hr : (InPlace.store change).onElement 0 indices v with
  | ok u w => rfl
  | error cause w => rw [onElement_error store_error indices 0 v cause w hr]

end Value

/-! ## Bindings -/

namespace Eval

def replace (name : String) (value : Value) : Eval Unit :=
  modify fun m => { m with memory := m.memory.replace name value }

theorem lookup_run (name : String) (line : Nat) (m : Machine) : lookup name line m =
    match m.memory.lookup? name with
    | some value => .ok value m
    | none => .error (.atLine line (.unknownVariable name)) m := by
  show (match m.memory.lookup? name with
    | some value => pure value
    | none => throw (.atLine line (.unknownVariable name)) : Eval Value) m = _
  cases m.memory.lookup? name <;> rfl

theorem lookup_bind {α : Type} (name : String) (line : Nat) (next : Value → Eval α) (m : Machine) :
    (lookup name line >>= next) m =
      match m.memory.lookup? name with
      | some value => next value m
      | none => .error (.atLine line (.unknownVariable name)) m := by
  show EStateM.bind (lookup name line) next m = _
  unfold EStateM.bind
  rw [lookup_run]
  cases m.memory.lookup? name <;> rfl

theorem onBinding_element (name : String) (line : Nat) (positions : List Int64)
    (change : Value → Except Cause Value) :
    onBinding name line ((Value.InPlace.store change).onElement 0 positions) = (do
      let current ← lookup name line
      let stored ← atLine line (current.update positions change)
      replace name stored) := by
  funext m
  rw [lookup_bind]
  unfold onBinding
  cases hm : m.memory.lookup? name with
  | none => rfl
  | some current =>
    dsimp only
    rw [Value.onElement_store]
    cases current.update positions change with
    | ok stored => rfl
    | error cause =>
      dsimp only
      rw [Scope.replace_self hm]
      rfl

end Eval

/-! ## Targets -/

theorem Target.store_name {op : AssignOp} (hop : op ≠ .set) (name : String) (l : Nat) (new : Value)
    (line : Nat) : (Target.name name l).store op new line = (do
      let current ← Eval.lookup name line
      let stored ← Eval.atLine line (op.combine current new)
      Eval.assign name stored) := by
  cases op <;> first | rfl | exact absurd rfl hop

theorem Target.store_element (array : String) (indices : Row) (l : Nat) (op : AssignOp) (new : Value)
    (line : Nat) : (Target.element array indices l).store op new line = (do
      let positions ← evalIndices line indices.elements
      let current ← Eval.lookup array line
      let stored ← Eval.atLine line (current.update positions (op.combine · new))
      Eval.replace array stored) := by
  simp only [Target.store, Eval.onBinding_element]

end MatrixScript
