/-!
# Scopes

A scope is a chain of frames, each binding names. A name means its innermost
binding. The chain has at least one frame: the outermost is never closed.
-/

namespace MatrixScript

/-! ## Bindings -/

/-- Names with what they are bound to, in ascending order of names. -/
abbrev Bindings (α : Type) := List (String × α)

namespace Bindings

variable {α : Type}

def find? (name : String) : Bindings α → Option α
  | [] => none
  | (key, value) :: rest => if key = name then some value else find? name rest

/-- Binds a name, in place of what it was bound to before. -/
def insert (name : String) (value : α) : Bindings α → Bindings α
  | [] => [(name, value)]
  | (key, old) :: rest =>
    if key = name then (name, value) :: rest
    else if name < key then (name, value) :: (key, old) :: rest
    else (key, old) :: insert name value rest

/-- Binds a name to something else where it is bound. -/
def set (name : String) (value : α) : Bindings α → Bindings α
  | [] => []
  | (key, old) :: rest =>
    if key = name then (key, value) :: rest else (key, old) :: set name value rest

theorem find?_set (name key : String) (value : α) (b : Bindings α) :
    (b.set name value).find? key =
      if name = key then (b.find? key).map fun _ => value else b.find? key := by
  induction b with
  | nil => simp [set, find?]
  | cons entry rest ih =>
    obtain ⟨k, old⟩ := entry
    unfold set
    by_cases hk : k = name
    · subst hk
      by_cases h : k = key <;> simp [find?, h]
    · rw [if_neg hk]
      by_cases h : k = key
      · have : name ≠ key := fun e => hk (h.trans e.symm)
        simp [find?, h, this]
      · simp [find?, h, ih]

theorem set_self {name : String} {value : α} : ∀ {b : Bindings α}, b.find? name = some value →
    b.set name value = b
  | [], _ => rfl
  | (key, old) :: rest, h => by
    unfold set
    by_cases hk : key = name
    · have hold : old = value := by simpa [find?, hk] using h
      rw [if_pos hk, hold]
    · rw [if_neg hk, set_self (by simpa [find?, hk] using h)]

theorem find?_insert (name key : String) (value : α) (b : Bindings α) :
    (b.insert name value).find? key = if name = key then some value else b.find? key := by
  induction b with
  | nil => simp [insert, find?]
  | cons entry rest ih =>
    obtain ⟨k, old⟩ := entry
    unfold insert
    split
    · rename_i h
      subst h
      by_cases hk : k = key <;> simp [find?, hk]
    · rename_i h
      split
      · by_cases hk : name = key <;> simp [find?, hk]
      · by_cases hk : k = key
        · have : name ≠ key := fun e => h (hk.trans e.symm)
          simp [find?, hk, this]
        · simp [find?, hk, ih]

end Bindings

/-! ## Frames -/

inductive FrameKind where
  | global
  | branch
  | whileLoop
  | forLoop
deriving DecidableEq, Repr

namespace FrameKind

def isLoop : FrameKind → Bool
  | whileLoop => true
  | forLoop => true
  | _ => false

def text : FrameKind → String
  | global => "global"
  | branch => "if"
  | whileLoop => "while"
  | forLoop => "for"

end FrameKind

structure Frame (α : Type) where
  kind : FrameKind
  bindings : Bindings α

namespace Frame

variable {α : Type}

def find? (f : Frame α) (name : String) : Option α := f.bindings.find? name

def binds (f : Frame α) (name : String) : Bool := (f.find? name).isSome

def insert (f : Frame α) (name : String) (value : α) : Frame α :=
  { f with bindings := f.bindings.insert name value }

def set (f : Frame α) (name : String) (value : α) : Frame α :=
  { f with bindings := f.bindings.set name value }

/-- The texts that show a frame when they are joined: the kind, and the bindings in braces. -/
def pieces (render : α → List String) (f : Frame α) : List String :=
  let entries := f.bindings.map fun (name, value) => name :: ": " :: render value
  [f.kind.text, " \x7b"] ++ [", "].intercalate entries ++ ["\x7d"]

end Frame

/-! ## Chains -/

/-- The innermost frame and the frames around it, the nearest first. -/
structure Scope (α : Type) where
  inner : Frame α
  outer : List (Frame α)

namespace Scope

variable {α : Type}

def fresh : Scope α := ⟨⟨.global, []⟩, []⟩

def push (s : Scope α) (kind : FrameKind) : Scope α := ⟨⟨kind, []⟩, s.inner :: s.outer⟩

/-- Closes the innermost frame, unless it is the only one. -/
def pop (s : Scope α) : Scope α :=
  match s.outer with
  | [] => s
  | next :: rest => ⟨next, rest⟩

@[simp] theorem pop_push (s : Scope α) (kind : FrameKind) : (s.push kind).pop = s := rfl

/-- The frame that `pop` closes. -/
def closing? (s : Scope α) : Option (Frame α) :=
  match s.outer with
  | [] => none
  | _ :: _ => some s.inner

def depth (s : Scope α) : Nat := s.outer.length + 1

def frames (s : Scope α) : List (Frame α) := (s.inner :: s.outer).reverse

/-- Whether a loop is open around here. -/
def inLoop (s : Scope α) : Bool := (s.inner :: s.outer).any (·.kind.isLoop)

/-- The innermost binding of a name. -/
def lookup? (s : Scope α) (name : String) : Option α :=
  (s.inner :: s.outer).findSome? (·.find? name)

def bind (s : Scope α) (name : String) (value : α) : Scope α :=
  { s with inner := s.inner.insert name value }

def define? (s : Scope α) (name : String) (value : α) : Option (Scope α) :=
  if s.inner.binds name then none else some (s.bind name value)

/-- Replaces the binding of a name in the first frame that has one. -/
def replaceFirst (name : String) (value : α) : List (Frame α) → List (Frame α)
  | [] => []
  | f :: rest =>
    if f.binds name then f.set name value :: rest else f :: replaceFirst name value rest

def replace (s : Scope α) (name : String) (value : α) : Scope α :=
  if s.inner.binds name then { s with inner := s.inner.set name value }
  else { s with outer := replaceFirst name value s.outer }

/-- Replaces the innermost binding of a name; without one, binds the name in
the innermost frame. -/
def assign (s : Scope α) (name : String) (value : α) : Scope α :=
  if (s.lookup? name).isSome then s.replace name value else s.bind name value

end Scope

end MatrixScript
