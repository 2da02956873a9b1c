/-!
# Endings of computations

`Ends r ok err` says how a computation with errors and a state came out: well,
with a result and a state in `ok`, or badly, with an error and a state in `err`.
It goes through a sequence from the front to the back (`ends_bind`). `Yields` is
the same for computations without a state.
-/

namespace MatrixScript

section
variable {ε σ α β : Type}

def Ends (r : EStateM.Result ε σ α) (ok : α → σ → Prop) (err : ε → σ → Prop) : Prop :=
  match r with
  | .ok a s => ok a s
  | .error e s => err e s

variable {ok : α → σ → Prop} {err : ε → σ → Prop}

@[simp] theorem ends_ok (a : α) (s : σ) : Ends (.ok a s) ok err ↔ ok a s := Iff.rfl

@[simp] theorem ends_error (e : ε) (s : σ) : Ends (.error e s) ok err ↔ err e s := Iff.rfl

theorem ends_bind (x : EStateM ε σ α) (f : α → EStateM ε σ β) (s : σ) {ok : β → σ → Prop} :
    Ends ((x >>= f) s) ok err ↔ Ends (x s) (fun a s' => Ends (f a s') ok err) err := by
  show Ends (EStateM.bind x f s) ok err ↔ _
  unfold EStateM.bind
  cases x s <;> exact Iff.rfl

theorem Ends.mono {r : EStateM.Result ε σ α} {ok' : α → σ → Prop} {err' : ε → σ → Prop}
    (h : Ends r ok err) (hok : ∀ a s, ok a s → ok' a s) (herr : ∀ e s, err e s → err' e s) :
    Ends r ok' err' := by
  cases r with
  | ok a s => exact hok a s h
  | error e s => exact herr e s h

theorem Ends.and {r : EStateM.Result ε σ α} {ok' : α → σ → Prop} {err' : ε → σ → Prop}
    (h : Ends r ok err) (h' : Ends r ok' err') :
    Ends r (fun a s => ok a s ∧ ok' a s) (fun e s => err e s ∧ err' e s) := by
  cases r with
  | ok a s => exact ⟨h, h'⟩
  | error e s => exact ⟨h, h'⟩

end

section
variable {ε α β : Type}

def Yields (x : Except ε α) (ok : α → Prop) (err : ε → Prop) : Prop :=
  match x with
  | .ok a => ok a
  | .error e => err e

variable {ok : α → Prop} {err : ε → Prop}

theorem yields_bind (x : Except ε α) (f : α → Except ε β) {ok : β → Prop} :
    Yields (x >>= f) ok err ↔ Yields x (fun a => Yields (f a) ok err) err := by
  cases x <;> exact Iff.rfl

theorem Yields.mono {x : Except ε α} {ok' : α → Prop} {err' : ε → Prop} (h : Yields x ok err)
    (hok : ∀ a, ok a → ok' a) (herr : ∀ e, err e → err' e) : Yields x ok' err' := by
  cases x with
  | ok a => exact hok a h
  | error e => exact herr e h

theorem Yields.imp {x : Except ε α} {ok' : α → Prop} (h : Yields x ok err)
    (hok : ∀ a, ok a → ok' a) : Yields x ok' err := h.mono hok fun _ he => he

theorem Yields.and {x : Except ε α} {ok' : α → Prop} (h : Yields x ok err) (h' : Yields x ok' err) :
    Yields x (fun a => ok a ∧ ok' a) err := by
  cases x with
  | ok a => exact ⟨h, h'⟩
  | error e => exact h

theorem Yields.bind {x : Except ε α} {f : α → Except ε β} {ok' : β → Prop} (h : Yields x ok err)
    (hf : ∀ a, ok a → Yields (f a) ok' err) : Yields (x >>= f) ok' err :=
  (yields_bind x f).mpr (h.imp hf)

theorem Yields.exists_ok {x : Except ε α} (h : Yields x ok fun _ => False) : ∃ a, x = .ok a ∧ ok a := by
  cases x with
  | ok a => exact ⟨a, rfl, h⟩
  | error e => exact h.elim

theorem yields_mapM_at {f : α → Except ε β} : ∀ {l : List α} {ok : Nat → β → Prop},
    (∀ (i : Nat) (h : i < l.length), Yields (f l[i]) (ok i) err) →
      Yields (l.mapM f) (fun bs => bs.length = l.length ∧
        ∀ (i : Nat) (h : i < bs.length), ok i bs[i]) err
  | [], _, _ => ⟨rfl, fun i hi => absurd hi (Nat.not_lt_zero i)⟩
  | a :: l, ok, h => by
    rw [List.mapM_cons]
    refine (h 0 (Nat.zero_lt_succ _)).bind fun b hb => ?_
    have rest : Yields (l.mapM f) (fun bs => bs.length = l.length ∧
        ∀ (i : Nat) (h : i < bs.length), ok (i + 1) bs[i]) err :=
      yields_mapM_at fun i hi => h (i + 1) (Nat.succ_lt_succ hi)
    refine rest.bind fun bs hbs => ?_
    refine ⟨by rw [List.length_cons, List.length_cons, hbs.1], fun i hi => ?_⟩
    cases i with
    | zero => exact hb
    | succ i => exact hbs.2 i (Nat.lt_of_succ_lt_succ hi)

/-- A traversal yields what its function yields at every position, or the error of the first position
where it fails. -/
theorem yields_mapM_first {f : α → Except ε β} : ∀ l : List α,
    Yields (l.mapM f)
      (fun bs => bs.length = l.length ∧ ∀ (i : Nat) (h : i < l.length) (h' : i < bs.length),
        f l[i] = .ok bs[i])
      fun e => ∃ (i : Nat) (h : i < l.length), f l[i] = .error e ∧
        ∀ (j : Nat) (hj : j < i), ∃ b, f l[j] = .ok b
  | [] => ⟨rfl, fun i hi => absurd hi (Nat.not_lt_zero i)⟩
  | a :: l => by
    rw [List.mapM_cons]
    cases ha : f a with
    | error e => exact ⟨0, Nat.zero_lt_succ _, ha, fun j hj => absurd hj (Nat.not_lt_zero j)⟩
    | ok b =>
      refine (yields_bind (l.mapM f) _).mpr ((yields_mapM_first l).mono ?_ ?_)
      · rintro bs ⟨hlen, hbs⟩
        refine ⟨by rw [List.length_cons, List.length_cons, hlen], fun i hi hi' => ?_⟩
        cases i with
        | zero => exact ha
        | succ i => exact hbs i (Nat.lt_of_succ_lt_succ hi) (Nat.lt_of_succ_lt_succ hi')
      · rintro e ⟨i, hi, hfails, hbefore⟩
        refine ⟨i + 1, Nat.succ_lt_succ hi, hfails, fun j hj => ?_⟩
        cases j with
        | zero => exact ⟨b, ha⟩
        | succ j => exact hbefore j (Nat.lt_of_succ_lt_succ hj)

theorem yields_mapM {f : α → Except ε β} {ok : β → Prop} {l : List α}
    (h : ∀ a ∈ l, Yields (f a) ok err) :
    Yields (l.mapM f) (fun bs => bs.length = l.length ∧ ∀ b ∈ bs, ok b) err := by
  have each : Yields (l.mapM f) (fun bs => bs.length = l.length ∧
      ∀ (i : Nat) (h : i < bs.length), ok bs[i]) err :=
    yields_mapM_at fun i hi => h l[i] (List.getElem_mem hi)
  exact each.imp fun bs hbs => ⟨hbs.1, List.forall_mem_iff_forall_getElem.mpr hbs.2⟩

end

end MatrixScript
