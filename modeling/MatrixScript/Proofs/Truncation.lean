import MatrixScript.Run
import MatrixScript.Proofs.Stepwise

/-!
# Truncation

A sink with a limit changes nothing of a run but where it may be cut off. Up to
the first byte past the limit the run is the one on a sink without a limit;
there it fails, with all bytes up to the limit stored (`run_truncated`). It may fail at
any of the pieces that a value or a frame is written in.
-/

namespace MatrixScript

/-! ## Two runs of a computation -/

section
variable {ε σ α β : Type}

/-- Two states may be the `same` but for what the computation cannot see. Or the
second run has been stopped by the error `full`, and what it left behind is to
what the first run comes to as `lost` says. -/
structure Cut (ε σ : Type) where
  same : σ → σ → Prop
  lost : σ → σ → Prop
  full : ε

namespace Cut

variable {C : Cut ε σ}

inductive Compares (C : Cut ε σ) : EStateM.Result ε σ α → EStateM.Result ε σ α → Prop
  | ok {a : α} {s s' : σ} : C.same s s' → Compares C (.ok a s) (.ok a s')
  | error {e : ε} {s s' : σ} : C.same s s' → Compares C (.error e s) (.error e s')
  | cut {r : EStateM.Result ε σ α} {s' : σ} :
      Ends r (fun _ s => C.lost s s') (fun _ s => C.lost s s') → Compares C r (.error C.full s')

/-- Started on states that are the same, the computation takes the same course
until the second run is cut; what it does after that loses nothing of `lost`. -/
structure Truncates (C : Cut ε σ) (x : EStateM ε σ α) : Prop where
  same : ∀ {s s' : σ}, C.same s s' → C.Compares (x s) (x s')
  lost : ∀ {s s' : σ}, C.lost s s' →
    Ends (x s) (fun _ t => C.lost t s') (fun _ t => C.lost t s')

theorem truncates_pure (a : α) : C.Truncates (pure a) := ⟨.ok, fun h => h⟩

theorem truncates_throw (e : ε) : C.Truncates (throw e : EStateM ε σ α) := ⟨.error, fun h => h⟩

theorem Truncates.bind {x : EStateM ε σ α} {f : α → EStateM ε σ β} (hx : C.Truncates x)
    (hf : ∀ a, C.Truncates (f a)) : C.Truncates (x >>= f) := by
  constructor
  · intro s s' hs
    have h := hx.same hs
    show C.Compares (EStateM.bind x f s) (EStateM.bind x f s')
    unfold EStateM.bind
    generalize x s = r at h ⊢
    generalize x s' = r' at h ⊢
    cases h with
    | ok ht => exact (hf _).same ht
    | error ht => exact .error ht
    | cut hl =>
      cases r with
      | ok a t => exact .cut ((hf a).lost hl)
      | error e t => exact .cut hl
  · intro s s' hs
    rw [ends_bind]
    exact (hx.lost hs).mono (fun a t ht => (hf a).lost ht) fun _ _ h => h

end Cut

end

/-! ## Sinks -/

namespace Sink

structure Endless (s : Sink) : Prop where
  limit : s.limit? = none
  flushes : s.flushFails = false

def cut (limit : Nat) : Cut Fault Sink where
  same s s' := s.Endless ∧ s' = { s with limit? := some limit } ∧ s.stored.size ≤ limit
  lost s s' := s.Endless ∧ s'.stored = s.stored.extract 0 limit ∧ limit < s.stored.size
  full := .output .full

variable {limit : Nat} {s : Sink}

theorem write_endless (h : s.Endless) (text : String) :
    write text s = .ok () { s with stored := s.stored ++ text.toUTF8 } := by
  unfold write room
  rw [h.limit]
  exact if_pos rfl

theorem Endless.write (h : s.Endless) (bytes : ByteArray) :
    Endless { s with stored := s.stored ++ bytes } := ⟨h.limit, h.flushes⟩

theorem write_truncates (text : String) : (cut limit).Truncates (write text) := by
  constructor
  · rintro s s' ⟨hs, rfl, hsize⟩
    rw [write_endless hs]
    unfold write room
    dsimp only
    split
    · rename_i hroom
      exact .ok ⟨hs.write _, rfl, by rw [ByteArray.size_append]; omega⟩
    · rename_i hroom
      refine .cut ⟨hs.write _, ?_, by rw [ByteArray.size_append]; omega⟩
      have hmin : min text.toUTF8.size (limit - s.stored.size) = limit - s.stored.size := by omega
      have hall : s.stored.extract 0 limit = s.stored := by
        rw [← Nat.max_eq_left hsize, ByteArray.extract_zero_max_size]
      dsimp only
      rw [hmin, ByteArray.extract_append, hall, Nat.zero_sub]
  · rintro s s' ⟨hs, hstored, hsize⟩
    rw [write_endless hs]
    refine ⟨hs.write _, ?_, by rw [ByteArray.size_append]; omega⟩
    have hnone : limit - s.stored.size = 0 := by omega
    dsimp only
    rw [ByteArray.extract_append, hnone, hstored, Nat.zero_sub, ByteArray.extract_same,
      ByteArray.append_empty]

theorem flush_of_flushes (h : s.flushFails = false) : flush s = .ok () s := by
  unfold flush
  rw [h]
  exact if_neg Bool.false_ne_true

theorem flush_truncates : (cut limit).Truncates flush := by
  constructor
  · rintro s s' ⟨hs, rfl, hsize⟩
    have hs' : Sink.flushFails { s with limit? := some limit } = false := hs.flushes
    rw [flush_of_flushes hs.flushes, flush_of_flushes hs']
    exact .ok ⟨hs, rfl, hsize⟩
  · rintro s s' ⟨hs, hl⟩
    rw [flush_of_flushes hs.flushes]
    exact ⟨hs, hl⟩

end Sink

/-! ## Executions -/

namespace Exec

variable {α : Type} {limit : Nat}

def cut (limit : Nat) : Cut Stop Machine where
  same m m' :=
    m'.memory = m.memory ∧ m'.allocator = m.allocator ∧ (Sink.cut limit).same m.sink m'.sink
  lost m m' := (Sink.cut limit).lost m.sink m'.sink
  full := .fault (.output .full)

theorem onSink_truncates {c : EStateM Fault Sink Unit} (h : (Sink.cut limit).Truncates c) :
    (cut limit).Truncates (eval (Eval.onSink c)) := by
  constructor
  · intro m m' hm
    obtain ⟨hmemory, hallocator, hs⟩ := hm
    have hc := h.same hs
    unfold eval Eval.onSink
    generalize c m.sink = r at hc ⊢
    generalize c m'.sink = r' at hc ⊢
    cases hc with
    | ok ht => exact .ok ⟨hmemory, hallocator, ht⟩
    | error ht => exact .error ⟨hmemory, hallocator, ht⟩
    | cut hl => cases r <;> exact .cut hl
  · intro m m' hs
    rw [ends_eval, Eval.ends_onSink]
    exact h.lost hs

def IgnoresSink (c : Exec α) : Prop := ∀ (memory : Memory) (allocator : Allocator),
  (∃ a after, ∀ sink, c ⟨memory, sink, allocator⟩ = .ok a ⟨after, sink, allocator⟩) ∨
    ∃ stop after, ∀ sink, c ⟨memory, sink, allocator⟩ = .error stop ⟨after, sink, allocator⟩

theorem IgnoresSink.truncates {c : Exec α} (h : IgnoresSink c) : (cut limit).Truncates c := by
  constructor
  · rintro ⟨_, sink, _⟩ ⟨memory, sink', allocator⟩ ⟨rfl, rfl, hs⟩
    obtain ⟨a, after, hc⟩ | ⟨stop, after, hc⟩ := h memory allocator
    · rw [hc, hc]
      exact .ok ⟨rfl, rfl, hs⟩
    · rw [hc, hc]
      exact .error ⟨rfl, rfl, hs⟩
  · rintro ⟨memory, sink, allocator⟩ m' hs
    obtain ⟨a, after, hc⟩ | ⟨stop, after, hc⟩ := h memory allocator
    · rw [hc]
      exact hs
    · rw [hc]
      exact hs

theorem read_ignoresSink (line : Nat) (f : Memory → Allocator → Except Cause α) :
    IgnoresSink (eval (Eval.read line f)) := by
  intro memory allocator
  unfold eval Eval.read
  dsimp only
  cases f memory allocator with
  | ok a => exact .inl ⟨a, memory, fun _ => rfl⟩
  | error cause => exact .inr ⟨.fault (.atLine line cause), memory, fun _ => rfl⟩

theorem onBinding_ignoresSink (name : String) (line : Nat) (c : Value.InPlace Unit) :
    IgnoresSink (eval (Eval.onBinding name line c)) := by
  intro memory allocator
  unfold eval Eval.onBinding
  dsimp only
  cases memory.lookup? name with
  | none => exact .inr ⟨_, memory, fun _ => rfl⟩
  | some value =>
    dsimp only
    cases c value with
    | ok u after => exact .inl ⟨(), memory.replace name after, fun _ => rfl⟩
    | error cause after => exact .inr ⟨_, memory.replace name after, fun _ => rfl⟩

theorem jump_ignoresSink (j : Jump) (line : Nat) : IgnoresSink (jump j line) := by
  intro memory allocator
  by_cases h : memory.inLoop = true
  · exact .inl ⟨.jump j, memory, fun _ => if_pos h⟩
  · exact .inr ⟨_, memory, fun _ => if_neg h⟩

theorem inFrame_truncates {body : Exec α} (kind : FrameKind) (h : (cut limit).Truncates body) :
    (cut limit).Truncates (inFrame kind body) := by
  constructor
  · rintro ⟨_, sink, _⟩ ⟨memory, sink', allocator⟩ ⟨rfl, rfl, hs⟩
    have pushed : (cut limit).same ⟨memory.push kind, sink, allocator⟩
        ⟨memory.push kind, sink', allocator⟩ := ⟨rfl, rfl, hs⟩
    have hc := h.same pushed
    unfold inFrame
    dsimp only
    generalize body ⟨memory.push kind, sink, allocator⟩ = r at hc ⊢
    generalize body ⟨memory.push kind, sink', allocator⟩ = r' at hc ⊢
    cases hc with
    | ok ht => exact .ok ⟨congrArg Scope.pop ht.1, ht.2⟩
    | error ht => exact .error ⟨congrArg Scope.pop ht.1, ht.2⟩
    | cut hl => cases r <;> exact .cut hl
  · intro m m' hs
    rw [ends_inFrame]
    have pushed : (cut limit).lost { m with memory := m.memory.push kind } m' := hs
    exact h.lost pushed

theorem truncates_stepwise : Stepwise (fun _ => True) fun _ c => (cut limit).Truncates c where
  pure := Cut.truncates_pure
  bind := Cut.Truncates.bind
  read := fun _ f => (read_ignoresSink _ f).truncates
  write := fun text => onSink_truncates (Sink.write_truncates text)
  flush := onSink_truncates Sink.flush_truncates
  assign := fun name value => IgnoresSink.truncates fun memory _ =>
    .inl ⟨(), memory.assign name value, fun _ => rfl⟩
  onBinding := fun _ name c => (onBinding_ignoresSink name _ c).truncates
  iterator := fun name i => IgnoresSink.truncates fun memory _ =>
    .inl ⟨(), memory.bind name (.int i), fun _ => rfl⟩
  inFrame := fun kind h => inFrame_truncates kind h
  jump := fun _ j => (jump_ignoresSink j _).truncates
  outOfFuel := Cut.truncates_throw _

/-- What a computation writes may depend on the memory, which both machines share. -/
theorem truncates_of_memory {c : Memory → Exec α} (h : ∀ memory, (cut limit).Truncates (c memory)) :
    (cut limit).Truncates fun m => c m.memory m where
  same := by
    rintro m m' ⟨hmemory, hs⟩
    show (cut limit).Compares (c m.memory m) (c m'.memory m')
    rw [hmemory]
    exact (h m.memory).same ⟨hmemory, hs⟩
  lost := fun {m _} hs => (h m.memory).lost hs

theorem dump_truncates : (cut limit).Truncates dump := by
  refine truncates_of_memory (c := fun memory => eval do
    Eval.writeAll (memory.frames.flatMap fun f => f.pieces Value.pieces ++ ["\n"])
    Eval.flush) fun memory => ?_
  exact truncates_stepwise.evaluates.bind (truncates_stepwise.evaluates.writeAll _) fun _ =>
    truncates_stepwise.flush

end Exec

theorem programWithDump_truncates (limit fuel : Nat) (dumping : Bool) (p : Program) :
    (Exec.cut limit).Truncates (Exec.programWithDump fuel dumping p) := by
  refine (Exec.truncates_stepwise.program fuel fun _ _ => trivial).bind fun outcome => ?_
  cases outcome with
  | returned value => exact Cut.truncates_pure _
  | completed =>
    cases dumping with
    | false => exact Cut.truncates_pure _
    | true => exact Exec.dump_truncates.bind fun _ => Cut.truncates_pure _

/-! ## Whole runs -/

def Sink.limited (limit : Nat) : Sink := ⟨.empty, some limit, false⟩

structure CutTo (limit : Nat) (full cut : Except RunError Outcome × Sink) : Prop where
  stored : cut.2.stored = full.2.stored.extract 0 (min limit full.2.stored.size)
  fits : full.2.stored.size ≤ limit → cut.1 = full.1
  fails : limit < full.2.stored.size → cut.1 = .error (.stopped (.fault (.output .full)))

theorem cutTo_same {limit : Nat} {outcome : Except RunError Outcome} {s s' : Sink}
    (h : (Sink.cut limit).same s s') : CutTo limit (outcome, s) (outcome, s') := by
  obtain ⟨-, rfl, hsize⟩ := h
  refine ⟨?_, fun _ => rfl, fun hl => absurd hsize (Nat.not_le.mpr hl)⟩
  rw [Nat.min_eq_right hsize, ByteArray.extract_zero_size]

theorem cutTo_lost {limit : Nat} {outcome : Except RunError Outcome} {s s' : Sink}
    (h : (Sink.cut limit).lost s s') :
    CutTo limit (outcome, s) (.error (.stopped (.fault (.output .full))), s') := by
  obtain ⟨-, hstored, hsize⟩ := h
  refine ⟨?_, fun hl => absurd hsize (Nat.not_lt.mpr hl), fun _ => rfl⟩
  rw [Nat.min_eq_left (Nat.le_of_lt hsize)]
  exact hstored

theorem runProgram_truncated (fuel limit : Nat) (options : RunOptions) (allocator : Allocator)
    (p : Program) :
    CutTo limit (runProgram fuel options allocator .unbounded p)
      (runProgram fuel options allocator (.limited limit) p) := by
  have start : (Exec.cut limit).same ⟨.fresh, .unbounded, allocator⟩
      ⟨.fresh, .limited limit, allocator⟩ := ⟨rfl, rfl, ⟨rfl, rfl⟩, rfl, Nat.zero_le limit⟩
  have h := (programWithDump_truncates limit fuel options.dump p).same start
  unfold runProgram
  generalize Exec.programWithDump fuel options.dump p ⟨.fresh, .unbounded, allocator⟩ = full at h ⊢
  generalize Exec.programWithDump fuel options.dump p ⟨.fresh, .limited limit, allocator⟩ = cut at h ⊢
  cases h with
  | ok hs => exact cutTo_same hs.2.2
  | error hs => exact cutTo_same hs.2.2
  | cut hl => cases full <;> exact cutTo_lost hl

/-- **Truncation.** Of all the bytes that a run writes, a sink with a limit stores
those up to the limit. If there are no more, nothing else has changed; if there
are, the run fails because the sink is full. -/
theorem run_truncated (fuel limit : Nat) (options : RunOptions) (allocator : Allocator)
    (source : String) :
    let full := run fuel options allocator .unbounded source
    let cut := run fuel options allocator (.limited limit) source
    cut.sink.stored = full.sink.stored.extract 0 (min limit full.sink.stored.size) ∧
      (full.sink.stored.size ≤ limit → cut.outcome = full.outcome) ∧
      (limit < full.sink.stored.size → cut.outcome = .error (.stopped (.fault (.output .full)))) ∧
      cut.lexicalErrors = full.lexicalErrors ∧ cut.diagnostics = full.diagnostics := by
  -- A source that does not run leaves both sinks empty.
  have unwritten (outcome) : CutTo limit (outcome, .unbounded) (outcome, .limited limit) :=
    cutTo_same ⟨⟨rfl, rfl⟩, rfl, Nat.zero_le limit⟩
  dsimp only
  unfold run
  dsimp only
  cases parseProgram (scan source).tokens with
  | error e =>
    have h := unwritten (.error (.malformed e))
    exact ⟨h.stored, h.fits, h.fails, rfl, rfl⟩
  | ok program =>
    dsimp only
    split
    · have h := unwritten (.error (.rejected (checkProgram program).length))
      exact ⟨h.stored, h.fits, h.fails, rfl, rfl⟩
    · split
      · have h := unwritten (.ok .completed)
        exact ⟨h.stored, h.fits, h.fails, rfl, rfl⟩
      · have h := runProgram_truncated fuel limit options allocator program
        exact ⟨h.stored, h.fits, h.fails, rfl, rfl⟩

end MatrixScript
