import MatrixScript.Machine.Exec
import MatrixScript.Proofs.InPlace
import MatrixScript.Proofs.TreeLines

/-!
# Step by step

What all steps have and a sequence has with its parts, evaluations have
(`Eval.Stepwise.eval`) and so have executions (`Exec.Stepwise.exec`). The steps that name
a line are asked for on lines in `K` only, for trees with no other lines. Evaluating
is such a case: it never changes the memory (`Expr.eval_keeps`).
-/

namespace MatrixScript

/-! ## Sinks -/

namespace Sink

theorem write_faults (text : String) (s : Sink) :
    Ends (write text s) (fun _ _ => True) fun f _ => ∃ failure, f = .output failure := by
  unfold write
  dsimp only
  split
  · trivial
  · exact ⟨_, rfl⟩

theorem flush_faults (s : Sink) :
    Ends (flush s) (fun _ _ => True) fun f _ => ∃ failure, f = .output failure := by
  unfold flush
  split
  · exact ⟨_, rfl⟩
  · trivial

end Sink

namespace Eval

theorem ends_onSink (c : EStateM Fault Sink Unit) (m : Machine) {ok : Unit → Machine → Prop}
    {err : Fault → Machine → Prop} : Ends (onSink c m) ok err ↔
      Ends (c m.sink) (fun _ sink => ok () { m with sink }) fun f sink => err f { m with sink } := by
  unfold onSink
  cases c m.sink <;> exact Iff.rfl

/-! ## Evaluations -/

section
variable {α β : Type}

def read (line : Nat) (f : Memory → Allocator → Except Cause α) : Eval α := fun m =>
  atLine line (f m.memory m.allocator) m

theorem throw_eq_read (line : Nat) (cause : Cause) :
    (throw (.atLine line cause) : Eval α) = read line fun _ _ => .error cause := rfl

theorem atLine_eq_read (line : Nat) (x : Except Cause α) : atLine line x = read line fun _ _ => x := rfl

theorem lookup_eq_read (name : String) (line : Nat) : lookup name line =
    read line fun memory _ =>
      match memory.lookup? name with
      | some value => .ok value
      | none => .error (.unknownVariable name) := by
  funext m
  rw [lookup_run]
  unfold read
  dsimp only
  cases m.memory.lookup? name <;> rfl

theorem build_eq_read (function : Sized) (arguments : List Value) (line : Nat) :
    build function arguments line = read line fun _ allocator => function.build allocator arguments :=
  rfl

end

/-- Steps have the property if they name no line outside of `K`, and sequences if their parts
have it. -/
structure Stepwise (K : Nat → Prop) (P : ∀ α : Type, Eval α → Prop) : Prop where
  pure : ∀ {α : Type} (a : α), P α (pure a)
  bind : ∀ {α β : Type} {x : Eval α} {next : α → Eval β}, P α x → (∀ a, P β (next a)) →
    P β (x >>= next)
  read : ∀ {α : Type} {line : Nat}, K line → ∀ f : Memory → Allocator → Except Cause α,
    P α (read line f)
  write : ∀ text : String, P Unit (onSink (Sink.write text))

namespace Stepwise

variable {K : Nat → Prop} {P : ∀ α : Type, Eval α → Prop} (hP : Stepwise K P)
include hP

theorem atLine {α : Type} {line : Nat} (hline : K line) (x : Except Cause α) :
    P α (Eval.atLine line x) := by
  rw [atLine_eq_read]
  exact hP.read hline _

theorem throw {α : Type} {line : Nat} (hline : K line) (cause : Cause) :
    P α (throw (.atLine line cause)) := by
  rw [throw_eq_read]
  exact hP.read hline _

theorem lookup {line : Nat} (hline : K line) (name : String) : P Value (Eval.lookup name line) := by
  rw [lookup_eq_read]
  exact hP.read hline _

theorem need {line : Nat} (hline : K line) {x : Eval (Option Value)} (hx : P (Option Value) x) :
    P Value (Eval.need line x) := by
  refine hP.bind hx fun value? => ?_
  cases value? with
  | some value => exact hP.pure value
  | none => exact hP.throw hline _

theorem writeAll : ∀ texts : List String, P Unit (Eval.writeAll texts)
  | [] => hP.pure ()
  | text :: texts => hP.bind (hP.write text) fun _ => writeAll texts

theorem call {line : Nat} (hline : K line) (function : Builtin) (arguments : List Value) :
    P (Option Value) (function.call arguments line) := by
  cases function with
  | print => exact hP.bind (hP.writeAll _) fun _ => hP.pure none
  | sized function =>
    rw [Builtin.call]
    split
    · rw [build_eq_read]
      exact hP.bind (hP.read hline _) fun _ => hP.pure _
    · exact hP.throw hline _

mutual

theorem eval : ∀ {e : Expr}, (∀ k ∈ e.lines, K k) → P (Option Value) e.eval
  | .int _ _, _ => hP.pure _
  | .real _ _, _ => hP.pure _
  | .str _ _, _ => hP.pure _
  | .name spelling line, h => by
    rw [Expr.lines, List.forall_mem_singleton] at h
    rw [Expr.eval]
    exact hP.bind (hP.lookup h spelling) fun _ => hP.pure _
  | .vector ⟨elements, line⟩, h => by
    rw [Expr.lines, List.forall_mem_cons] at h
    rw [Expr.eval]
    exact hP.bind (evalAll h.2) fun _ => hP.pure _
  | .matrix rows line, h => by
    rw [Expr.lines, List.forall_mem_cons] at h
    rw [Expr.eval]
    exact hP.bind (evalRows h.2) fun _ => hP.pure _
  | .call function arguments line, h => by
    rw [Expr.lines, List.forall_mem_cons] at h
    rw [Expr.eval]
    exact hP.bind (evalAll h.2) fun values => hP.call h.1 function values
  | .binary op left right line, h => by
    rw [Expr.lines, List.forall_mem_cons, List.forall_mem_append] at h
    obtain ⟨hline, hleft, hright⟩ := h
    rw [Expr.eval]
    refine hP.bind (hP.need (hleft _ left.line_mem_lines) (eval hleft)) fun leftValue => ?_
    split
    · split
      · rw [Expr.lines, List.forall_mem_cons] at hright
        exact hP.bind (evalIndices hline hright.2) fun _ =>
          hP.bind (hP.atLine hline _) fun _ => hP.pure _
      · exact hP.throw hline _
    · exact hP.bind (hP.need (hright _ right.line_mem_lines) (eval hright)) fun _ =>
        hP.bind (hP.atLine hline _) fun _ => hP.pure _
  | .unary op operand line, h => by
    rw [Expr.lines, List.forall_mem_cons] at h
    rw [Expr.eval]
    exact hP.bind (hP.need (h.2 _ operand.line_mem_lines) (eval h.2)) fun _ =>
      hP.bind (hP.atLine h.1 _) fun _ => hP.pure _

theorem evalAll : ∀ {es : List Expr}, (∀ k ∈ allLines es, K k) →
    P (List Value) (MatrixScript.evalAll es)
  | [], _ => hP.pure _
  | e :: es, h => by
    rw [allLines, List.forall_mem_append] at h
    rw [MatrixScript.evalAll]
    exact hP.bind (hP.need (h.1 _ e.line_mem_lines) (eval h.1)) fun _ =>
      hP.bind (evalAll h.2) fun _ => hP.pure _

theorem evalRows : ∀ {rows : List Row}, (∀ k ∈ rowsLines rows, K k) →
    P (List Value) (MatrixScript.evalRows rows)
  | [], _ => hP.pure _
  | ⟨elements, line⟩ :: rows, h => by
    rw [rowsLines, List.forall_mem_cons, List.forall_mem_append] at h
    rw [MatrixScript.evalRows]
    exact hP.bind (evalAll h.2.1) fun _ => hP.bind (evalRows h.2.2) fun _ => hP.pure _

theorem evalIndices {line : Nat} (hline : K line) : ∀ {es : List Expr}, (∀ k ∈ allLines es, K k) →
    P (List Int64) (MatrixScript.evalIndices line es)
  | [], _ => hP.pure _
  | e :: es, h => by
    rw [allLines, List.forall_mem_append] at h
    rw [MatrixScript.evalIndices]
    exact hP.bind (hP.need (h.1 _ e.line_mem_lines) (eval h.1)) fun _ =>
      hP.bind (hP.atLine hline _) fun _ => hP.bind (evalIndices hline h.2) fun _ => hP.pure _

end

theorem value {e : Expr} (h : ∀ k ∈ e.lines, K k) : P Value e.value :=
  hP.need (h _ e.line_mem_lines) (hP.eval h)

theorem condition {e : Expr} {line : Nat} (hline : K line) (h : ∀ k ∈ e.lines, K k) :
    P Bool (do Eval.atLine line (← e.value).holds) :=
  hP.bind (hP.value h) fun _ => hP.atLine hline _

theorem bounds {e : Expr} {line : Nat} (hline : K line) (h : ∀ k ∈ e.lines, K k) :
    P (Int64 × Int64) (do
      match ← e.value with
      | .range start stop => return (start, stop)
      | other => MonadExcept.throw (.atLine line (.rangeExpected other.kind))) := by
  refine hP.bind (hP.value h) fun value => ?_
  split
  · exact hP.pure _
  · exact hP.throw hline _

theorem assign (hassign : ∀ name value, P Unit (Eval.assign name value))
    (hbinding : ∀ {line} name c, K line → P Unit (Eval.onBinding name line c)) {target : Target}
    {value : Expr} {line : Nat} (hline : K line) (htarget : ∀ k ∈ target.lines, K k)
    (hvalue : ∀ k ∈ value.lines, K k) (op : AssignOp) : P Unit (target.assign op value line) := by
  refine hP.bind (hP.value hvalue) fun new => ?_
  cases target with
  | invalid e => exact hP.throw (htarget _ e.line_mem_lines) _
  | name spelling l =>
    cases op with
    | set => exact hassign spelling new
    | add | sub | mul | div =>
      exact hP.bind (hP.lookup hline spelling) fun _ =>
        hP.bind (hP.atLine hline _) fun stored => hassign spelling stored
  | element array indices l =>
    rw [Target.lines, List.forall_mem_cons, List.forall_mem_cons] at htarget
    exact hP.bind (hP.evalIndices hline htarget.2.2) fun _ => hbinding array _ hline

end Stepwise

/-! ## Memory -/

def KeepsMemory {α : Type} (x : Eval α) : Prop := ∀ m : Machine,
  Ends (x m) (fun _ m' => m'.memory = m.memory) fun _ m' => m'.memory = m.memory

theorem keepsMemory_stepwise : Stepwise (fun _ => True) @KeepsMemory where
  pure := fun _ _ => rfl
  bind := fun hx hnext m => by
    rw [ends_bind]
    exact (hx m).mono
      (fun a m₁ h₁ => (hnext a m₁).mono (fun _ _ h₂ => h₂.trans h₁) fun _ _ h₂ => h₂.trans h₁)
      fun _ _ h₁ => h₁
  read := fun _ f m => by
    unfold read
    cases f m.memory m.allocator <;> rfl
  write := fun text m => (ends_onSink _ m).mpr
    ((Sink.write_faults text m.sink).mono (fun _ _ _ => rfl) fun _ _ _ => rfl)

theorem flush_keeps : KeepsMemory flush := fun m => (ends_onSink _ m).mpr
  ((Sink.flush_faults m.sink).mono (fun _ _ _ => rfl) fun _ _ _ => rfl)

end Eval

theorem Expr.eval_keeps (e : Expr) : e.eval.KeepsMemory :=
  Eval.keepsMemory_stepwise.eval fun _ _ => trivial

namespace Exec

/-! ## Loops in sequences -/

structure Sequential (P : ∀ α : Type, Exec α → Prop) : Prop where
  pure : ∀ {α : Type} (a : α), P α (pure a)
  bind : ∀ {α β : Type} {c : Exec α} {next : α → Exec β}, P α c → (∀ a, P β (next a)) → P β (c >>= next)

namespace Sequential

variable {P : ∀ α : Type, Exec α → Prop} {body : Exec Flow}

theorem repeatWhile (hP : Sequential P) (hfuel : P Flow (throw .outOfFuel)) {condition : Exec Bool}
    (hc : P Bool condition) (hb : P Flow body) : ∀ fuel, P Flow (repeatWhile condition body fuel)
  | 0 => hfuel
  | fuel + 1 => by
    refine hP.bind hc fun holds => ?_
    cases holds with
    | false => exact hP.pure _
    | true =>
      refine hP.bind hb fun flow => ?_
      match flow with
      | .normal | .jump .next => exact repeatWhile hP hfuel hc hb fuel
      | .jump .exit | .ret _ => exact hP.pure _

theorem repeatFor (hP : Sequential P) {iterator : String}
    (hbind : ∀ i : Int64,
      P PUnit (modify fun m => { m with memory := m.memory.bind iterator (.int i) }))
    (hb : P Flow body) : ∀ (turns : Nat) (i : Int64), P Flow (repeatFor iterator body turns i)
  | 0, _ => hP.pure _
  | turns + 1, i => by
    refine hP.bind (hbind i) fun _ => hP.bind hb fun flow => ?_
    match flow with
    | .normal | .jump .next => exact repeatFor hP hbind hb turns (i + 1)
    | .jump .exit | .ret _ => exact hP.pure _

end Sequential

/-! ## Executions -/

theorem ends_eval {α : Type} (x : Eval α) (m : Machine) {ok : α → Machine → Prop}
    {err : Stop → Machine → Prop} :
    Ends (eval x m) ok err ↔ Ends (x m) ok fun f m' => err (.fault f) m' := by
  unfold eval
  cases x m <;> exact Iff.rfl

theorem ends_inFrame {α : Type} (kind : FrameKind) (c : Exec α) (m : Machine)
    {ok : α → Machine → Prop} {err : Stop → Machine → Prop} :
    Ends (inFrame kind c m) ok err ↔
      Ends (c { m with memory := m.memory.push kind })
        (fun a m' => ok a { m' with memory := m'.memory.pop })
        (fun stop m' => err stop { m' with memory := m'.memory.pop }) := by
  unfold inFrame
  cases c { m with memory := m.memory.push kind } <;> exact Iff.rfl

theorem eval_bind {α β : Type} (x : Eval α) (next : α → Eval β) :
    eval (x >>= next) = eval x >>= fun a => eval (next a) := by
  funext m
  show eval (EStateM.bind x next) m = EStateM.bind (eval x) _ m
  unfold eval EStateM.bind
  dsimp only
  cases x m <;> rfl

structure Stepwise (K : Nat → Prop) (P : ∀ α : Type, Exec α → Prop) : Prop extends Sequential P where
  read : ∀ {α : Type} {line : Nat}, K line → ∀ f : Memory → Allocator → Except Cause α,
    P α (eval (Eval.read line f))
  write : ∀ text : String, P Unit (eval (Eval.onSink (Sink.write text)))
  flush : P Unit (eval Eval.flush)
  assign : ∀ (name : String) (value : Value), P Unit (eval (Eval.assign name value))
  onBinding : ∀ {line : Nat}, K line → ∀ (name : String) (c : Value.InPlace Unit),
    P Unit (eval (Eval.onBinding name line c))
  iterator : ∀ (name : String) (i : Int64),
    P PUnit (modify fun m => { m with memory := m.memory.bind name (.int i) })
  inFrame : ∀ {α : Type} {c : Exec α} (kind : FrameKind), P α c → P α (inFrame kind c)
  jump : ∀ {line : Nat}, K line → ∀ j : Jump, P Flow (jump j line)
  outOfFuel : P Flow (throw .outOfFuel)

namespace Stepwise

variable {K : Nat → Prop} {P : ∀ α : Type, Exec α → Prop} (hP : Stepwise K P)
include hP

theorem evaluates : Eval.Stepwise K fun α x => P α (eval x) where
  pure := fun a => hP.pure a
  bind := fun hx hnext => by
    rw [eval_bind]
    exact hP.bind hx hnext
  read := hP.read
  write := hP.write

theorem condition {e : Expr} {line : Nat} (hline : K line) (h : ∀ k ∈ e.lines, K k) :
    P Bool (condition e line) :=
  hP.evaluates.condition hline h

theorem bounds {e : Expr} {line : Nat} (hline : K line) (h : ∀ k ∈ e.lines, K k) :
    P (Int64 × Int64) (bounds e line) :=
  hP.evaluates.bounds hline h

mutual

theorem exec (fuel : Nat) : ∀ {s : Stmt}, (∀ k ∈ s.lines, K k) → P Flow (s.exec fuel)
  | .block body, h => by
    rw [Stmt.lines] at h
    exact execAll fuel h
  | .expr e line, h => by
    rw [Stmt.lines, List.forall_mem_cons] at h
    exact hP.bind (hP.evaluates.eval h.2) fun _ => hP.pure _
  | .assign target op value line, h => by
    rw [Stmt.lines, List.forall_mem_cons, List.forall_mem_append] at h
    obtain ⟨hline, htarget, hvalue⟩ := h
    have assigned := hP.evaluates.assign hP.assign (fun name c hl => hP.onBinding hl name c) hline
      htarget hvalue op
    exact hP.bind assigned fun _ => hP.pure _
  | .ifElse condition body none line, h => by
    rw [Stmt.lines, List.forall_mem_cons, List.forall_mem_append] at h
    refine hP.bind (hP.condition h.1 h.2.1) fun holds => ?_
    cases holds with
    | true => exact hP.inFrame .branch (execAll fuel h.2.2)
    | false => exact hP.pure _
  | .ifElse condition body (some other) line, h => by
    rw [Stmt.lines, List.forall_mem_cons, List.forall_mem_append, List.forall_mem_append] at h
    obtain ⟨hline, hcondition, hbody, hother⟩ := h
    refine hP.bind (hP.condition hline hcondition) fun holds => ?_
    cases holds with
    | true => exact hP.inFrame .branch (execAll fuel hbody)
    | false => exact hP.inFrame .branch (execAll fuel hother)
  | .whileLoop condition body line, h => by
    rw [Stmt.lines, List.forall_mem_cons, List.forall_mem_append] at h
    obtain ⟨hline, hcondition, hbody⟩ := h
    exact hP.inFrame .whileLoop
      (hP.repeatWhile hP.outOfFuel (hP.condition hline hcondition) (execAll fuel hbody) fuel)
  | .forLoop iterator range body line, h => by
    rw [Stmt.lines, List.forall_mem_cons, List.forall_mem_append] at h
    obtain ⟨hline, hrange, hbody⟩ := h
    exact hP.bind (hP.bounds hline hrange) fun _ =>
      hP.inFrame .forLoop (hP.repeatFor (hP.iterator iterator) (execAll fuel hbody) _ _)
  | .ret value line, h => by
    rw [Stmt.lines, List.forall_mem_cons] at h
    exact hP.bind (hP.evaluates.value h.2) fun _ => hP.pure _
  | .jump j line, h => by
    rw [Stmt.lines, List.forall_mem_singleton] at h
    exact hP.jump h j

theorem execAll (fuel : Nat) : ∀ {body : List Stmt}, (∀ k ∈ stmtsLines body, K k) →
    P Flow (MatrixScript.execAll fuel body)
  | [], _ => hP.pure _
  | s :: rest, h => by
    rw [stmtsLines, List.forall_mem_append] at h
    refine hP.bind (exec fuel h.1) fun flow => ?_
    cases flow with
    | normal => exact execAll fuel h.2
    | jump j => exact hP.pure _
    | ret value => exact hP.pure _

end

theorem program (fuel : Nat) {p : Program} (h : ∀ k ∈ stmtsLines p, K k) :
    P Outcome (program fuel p) :=
  hP.bind (hP.execAll fuel h) fun _ => hP.bind hP.flush fun _ => hP.pure _

end Stepwise

end Exec

end MatrixScript
