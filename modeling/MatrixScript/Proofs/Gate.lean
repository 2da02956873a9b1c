import MatrixScript.Proofs.Moments

/-!
# The gate

A program without diagnostics does not come to the faults of scoping and of
structure that `Cause.ruledOut` lists: names without a value, values that are not
there, jumps outside of loops, wrong targets, index lists and headers, wrong
numbers of arguments and negative sizes. Nor does it ever let a range out of the
header of a loop.
-/

namespace MatrixScript

/-! ## The whole language -/

def Fragment.all : Fragment := ⟨fun _ => true, fun _ => true⟩

mutual

theorem within_all : ∀ e : Expr, e.within .all = true
  | .vector ⟨elements, _⟩ => by rw [Expr.within, allWithin_all elements]; rfl
  | .matrix rows _ => by rw [Expr.within, rowsWithin_all rows]; rfl
  | .call function arguments _ => by
    rw [Expr.within, allWithin_all arguments, Bool.and_true]
    cases function with
    | print => rfl
    | sized function => rw [Builtin.within]; cases sizeArgument? arguments <;> rfl
  | .binary op left right line => by
    unfold Expr.within
    rw [within_all left]
    show (match op, right with
      | .subscript, .vector ⟨indices, _⟩ => allWithin .all indices
      | _, right => right.within .all) = true
    split
    · rename_i indices indicesLine
      exact allWithin_all indices
    · exact within_all right
  | .unary _ operand _ => by rw [Expr.within]; exact within_all operand
  | .int _ _ | .real _ _ | .str _ _ | .name _ _ => by simp [Expr.within]

theorem allWithin_all : ∀ es : List Expr, allWithin .all es = true
  | [] => rfl
  | e :: es => by rw [allWithin, within_all e, allWithin_all es]; rfl

theorem rowsWithin_all : ∀ rows : List Row, rowsWithin .all rows = true
  | [] => rfl
  | ⟨elements, _⟩ :: rows => by rw [rowsWithin, allWithin_all elements, rowsWithin_all rows]; rfl

end

mutual

theorem stmt_within_all : ∀ s : Stmt, s.within .all = true
  | .block body => stmtsWithin_all body
  | .expr e _ => within_all e
  | .assign target op value _ => by
    have ht : target.within .all = true := by
      cases target with
      | element array indices line => exact allWithin_all indices.elements
      | _ => rfl
    rw [Stmt.within, ht, within_all value]
    cases op <;> rfl
  | .ifElse condition body none _ => by rw [Stmt.within, within_all condition, stmtsWithin_all body]; rfl
  | .ifElse condition body (some other) _ => by
    rw [Stmt.within, within_all condition, stmtsWithin_all body, stmtsWithin_all other]; rfl
  | .whileLoop condition body _ => by rw [Stmt.within, within_all condition, stmtsWithin_all body]; rfl
  | .forLoop _ range body _ => by rw [Stmt.within, within_all range, stmtsWithin_all body]; rfl
  | .ret value _ => within_all value
  | .jump _ _ => rfl

theorem stmtsWithin_all : ∀ body : List Stmt, stmtsWithin .all body = true
  | [] => rfl
  | s :: rest => by rw [stmtsWithin, stmt_within_all s, stmtsWithin_all rest]; rfl

end

/-! ## Values without ranges -/

def Value.RangeFree (v : Value) : Prop := ∀ leaf ∈ v.leaves, leaf.kind ≠ .range

def Moment.RangeFree : Moment → Prop
  | .memory m => ∀ f ∈ m.frames, ∀ name value, f.find? name = some value → value.RangeFree
  | .prints values => ∀ value ∈ values, value.RangeFree

def Sense.loose : Sense where
  toFragment := .all
  leaf := fun _ v => v.kind ≠ .range

theorem Sense.loose_sound : Sense.loose.Sound where
  own := fun {base v} h hr => by
    rw [h] at hr
    cases base <;> cases hr
  zero := fun _ h => by cases h
  arithmetic := fun {op base a b} _ _ _ => by
    refine (Value.arithmetic_computes op a b).imp fun c ⟨_, _, hc⟩ hr => ?_
    rw [hc] at hr
    split at hr <;> cases hr
  quotient := fun _ h hr => by rw [h] at hr; cases hr
  equality := fun _ _ h hr => by rw [h] at hr; cases hr
  negate := fun {base v} h => (Value.negateLeaf_computes v).imp fun c hc hr => h (hc.symm.trans hr)

theorem Sense.rangeFree_of_holds {type : ArrayType} {v : Value} (h : Sense.loose.holds type v) :
    v.RangeFree := h.2.leaves

theorem Sense.rangeFree_of_allows {x : Moment} (h : Sense.loose.Allows x) : x.RangeFree := by
  cases x with
  | memory memory =>
    intro f hf name value hv
    obtain ⟨type, ht⟩ := h f hf name value hv
    exact rangeFree_of_holds ht
  | prints values =>
    intro value hv
    obtain ⟨type, ht⟩ := h value hv
    exact rangeFree_of_holds ht

/-- **The gate.** A checked program is not stopped by a fault that checking rules
out, and no range is ever returned, bound in a memory on the way, or printed. -/
theorem checked_run_safe (fuel : Nat) {p : Program} (h : checkProgram p = []) (sink : Sink)
    (allocator : Allocator) :
    Ends (Exec.program fuel p ⟨.fresh, sink, allocator⟩)
      (fun outcome _ => ∀ v, outcome = .returned v → v.RangeFree)
      (fun stop _ => stop.ruledOut = false) ∧
    ∀ x, ShowsAll fuel p ⟨.fresh, sink, allocator⟩ x → x.RangeFree := by
  have hw := stmtsWithin_all p
  constructor
  · refine (Sense.program_simulates Sense.loose_sound fuel hw h sink allocator).mono ?_ ?_
    · rintro outcome m ⟨-, hret⟩ v hv
      obtain ⟨type, ht⟩ := hret v hv
      exact Sense.rangeFree_of_holds ht
    · rintro stop m ⟨-, hstop⟩
      exact hstop
  · intro x hx
    exact Sense.rangeFree_of_allows (Sense.showsAll_allows Sense.loose_sound hx hw h .fresh)

def twoLoops : Program :=
  [.assign (.name "x" 1) .set (.int 0 1) 1,
    .whileLoop (.binary .less (.name "x" 2) (.int 3 2) 2)
      [.ifElse (.binary .less (.name "x" 3) (.int 1 3) 3)
        [.assign (.name "y" 3) .set (.name "x" 3) 3] none 3,
        .assign (.name "y" 4) .set (.vector ⟨[.name "x" 4, .int 1 4], 4⟩) 4,
        .assign (.name "x" 5) .add (.int 1 5) 5] 2,
    .forLoop "i" (.binary .range (.int 0 6) (.name "x" 6) 6)
      [.expr (.call .print [.name "i" 7, .name "x" 7] 7) 7, .jump .exit 8] 6,
    .ret (.name "x" 9) 9]

theorem twoLoops_run_safe : checkProgram twoLoops = [] ∧
    Ends (Exec.program 4 twoLoops .unlimited)
      (fun outcome _ => ∀ v, outcome = .returned v → v.RangeFree)
      (fun stop _ => stop.ruledOut = false) ∧
    ∀ x, ShowsAll 4 twoLoops .unlimited x → x.RangeFree :=
  ⟨by decide, checked_run_safe 4 (by decide) .unbounded fun _ _ => true⟩

end MatrixScript
