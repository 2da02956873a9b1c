import MatrixScript.Proofs.Simulation

/-!
# Base types

Programs that neither divide nor test for equality, and have no empty arrays,
keep to the base types that checking finds: whatever way a run of such a program
ends, the scalars of every global have the kind of its base type.

The rest of the language does not: checking takes a quotient for a truth value and
an equality for a value like its operands, and a product over an empty axis is the
integer zero, whatever the base of its factors.
-/

namespace MatrixScript

/-! ## The sense of a base type -/

def plain : Fragment where
  ops := fun op => op ∉ [.equal, .notEqual, .div, .dotDiv]
  sizes := fun n => n ≠ 0

def Sense.strict : Sense where
  toFragment := plain
  leaf := fun base v => v.kind = base.kind

theorem kind_of_isNumber {v : Value} (h : v.isNumber = true) : v.kind = .int ∨ v.kind = .real := by
  cases v with
  | int _ => exact .inl rfl
  | real _ => exact .inr rfl
  | _ => cases h

theorem plain_not_div {op : BinaryOp} (h : op.arithmetic? = some .div) : plain.ops op = false := by
  cases op <;> first | rfl | cases h

theorem Sense.strict_sound : Sense.strict.Sound where
  own := fun h => h
  zero := fun h => by simp [strict, plain] at h
  arithmetic := by
    intro op base a b hop ha hb
    have ha : a.kind = base.kind := ha
    have hb : b.kind = base.kind := hb
    have hdiv : op.arithmetic? ≠ some .div := fun hd => by
      have hops : plain.ops op = true := hop hd
      rw [plain_not_div hd] at hops
      cases hops
    refine (Value.arithmetic_computes op a b).imp fun c ⟨hn, _, hc⟩ => ?_
    show c.kind = base.kind
    have hbase := kind_of_isNumber hn
    rw [ha] at hbase
    rw [hc, ha, hb]
    rcases hbase with hi | hr
    · rw [hi, if_pos ⟨rfl, rfl, hdiv⟩]
    · rw [hr, if_neg (by simp)]
  quotient := fun h => by simp [strict, plain] at h
  equality := fun {op} _ _ hm h => by
    have : plain.ops op = true := h
    simp only [List.mem_cons, List.not_mem_nil, or_false] at hm
    rcases hm with rfl | rfl <;> simp [plain] at this
  negate := fun h => (Value.negateLeaf_computes _).imp fun _ hc => hc.trans h

/-! ## Globals -/

def Scope.globals {α : Type} (s : Scope α) : Frame α := s.chain.getLast (by simp [chain])

theorem Scope.globals_of_outer {α : Type} {s : Scope α} (h : s.outer = []) : s.globals = s.inner := by
  obtain ⟨inner, outer⟩ := s
  cases h
  rfl

/-- Every global of the memory is one of the table, and its scalars have the kind
of its base type. -/
def GlobalsTyped (table : Table) (memory : Memory) : Prop :=
  ∀ name value, memory.globals.find? name = some value →
    ∃ type, table.globals.find? name = some type ∧ ∀ leaf ∈ value.leaves, leaf.kind = type.base.kind

theorem Sense.Reached.globalsTyped {final : Table} {memory : Memory}
    (h : Sense.strict.Reached .fresh final memory) : GlobalsTyped final memory := by
  obtain ⟨table, hstart, hfinal, ha⟩ := h
  have houter : table.outer = [] := hstart.outer
  have hmem : memory.outer = [] := ha.outer_eq_nil houter
  intro name value hv
  rw [Scope.globals_of_outer hmem] at hv
  have hf := ha.head
  have hbinds := hf.owned (by rw [hstart.kind]; rfl) name (Frame.binds_of_find? hv)
  obtain ⟨type, ht⟩ := Option.isSome_iff_exists.mp hbinds
  obtain ⟨found, hfound, hholds⟩ := hf.typed name type (seenIn_of_find? _ ht)
  rw [seenIn_of_find? _ hv] at hfound
  cases hfound
  refine ⟨type, ?_, hholds.2.leaves⟩
  rw [Scope.globals_of_outer (hfinal.outer.trans houter)]
  exact hfinal.keeps name type ht

/-- **Base types.** However a run of a checked program in the plain fragment ends,
every global has been found by the check, and its scalars have the kind of the
base type found. -/
theorem program_globalsTyped (fuel : Nat) {p : Program} (hchecked : checkProgram p = [])
    (hplain : stmtsWithin plain p = true) (sink : Sink) (allocator : Allocator) :
    Ends (Exec.program fuel p ⟨.fresh, sink, allocator⟩)
      (fun _ m => GlobalsTyped (Checker.fresh.check p).table m.memory)
      (fun _ m => GlobalsTyped (Checker.fresh.check p).table m.memory) := by
  refine (Sense.program_simulates Sense.strict_sound fuel hplain hchecked sink allocator).mono ?_ ?_
  · rintro outcome m ⟨hr, -⟩
    exact hr.globalsTyped
  · rintro stop m ⟨hr, -⟩
    exact hr.globalsTyped

def leftOver : Program :=
  [.assign (.name "x" 1) .set (.int 0 1) 1,
    .whileLoop (.binary .less (.name "x" 2) (.int 3 2) 2)
      [.ifElse (.binary .greater (.name "x" 3) (.int 0 3) 3)
        [.assign (.name "y" 3) .set (.name "x" 3) 3] none 3,
        .assign (.name "y" 4) .set (.vector ⟨[.str "a" 4, .str "b" 4], 4⟩) 4,
        .assign (.name "x" 5) .add (.int 1 5) 5] 2,
    .assign (.name "z" 6) .set (.binary .less (.name "x" 6) (.int 2 6) 6) 6]

theorem leftOver_globalsTyped : checkProgram leftOver = [] ∧ stmtsWithin plain leftOver = true ∧
    ∀ sink allocator, Ends (Exec.program 4 leftOver ⟨.fresh, sink, allocator⟩)
      (fun _ m => GlobalsTyped (Checker.fresh.check leftOver).table m.memory)
      (fun _ m => GlobalsTyped (Checker.fresh.check leftOver).table m.memory) := by
  have hchecked : checkProgram leftOver = [] := by decide
  have hplain : stmtsWithin plain leftOver = true := by decide
  exact ⟨hchecked, hplain, @program_globalsTyped 4 leftOver hchecked hplain⟩

end MatrixScript
