import MatrixScript.Machine.Exec
import MatrixScript.Proofs.Leaves
import MatrixScript.Proofs.Stepwise
import MatrixScript.Proofs.TypingRules

/-!
# Evaluating checked expressions

A `Sense` reads a base type as a property of scalars, for expressions that keep
to some operators and to some sizes of arrays. In any sense that the operations
on scalars respect (`Sense.Sound`), an expression evaluates to what its type
allows, or fails for a reason that checking does not rule out (`eval_holds`).
-/

namespace MatrixScript

/-! ## Evaluations -/

def Fault.ruledOut : Fault → Bool
  | atLine _ cause => cause.ruledOut
  | output _ => false

/-- On a machine with the given memory an evaluation yields a result in `ok`, or fails in a
way in `err`. Either way the memory is the same after it. -/
def Eval.GivesOr {α : Type} (err : Fault → Prop) (memory : Memory) (x : Eval α) (ok : α → Prop) :
    Prop :=
  ∀ m : Machine, m.memory = memory →
    Ends (x m) (fun a m' => m'.memory = memory ∧ ok a) fun f m' => m'.memory = memory ∧ err f

abbrev Eval.Gives {α : Type} (memory : Memory) (x : Eval α) (ok : α → Prop) : Prop :=
  x.GivesOr (fun f => f.ruledOut = false) memory ok

namespace Eval

variable {α β : Type} {ok : α → Prop} {memory : Memory} {err : Fault → Prop}

theorem givesOr_pure {a : α} (h : ok a) : GivesOr err memory (pure a) ok := fun _ hm => ⟨hm, h⟩

theorem GivesOr.bind {x : Eval α} {next : α → Eval β} {ok' : β → Prop}
    (h : GivesOr err memory x ok) (hnext : ∀ a, ok a → GivesOr err memory (next a) ok') :
    GivesOr err memory (x >>= next) ok' := by
  intro m hm
  rw [ends_bind]
  exact (h m hm).mono (fun a m' ha => hnext a ha.2 m' ha.1) fun _ _ he => he

theorem GivesOr.imp {x : Eval α} {ok' : α → Prop} (h : GivesOr err memory x ok)
    (hok : ∀ a, ok a → ok' a) : GivesOr err memory x ok' :=
  fun m hm => (h m hm).mono (fun a _ ha => ⟨ha.1, hok a ha.2⟩) fun _ _ he => he

theorem GivesOr.and {x : Eval α} {ok' : α → Prop} (h : GivesOr err memory x ok)
    (h' : GivesOr err memory x ok') : GivesOr err memory x fun a => ok a ∧ ok' a :=
  fun m hm => ((h m hm).and (h' m hm)).mono (fun _ _ ha => ⟨ha.1.1, ha.1.2, ha.2.2⟩) fun _ _ he => he.1

theorem givesOr_atLine {x : Except Cause α} {line : Nat}
    (h : Yields x ok fun cause => err (.atLine line cause)) : GivesOr err memory (atLine line x) ok := by
  intro m hm
  cases x with
  | ok a => exact ⟨hm, h⟩
  | error cause => exact ⟨hm, h⟩

theorem GivesOr.need {x : Eval (Option Value)} {ok : Value → Prop}
    (h : GivesOr err memory x fun v? => ∃ v, v? = some v ∧ ok v) (line : Nat) :
    GivesOr err memory (need line x) ok := by
  refine h.bind ?_
  rintro _ ⟨v, rfl, hv⟩
  exact givesOr_pure hv

theorem GivesOr.value {x : Eval Value} {ok : Value → Prop} (h : GivesOr err memory x ok) :
    GivesOr err memory (do return some (← x)) fun v? => ∃ v, v? = some v ∧ ok v :=
  h.bind fun v hv => givesOr_pure ⟨v, rfl, hv⟩

theorem givesOr_lookup {name : String} {v : Value} {ok : Value → Prop}
    (h : memory.lookup? name = some v) (hv : ok v) (line : Nat) :
    GivesOr err memory (lookup name line) ok := by
  rintro m rfl
  rw [lookup_run, h]
  exact ⟨rfl, hv⟩

theorem givesOr_build {function : Sized} {arguments : List Value} {line : Nat} {ok : Value → Prop}
    (h : ∀ allocator, Yields (function.build allocator arguments) ok
      fun cause => err (.atLine line cause)) : GivesOr err memory (build function arguments line) ok :=
  fun m hm => givesOr_atLine (h m.allocator) m hm

section
variable (h : ∀ failure, err (.output failure))
include h

theorem givesOr_write (text : String) : GivesOr err memory (onSink (Sink.write text)) fun _ => True := by
  refine fun m hm => (ends_onSink _ m).mpr ((Sink.write_faults text m.sink).mono ?_ ?_)
  · exact fun _ _ _ => ⟨hm, trivial⟩
  · rintro _ _ ⟨failure, rfl⟩
    exact ⟨hm, h failure⟩

theorem givesOr_writeAll : ∀ texts : List String,
    GivesOr err memory (writeAll texts) fun _ => True
  | [] => givesOr_pure trivial
  | text :: texts => (givesOr_write h text).bind fun _ _ => givesOr_writeAll texts

theorem givesOr_flush : GivesOr err memory flush fun _ => True := by
  refine fun m hm => (ends_onSink _ m).mpr ((Sink.flush_faults m.sink).mono ?_ ?_)
  · exact fun _ _ _ => ⟨hm, trivial⟩
  · rintro _ _ ⟨failure, rfl⟩
    exact ⟨hm, h failure⟩

end

/-- On a machine with the given memory a step leaves a memory in `ok`. If it fails, in a way in
`err`, the memory is the same after it. -/
def StoresOr (err : Fault → Prop) (memory : Memory) (x : Eval Unit) (ok : Memory → Prop) : Prop :=
  ∀ m : Machine, m.memory = memory →
    Ends (x m) (fun _ m' => ok m'.memory) fun f m' => m'.memory = memory ∧ err f

theorem GivesOr.storing {x : Eval α} {next : α → Eval Unit} {ok' : Memory → Prop}
    (h : GivesOr err memory x ok) (hnext : ∀ a, ok a → StoresOr err memory (next a) ok') :
    StoresOr err memory (x >>= next) ok' := by
  intro m hm
  rw [ends_bind]
  exact (h m hm).mono (fun a m' ha => hnext a ha.2 m' ha.1) fun _ _ he => he

theorem storesOr_assign {name : String} {value : Value} {ok : Memory → Prop}
    (h : ok (memory.assign name value)) : StoresOr err memory (assign name value) ok := by
  rintro _ rfl
  exact h

theorem storesOr_replace {name : String} {value : Value} {ok : Memory → Prop}
    (h : ok (memory.replace name value)) : StoresOr err memory (replace name value) ok := by
  rintro _ rfl
  exact h

theorem gives_pure {a : α} (h : ok a) : Gives memory (pure a) ok := givesOr_pure h

theorem gives_atLine {x : Except Cause α} (h : Computes x ok) (line : Nat) :
    Gives memory (atLine line x) ok := givesOr_atLine h

end Eval

theorem forall_of_replicate {α β : Type} {R : α → β → Prop} {a : α} {n : Nat} {bs : List β}
    (h : List.Forall₂ R (List.replicate n a) bs) : bs.length = n ∧ ∀ b ∈ bs, R a b := by
  refine ⟨by rw [← h.length_eq, List.length_replicate], fun b hb => ?_⟩
  obtain ⟨i, hi, rfl⟩ := List.mem_iff_getElem.mp hb
  have := h.get (by rw [h.length_eq]; exact hi) hi
  rwa [List.get_eq_getElem, List.get_eq_getElem, List.getElem_replicate] at this

/-! ## Fragments -/

structure Fragment where
  ops : BinaryOp → Bool
  sizes : Nat → Bool

def Builtin.within (F : Fragment) (arguments : List Expr) : Builtin → Bool
  | print => true
  | sized _ => (sizeArgument? arguments).all F.sizes

mutual

/-- Whether an expression keeps to a fragment. A list of indices may have any size. -/
def Expr.within (F : Fragment) : Expr → Bool
  | .vector ⟨elements, _⟩ => F.sizes elements.length && allWithin F elements
  | .matrix rows _ => F.sizes rows.length && rowsWithin F rows
  | .call function arguments _ => function.within F arguments && allWithin F arguments
  | .binary op left right _ =>
    F.ops op && left.within F &&
      match op, right with
      | .subscript, .vector ⟨indices, _⟩ => allWithin F indices
      | _, right => right.within F
  | .unary _ operand _ => operand.within F
  | _ => true

def allWithin (F : Fragment) : List Expr → Bool
  | [] => true
  | e :: es => e.within F && allWithin F es

def rowsWithin (F : Fragment) : List Row → Bool
  | [] => true
  | ⟨elements, _⟩ :: rows => F.sizes elements.length && allWithin F elements && rowsWithin F rows

end

theorem within_binary (F : Fragment) {op : BinaryOp} (h : op ≠ .subscript) (left right : Expr)
    (line : Nat) : (Expr.binary op left right line).within F =
      (F.ops op && left.within F && right.within F) := by
  rw [Expr.within]
  intro indices indicesLine hop
  exact absurd hop h

/-! ## Senses -/

def BaseType.kind : BaseType → ValueKind
  | int => .int
  | real => .real
  | str => .str
  | bool => .bool

structure Sense extends Fragment where
  leaf : BaseType → Value → Prop

namespace Sense

abbrev builds (S : Sense) (base : BaseType) : Value → Prop :=
  Value.BuiltFrom (S.leaf base) (S.sizes · = true)

def holds (S : Sense) (type : ArrayType) (v : Value) : Prop :=
  type.shape ≠ [] ∧ S.builds type.base v

structure Sound (S : Sense) : Prop where
  own : ∀ {base v}, v.kind = base.kind → S.leaf base v
  zero : ∀ {base}, S.sizes 0 = true → S.leaf base (.int 0)
  arithmetic : ∀ {op base a b}, (op.arithmetic? = some .div → S.ops op = true) →
    S.leaf base a → S.leaf base b → Computes (Value.arithmetic op a b) (S.leaf base)
  quotient : ∀ {v}, S.ops .div = true → v.kind = .real → S.leaf .bool v
  equality : ∀ {op base v}, op ∈ [.equal, .notEqual] → S.ops op = true → v.kind = .bool →
    S.leaf base v
  negate : ∀ {base v}, S.leaf base v → Computes v.negateLeaf (S.leaf base)

namespace Sound

variable {S : Sense}

/-! ## Operators -/

theorem builds_of_kind {base : BaseType} {v : Value} (hk : v.kind ≠ .array) (hl : S.leaf base v) :
    S.builds base v := .scalar (Value.isArray_of_kind hk) hl

theorem scalar (hS : S.Sound) {base : BaseType} {v : Value} (h : v.kind = base.kind) :
    S.builds base v := by
  refine builds_of_kind (fun ha => ?_) (hS.own h)
  rw [h] at ha
  cases base <;> cases ha

theorem arithmetic_scalar (hS : S.Sound) {op : BinaryOp}
    (hop : op.arithmetic? = some .div → S.ops op = true) {base : BaseType} {a b : Value}
    (ha : S.builds base a) (hb : S.builds base b) :
    Computes (Value.arithmetic op a b) (Value.Scalar (S.leaf base)) := by
  -- Arithmetic fails on arrays, so only scalars are left.
  have numbers := Value.arithmetic_computes op a b
  cases ha with
  | array _ _ => exact numbers.imp (fun _ h => by cases h.1)
  | scalar hav hal =>
    cases hb with
    | array _ _ => exact numbers.imp (fun _ h => by cases h.2.1)
    | scalar hbv hbl =>
      refine (numbers.and (hS.arithmetic hop hal hbl)).imp (fun c hc => ⟨?_, hc.2⟩)
      refine Value.isArray_of_kind fun hk => ?_
      rw [hc.1.2.2] at hk
      split at hk <;> cases hk

theorem comparison_builds {op : BinaryOp} {base : BaseType}
    (h : ∀ v : Value, v.kind = .bool → S.leaf base v) (a b : Value) :
    Computes (Value.comparison op a b) (S.builds base) :=
  (Value.comparison_computes op a b).imp
    (fun c hc => builds_of_kind (by rw [hc]; simp) (h c hc))

theorem zip_arithmetic (hS : S.Sound) {op : BinaryOp} (hop : S.ops op = true) {base : BaseType}
    {v w : Value} (hv : S.builds base v) (hw : S.builds base w) :
    Computes (Value.zipLeaves (Value.arithmetic op) v w) (S.builds base) := by
  refine Value.zipLeaves_computes (fun a b ha hb hal hbl => ?_) hv hw
  exact (hS.arithmetic_scalar (fun _ => hop) (.scalar ha hal) (.scalar hb hbl)).imp
    fun _ h => h.builtFrom

theorem apply_same (hS : S.Sound) {op : BinaryOp}
    (hm : op ∈ [.add, .sub, .dotAdd, .dotSub, .dotMul, .dotDiv, .equal, .notEqual])
    (hop : S.ops op = true) {base : BaseType} {v w : Value} (hv : S.builds base v)
    (hw : S.builds base w) : Computes (op.apply v w) (S.builds base) := by
  have comparison : op ∈ [.equal, .notEqual] →
      Computes (Value.zipLeaves (Value.comparison op) v w) (S.builds base) := fun he =>
    Value.zipLeaves_computes (fun a b _ _ _ _ =>
      comparison_builds (fun _ hk => hS.equality he hop hk) a b) hv hw
  cases op with
  | add | sub | dotAdd | dotSub | dotMul | dotDiv => exact hS.zip_arithmetic hop hv hw
  | equal | notEqual => exact comparison (by simp)
  | _ => simp at hm

theorem apply_product (hS : S.Sound) {base : BaseType} {v w : Value} (hv : S.builds base v)
    (hw : S.builds base w) : Computes (BinaryOp.mul.apply v w) (S.builds base) := by
  have hmul : ∀ a b, S.builds base a → S.builds base b →
      Computes (Value.arithmetic .mul a b) (Value.Scalar (S.leaf base)) :=
    fun a b => hS.arithmetic_scalar (fun h => by cases h)
  by_cases harray : (v.isArray && w.isArray) = true
  · rw [BinaryOp.apply, if_pos harray]
    refine Value.product_computes hmul (fun a b ha hb => ?_) hS.zero hv hw
    exact hS.arithmetic_scalar (fun h => by cases h) ha.builtFrom hb.builtFrom
  · rw [BinaryOp.apply, if_neg harray]
    refine Value.zipLeaves_computes (fun a b ha hb hal hbl => ?_) hv hw
    exact (hmul a b (.scalar ha hal) (.scalar hb hbl)).imp (fun _ h => h.builtFrom)

theorem apply_compare (hS : S.Sound) {op : BinaryOp}
    (hm : op ∈ [.div, .greater, .greaterEqual, .less, .lessEqual]) (hop : S.ops op = true)
    {left right : BaseType} {v w : Value} (hv : S.builds left v) (hw : S.builds right w) :
    Computes (op.apply v w) (S.builds .bool) := by
  have zip : ∀ {f : Value → Value → Except Cause Value},
      (∀ a b, Computes (f a b) (S.builds .bool)) →
      Computes (Value.zipLeaves f v w) (S.builds .bool) := by
    intro f hf
    refine Value.zipLeaves_computes (P := fun _ => True) (fun a b _ _ _ _ => hf a b) ?_ ?_
    · exact hv.mono (fun _ _ => trivial) fun _ hn => hn
    · exact hw.mono (fun _ _ => trivial) fun _ hn => hn
  have comparison : Computes (Value.zipLeaves (Value.comparison op) v w) (S.builds .bool) :=
    zip (comparison_builds fun _ hk => hS.own hk)
  cases op with
  | greater | greaterEqual | less | lessEqual => exact comparison
  | div =>
    refine zip fun a b => (Value.arithmetic_computes .div a b).imp (fun c hc => ?_)
    have hk : c.kind = .real := by rw [hc.2.2, if_neg (by simp [BinaryOp.arithmetic?])]
    exact builds_of_kind (by rw [hk]; simp) (hS.quotient hop hk)
  | _ => simp at hm

theorem apply_holds (hS : S.Sound) {op : BinaryOp} {left right type : ArrayType}
    (h : op.Types left right type) (hop : S.ops op = true) {v w : Value} (hv : S.holds left v)
    (hw : S.holds right w) : Computes (op.apply v w) (S.holds type) := by
  cases h with
  | same hm => exact (hS.apply_same hm hop hv.2 hw.2).imp (fun _ hc => ⟨hv.1, hc⟩)
  | product hm hk hk' hn =>
    exact (hS.apply_product hv.2 hw.2).imp (fun _ hc => ⟨by simp, hc⟩)
  | compare hm =>
    refine (hS.apply_compare hm hop hv.2 hw.2).imp (fun _ hc => ⟨?_, hc⟩)
    exact scalar_shape _
  | logic hm =>
    have computed : Computes (Value.logic op v w) (S.holds (.scalar .bool)) :=
      (Value.logic_computes op v w).imp (fun _ hc => ⟨scalar_shape _, hS.scalar hc⟩)
    cases op with
    | and | or | xor => exact computed
    | _ => simp at hm

theorem combine_builds (hS : S.Sound) {op : AssignOp} (hop : op.binary?.all S.ops = true)
    {base : BaseType} {v w : Value} (hv : S.builds base v) (hw : S.builds base w) :
    Computes (op.combine v w) (S.builds base) := by
  cases op with
  | set => exact hw
  | mul => exact hS.apply_product hv hw
  | add | sub | div => exact hS.zip_arithmetic hop hv hw

theorem negate_holds (hS : S.Sound) {type : ArrayType} {v : Value} (hv : S.holds type v) :
    Computes (UnaryOp.negate.apply v) (S.holds type) := by
  have leaves : Computes v.negate (S.builds type.base) := by
    refine Value.mapLeaves_yields (fun a ha hal => ?_) hv.2
    refine ((Value.negateLeaf_computes a).and (hS.negate hal)).imp (fun c hc => ?_)
    exact builds_of_kind (by rw [hc.1]; exact Value.kind_of_isArray ha) hc.2
  exact leaves.imp (fun _ hc => ⟨hv.1, hc⟩)

theorem transpose_holds {type : ArrayType} {v : Value} (hv : S.holds type v) :
    Computes (UnaryOp.transpose.apply v) (S.holds type.transpose) :=
  (Value.transpose_computes hv.2).imp
    (fun _ hc => ⟨by simpa [ArrayType.transpose] using hv.1, hc⟩)

end Sound

/-! ## Expressions -/

def Typed (S : Sense) (table : Table) (memory : Memory) : Prop :=
  ∀ name type, table.lookup? name = some type →
    ∃ value, memory.lookup? name = some value ∧ S.holds type value

section
variable {S : Sense} {table : Table} {memory : Memory}

theorem Typed.lookup (h : S.Typed table memory) {name : String} {type : ArrayType}
    (hn : table.lookup? name = some type) (line : Nat) :
    (Eval.lookup name line).Gives memory (S.holds type) := by
  obtain ⟨value, hv, hr⟩ := h name type hn
  exact Eval.givesOr_lookup hv hr line

theorem element_holds {type : ArrayType} {v : Value} (hv : S.holds type v) (indices : List Int64) :
    Computes (v.element indices) (S.holds (.scalar type.base)) :=
  (Value.elementFrom_computes _ hv.2).imp fun _ hc => ⟨scalar_shape _, hc⟩

theorem toInteger_computes (v : Value) : Computes v.toInteger fun i => v = .int i := by
  cases v <;> rfl

theorem array_builds {type : ArrayType} {elements : List Expr} {n : Nat} {vs : List Value}
    (ht : HaveTypes table elements (List.replicate n type)) (hs : S.sizes elements.length = true)
    (h : List.Forall₂ S.holds (List.replicate n type) vs) : S.builds type.base (.array vs) := by
  have hlen : vs.length = elements.length := by rw [← h.length_eq, ht.length]
  refine .array (by rw [hlen]; exact hs) fun v hv => ?_
  exact ((forall_of_replicate h).2 v hv).2

theorem build_holds (hS : S.Sound) (function : Sized) {size : Int64} {n : Nat}
    (hn : Integer.toSize? size = some n) (hs : S.sizes n = true) (allocator : Allocator) :
    Computes (function.build allocator [.int size]) (S.holds ⟨.real, [n, n]⟩) := by
  have built : S.builds .real (function.ofSize n) :=
    (Value.ofSize_builtFrom function hs).mono (fun _ hk => hS.own hk) fun _ h => h
  unfold Sized.build
  refine (toInteger_computes (.int size)).bind fun i hi => ?_
  cases hi
  rw [hn]
  dsimp only
  split
  · exact ⟨by simp, built⟩
  · rfl

theorem operation_holds (hS : S.Sound) {op : BinaryOp} {left right : Expr}
    {leftType rightType type : ArrayType} (h : op.Types leftType rightType type)
    (hop : S.ops op = true)
    (hl : left.eval.Gives memory fun v? => ∃ v, v? = some v ∧ S.holds leftType v)
    (hr : right.eval.Gives memory fun v? => ∃ v, v? = some v ∧ S.holds rightType v) (line : Nat) :
    (Expr.binary op left right line).eval.Gives memory
      fun v? => ∃ v, v? = some v ∧ S.holds type v := by
  rw [Expr.eval]
  refine (hl.need _).bind fun v hv => ?_
  rw [if_neg h.ne_subscript]
  refine (hr.need _).bind fun w hw => ?_
  exact (Eval.gives_atLine (hS.apply_holds h hop hv hw) _).value

mutual

theorem eval_holds (hS : S.Sound) (hm : S.Typed table memory) {e : Expr} {type : ArrayType}
    (h : HasType table e type) (hw : e.within S.toFragment = true) :
    e.eval.Gives memory fun v? => ∃ v, v? = some v ∧ S.holds type v := by
  match h with
  | .int => exact Eval.gives_pure ⟨_, rfl, scalar_shape _, hS.scalar rfl⟩
  | .real => exact Eval.gives_pure ⟨_, rfl, scalar_shape _, hS.scalar rfl⟩
  | .str => exact Eval.gives_pure ⟨_, rfl, scalar_shape _, hS.scalar rfl⟩
  | .name hn => exact (hm.lookup hn _).value
  | .emptyVector =>
    rw [Expr.within, Bool.and_eq_true] at hw
    refine Eval.GivesOr.value (Eval.gives_pure ⟨by simp, .array hw.1 fun _ hv => ?_⟩)
    cases hv
  | .vector hts =>
    rw [Expr.within, Bool.and_eq_true] at hw
    refine (evalAll_holds hS hm hts hw.2).1.bind fun vs hvs => ?_
    exact Eval.gives_pure ⟨_, rfl, by simp, (array_builds hts hw.1 hvs :)⟩
  | .matrix hrows =>
    rw [Expr.within, Bool.and_eq_true] at hw
    refine (evalRows_holds hS hm hrows hw.2).bind fun vs hvs => ?_
    exact Eval.gives_pure ⟨_, rfl, by simp, .array (by rw [hvs.1]; exact hw.1) hvs.2⟩
  | .sized hn =>
    rw [Expr.within, Bool.and_eq_true, Builtin.within, sizeArgument?, hn] at hw
    exact (Eval.givesOr_build (build_holds hS _ hn hw.1)).value
  | .element hn hts =>
    rw [Expr.within, Bool.and_eq_true] at hw
    refine ((hm.lookup hn _).value.need _).bind fun v hv => ?_
    refine ((evalAll_holds hS hm hts hw.2).2 _).bind fun indices _ => ?_
    exact (Eval.gives_atLine (element_holds hv indices) _).value
  | .binary hl hr hop =>
    rw [within_binary _ hop.ne_subscript, Bool.and_eq_true, Bool.and_eq_true] at hw
    exact operation_holds hS hop hw.1.1 (eval_holds hS hm hl hw.1.2) (eval_holds hS hm hr hw.2) _
  | .negate ho =>
    refine ((eval_holds hS hm ho hw).need _).bind fun v hv => ?_
    exact (Eval.gives_atLine (hS.negate_holds hv) _).value
  | .transpose ho =>
    refine ((eval_holds hS hm ho hw).need _).bind fun v hv => ?_
    exact (Eval.gives_atLine (Sound.transpose_holds hv) _).value

theorem evalAll_holds (hS : S.Sound) (hm : S.Typed table memory) {es : List Expr}
    {types : List ArrayType} (h : HaveTypes table es types)
    (hw : allWithin S.toFragment es = true) :
    (evalAll es).Gives memory (List.Forall₂ S.holds types) ∧
      ∀ line, (evalIndices line es).Gives memory fun _ => True := by
  match h with
  | .nil => exact ⟨Eval.gives_pure .nil, fun _ => Eval.gives_pure trivial⟩
  | .cons he hes =>
    rw [allWithin, Bool.and_eq_true] at hw
    have first := (eval_holds hS hm he hw.1).need
    obtain ⟨values, indices⟩ := evalAll_holds hS hm hes hw.2
    constructor
    · refine (first _).bind fun v hv => values.bind fun vs hvs => ?_
      exact Eval.gives_pure (.cons hv hvs)
    · intro line
      refine (first _).bind fun v hv => (Eval.gives_atLine (toInteger_computes v) line).bind fun _ _ => ?_
      exact (indices line).bind fun _ _ => Eval.gives_pure trivial

theorem evalRows_holds (hS : S.Sound) (hm : S.Typed table memory) {base : BaseType} {width : Nat}
    {rows : List Row} (h : HaveRows table base width rows)
    (hw : rowsWithin S.toFragment rows = true) :
    (evalRows rows).Gives memory fun vs => vs.length = rows.length ∧ ∀ v ∈ vs, S.builds base v := by
  match h with
  | .nil => exact Eval.gives_pure ⟨rfl, fun _ hv => by cases hv⟩
  | .cons hts hrows =>
    rw [rowsWithin, Bool.and_eq_true, Bool.and_eq_true] at hw
    refine (evalAll_holds hS hm hts hw.1.2).1.bind fun vs hvs => ?_
    refine (evalRows_holds hS hm hrows hw.2).bind fun arrays harrays => ?_
    refine Eval.gives_pure ⟨by rw [List.length_cons, List.length_cons, harrays.1], fun v hv => ?_⟩
    rcases List.mem_cons.mp hv with rfl | hv
    · exact array_builds hts hw.1.1 hvs
    · exact harrays.2 v hv

end

end

end Sense

end MatrixScript
