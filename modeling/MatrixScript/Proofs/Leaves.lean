import MatrixScript.Operator.Apply
import MatrixScript.Operator.Sized
import MatrixScript.Proofs.InPlace

/-!
# What values are built from

`v.BuiltFrom P N`: all scalars of `v` satisfy `leaf`, and all its arrays
have lengths in `size`. Every operation that rearranges values keeps this, and
one that computes new scalars keeps it if its operation on scalars does. None of
them fails for a reason that checking rules out.
-/

namespace MatrixScript

/-- The faults of a program that a check of its names and its structure finds. -/
def Cause.ruledOut : Cause → Bool
  | unknownVariable _ => true
  | missingValue => true
  | jumpOutsideLoop _ => true
  | argumentCount _ _ _ => true
  | negativeSize _ _ => true
  | invalidTarget => true
  | indexListExpected => true
  | rangeExpected _ => true
  | _ => false

/-- An operation on values has a result in `ok`, or fails in a way that is not ruled out. -/
abbrev Computes {α : Type} (x : Except Cause α) (ok : α → Prop) : Prop :=
  Yields x ok fun cause => cause.ruledOut = false

def Cause.ofScalars : Cause → Bool
  | cannotApply _ _ _ => true
  | booleanExpected => true
  | numberExpected => true
  | divisionByZero => true
  | overflow => true
  | inexactInteger => true
  | _ => false

theorem Cause.ruledOut_of_scalars {cause : Cause} (h : cause.ofScalars = true) :
    cause.ruledOut = false := by
  cases cause <;> first | rfl | cases h

abbrev Scalarly {α : Type} (x : Except Cause α) (ok : α → Prop) : Prop :=
  Yields x ok fun cause => cause.ofScalars = true

theorem Scalarly.computes {α : Type} {x : Except Cause α} {ok : α → Prop} (h : Scalarly x ok) :
    Computes x ok := h.mono (fun _ ha => ha) fun _ hc => Cause.ruledOut_of_scalars hc

namespace Value

inductive BuiltFrom (P : Value → Prop) (N : Nat → Prop) : Value → Prop
  | scalar {v} : v.isArray = false → P v → BuiltFrom P N v
  | array {items} : N items.length → (∀ item ∈ items, BuiltFrom P N item) →
      BuiltFrom P N (array items)

section
variable {P Q : Value → Prop} {N : Nat → Prop}

theorem BuiltFrom.length {items : List Value} (h : (Value.array items).BuiltFrom P N) :
    N items.length := by
  cases h with
  | scalar hv _ => cases hv
  | array hs _ => exact hs

theorem BuiltFrom.items {items : List Value} (h : (Value.array items).BuiltFrom P N) :
    ∀ item ∈ items, item.BuiltFrom P N := by
  cases h with
  | scalar hv _ => cases hv
  | array _ hi => exact hi

theorem BuiltFrom.mono {N' : Nat → Prop} {v : Value} (h : v.BuiltFrom P N)
    (hl : ∀ v, P v → Q v) (hs : ∀ n, N n → N' n) : v.BuiltFrom Q N' := by
  induction h with
  | scalar hv hleaf => exact .scalar hv (hl _ hleaf)
  | array hn _ ih => exact .array (hs _ hn) ih

mutual

def leaves : Value → List Value
  | array items => allLeaves items
  | v => [v]

def allLeaves : List Value → List Value
  | [] => []
  | item :: items => item.leaves ++ allLeaves items

end

theorem leaves_scalar {v : Value} (h : v.isArray = false) : v.leaves = [v] := by
  cases v with
  | array items => cases h
  | _ => rfl

theorem mem_allLeaves {leaf : Value} : ∀ {items : List Value}, leaf ∈ allLeaves items →
    ∃ item ∈ items, leaf ∈ item.leaves
  | item :: items, h => by
    rw [allLeaves, List.mem_append] at h
    rcases h with h | h
    · exact ⟨item, List.mem_cons_self, h⟩
    · obtain ⟨other, ho, hl⟩ := mem_allLeaves h
      exact ⟨other, List.mem_cons_of_mem item ho, hl⟩

theorem BuiltFrom.leaves {v : Value} (h : v.BuiltFrom P N) :
    ∀ leaf ∈ v.leaves, P leaf := by
  induction h with
  | @scalar v hs hl =>
    intro leaf hm
    rw [leaves_scalar hs, List.mem_singleton] at hm
    rw [hm]
    exact hl
  | array _ _ ih =>
    intro leaf hm
    rw [Value.leaves] at hm
    obtain ⟨item, hi, hl⟩ := mem_allLeaves hm
    exact ih item hi leaf hl

/-! ## Scalars -/

theorem isArray_of_kind {v : Value} (h : v.kind ≠ .array) : v.isArray = false := by
  cases v with
  | array items => exact absurd rfl h
  | _ => rfl

theorem kind_of_isArray {v : Value} (h : v.isArray = false) : v.kind ≠ .array := by
  cases v with
  | array items => cases h
  | _ => simp [kind]

theorem eq_int_of_kind {v : Value} (h : v.kind = .int) : ∃ i, v = int i := by
  cases v with
  | int i => exact ⟨i, rfl⟩
  | _ => cases h

theorem toReal_scalarly (v : Value) : Scalarly v.toReal fun _ => True := by
  cases v with
  | int value =>
    unfold toReal
    dsimp only
    split <;> trivial
  | _ => trivial

theorem realArithmetic_scalarly (op : BinaryOp) (a b : Value) :
    Scalarly (realArithmetic op a b) (·.kind = .real) := by
  unfold realArithmetic
  refine (toReal_scalarly a).bind fun x _ => (toReal_scalarly b).bind fun y _ => ?_
  split
  · rfl
  · rfl
  · rfl
  · split <;> rfl
  · rfl

/-- Only numbers are computed with. Integers give an integer, unless they are
divided; all else gives a real. -/
theorem arithmetic_scalarly (op : BinaryOp) (a b : Value) :
    Scalarly (arithmetic op a b) fun c => a.isNumber = true ∧ b.isNumber = true ∧ c.kind =
      if a.kind = .int ∧ b.kind = .int ∧ op.arithmetic? ≠ some .div then .int else .real := by
  have fits : ∀ i? : Option Int64, Scalarly (ofInteger? i?) (·.kind = .int) := by
    intro i?
    cases i? <;> rfl
  unfold arithmetic
  split
  · simp only [isNumber, true_and]
    split
    · rename_i h; simp only [kind, h]; exact fits _
    · rename_i h; simp only [kind, h]; exact fits _
    · rename_i h; simp only [kind, h]; exact fits _
    · rename_i h; simp only [kind, h]; exact realArithmetic_scalarly op _ _
    · rfl
  · rename_i hab
    have hne : ¬ (a.kind = .int ∧ b.kind = .int ∧ op.arithmetic? ≠ some .div) := by
      rintro ⟨ha, hb, -⟩
      obtain ⟨x, rfl⟩ := eq_int_of_kind ha
      obtain ⟨y, rfl⟩ := eq_int_of_kind hb
      exact hab x y rfl rfl
    rw [if_neg hne]
    split
    · rename_i hn
      rw [Bool.and_eq_true] at hn
      exact (realArithmetic_scalarly op a b).imp (fun _ hc => ⟨hn.1, hn.2, hc⟩)
    · rfl

theorem arithmetic_computes (op : BinaryOp) (a b : Value) :
    Computes (arithmetic op a b) fun c => a.isNumber = true ∧ b.isNumber = true ∧ c.kind =
      if a.kind = .int ∧ b.kind = .int ∧ op.arithmetic? ≠ some .div then .int else .real :=
  (arithmetic_scalarly op a b).computes

theorem comparison_scalarly (op : BinaryOp) (a b : Value) :
    Scalarly (comparison op a b) (·.kind = .bool) := by
  unfold comparison
  split
  · simp only [pure_bind]
    split <;> rfl
  · simp only [pure_bind]
    split <;> rfl
  · simp only [pure_bind]
    split <;> rfl
  · split
    · simp only [pure_bind]
      refine (toReal_scalarly a).bind fun _ _ => (toReal_scalarly b).bind fun _ _ => ?_
      split <;> rfl
    · rfl

theorem comparison_computes (op : BinaryOp) (a b : Value) :
    Computes (comparison op a b) (·.kind = .bool) := (comparison_scalarly op a b).computes

theorem toBool_scalarly (v : Value) : Scalarly v.toBool fun _ => True := by
  cases v <;> trivial

theorem logic_scalarly (op : BinaryOp) (a b : Value) :
    Scalarly (logic op a b) (·.kind = .bool) := by
  unfold logic
  refine (toBool_scalarly a).bind fun x _ => (toBool_scalarly b).bind fun y _ => ?_
  split <;> rfl

theorem logic_computes (op : BinaryOp) (a b : Value) :
    Computes (logic op a b) (·.kind = .bool) := (logic_scalarly op a b).computes

theorem negateLeaf_scalarly (v : Value) : Scalarly (negateLeaf v) (·.kind = v.kind) := by
  cases v with
  | int value =>
    unfold negateLeaf ofInteger?
    dsimp only
    split <;> rfl
  | _ => rfl

theorem negateLeaf_computes (v : Value) : Computes (negateLeaf v) (·.kind = v.kind) :=
  (negateLeaf_scalarly v).computes

/-! What is computed from scalars is no array. -/

theorem arithmetic_isArray (op : BinaryOp) (a b : Value) :
    Scalarly (arithmetic op a b) (·.isArray = false) := by
  refine (arithmetic_scalarly op a b).imp fun c hc => isArray_of_kind fun hk => ?_
  rw [hc.2.2] at hk
  split at hk <;> cases hk

theorem comparison_isArray (op : BinaryOp) (a b : Value) :
    Scalarly (comparison op a b) (·.isArray = false) :=
  (comparison_scalarly op a b).imp fun c hc => isArray_of_kind (by simp [hc])

theorem negateLeaf_isArray {a : Value} (ha : a.isArray = false) :
    Scalarly (negateLeaf a) (·.isArray = false) := by
  refine (negateLeaf_scalarly a).imp fun c hc => isArray_of_kind ?_
  rw [hc]
  exact kind_of_isArray ha

/-! ## Element by element -/

theorem mapLeaves_scalar (f : Value → Except Cause Value) {v : Value} (hv : v.isArray = false) :
    mapLeaves f v = f v := by
  cases v with
  | array items => cases hv
  | _ => rfl

theorem mapAllLeaves_eq (f : Value → Except Cause Value) :
    ∀ items : List Value, mapAllLeaves f items = items.mapM (mapLeaves f)
  | [] => rfl
  | item :: items => by rw [mapAllLeaves, mapAllLeaves_eq f items, List.mapM_cons]

theorem mapLeaves_yields {err : Cause → Prop} {f : Value → Except Cause Value} {v : Value}
    (hf : ∀ a, a.isArray = false → P a → Yields (f a) (BuiltFrom Q N) err)
    (hv : v.BuiltFrom P N) : Yields (mapLeaves f v) (BuiltFrom Q N) err := by
  induction hv with
  | scalar hs hl => rw [mapLeaves_scalar f hs]; exact hf _ hs hl
  | array hn _ ih =>
    rw [mapLeaves, mapAllLeaves_eq]
    refine (yields_mapM ih).bind fun items h => ?_
    exact .array (by rw [h.1]; exact hn) h.2

theorem shape_yields {err : Cause → Prop} (ragged : err .raggedArray) (v : Value) :
    Yields v.shape (fun sizes => v.shape? = some sizes) err := by
  unfold shape
  cases v.shape? with
  | none => exact ragged
  | some sizes => rfl

theorem shape_computes (v : Value) : Computes v.shape fun sizes => v.shape? = some sizes :=
  shape_yields (by rfl) v

theorem zipLeaves_scalar (f : Value → Value → Except Cause Value) {left : Value}
    (hl : left.isArray = false) (right : Value) :
    zipLeaves f left right = mapLeaves (f left) right := by
  cases left with
  | array items => cases hl
  | _ => cases right <;> rfl

theorem zipLeaves_array_scalar (f : Value → Value → Except Cause Value) (lefts : List Value)
    {right : Value} (hr : right.isArray = false) :
    zipLeaves f (array lefts) right = mapLeaves (f · right) (array lefts) := by
  cases right with
  | array items => cases hr
  | _ => rfl

theorem zipAllLeaves_eq (f : Value → Value → Except Cause Value) :
    ∀ lefts rights : List Value,
      zipAllLeaves f lefts rights = (lefts.zip rights).mapM fun p => zipLeaves f p.1 p.2
  | [], _ => by simp [zipAllLeaves]
  | _ :: _, [] => by simp [zipAllLeaves]
  | left :: lefts, right :: rights => by
    rw [zipAllLeaves, zipAllLeaves_eq f lefts rights, List.zip_cons_cons, List.mapM_cons]

section
variable {err : Cause → Prop} (ragged : err .raggedArray)
  (mismatched : ∀ left right, err (.shapeMismatch left right))
include ragged mismatched

theorem mismatch_yields (left right : Value) {ok : Value → Prop} :
    Yields (mismatch left right) ok err := by
  unfold mismatch
  exact (shape_yields ragged left).bind fun _ _ =>
    (shape_yields ragged right).bind fun _ _ => mismatched _ _

theorem zipLeaves_yields {f : Value → Value → Except Cause Value}
    (hf : ∀ a b, a.isArray = false → b.isArray = false → P a → P b →
      Yields (f a b) (BuiltFrom Q N) err) {left right : Value}
    (hl : left.BuiltFrom P N) (hr : right.BuiltFrom P N) :
    Yields (zipLeaves f left right) (BuiltFrom Q N) err := by
  induction hl generalizing right with
  | scalar hs hleaf =>
    rw [zipLeaves_scalar f hs]
    exact mapLeaves_yields (fun b hb hlb => hf _ b hs hb hleaf hlb) hr
  | @array lefts hn hi ih =>
    cases hr with
    | scalar hs hleaf =>
      rw [zipLeaves_array_scalar f lefts hs]
      exact mapLeaves_yields (fun a ha hla => hf a _ ha hs hla hleaf) (.array hn hi)
    | @array rights hn' hi' =>
      rw [zipLeaves]
      split
      · rename_i hlen
        rw [zipAllLeaves_eq]
        have each : ∀ p ∈ lefts.zip rights, Yields (zipLeaves f p.1 p.2) (BuiltFrom Q N) err := by
          intro p hp
          have hp' := List.of_mem_zip hp
          exact ih p.1 hp'.1 (hi' p.2 hp'.2)
        refine (yields_mapM each).bind fun items h => .array ?_ h.2
        rw [h.1, List.length_zip, ← hlen, Nat.min_self]
        exact hn
      · exact mismatch_yields ragged mismatched _ _

end

theorem zipLeaves_computes {f : Value → Value → Except Cause Value}
    (hf : ∀ a b, a.isArray = false → b.isArray = false → P a → P b →
      Computes (f a b) (BuiltFrom Q N)) {left right : Value}
    (hl : left.BuiltFrom P N) (hr : right.BuiltFrom P N) :
    Computes (zipLeaves f left right) (BuiltFrom Q N) :=
  zipLeaves_yields (by rfl) (by simp [Cause.ruledOut]) hf hl hr

/-! ## Products -/

def Scalar (P : Value → Prop) (v : Value) : Prop := v.isArray = false ∧ P v

theorem Scalar.builtFrom {v : Value} (h : Scalar P v) : v.BuiltFrom P N := .scalar h.1 h.2

theorem toItems_computes {v : Value} (h : v.BuiltFrom P N) :
    Computes v.toItems fun items => N items.length ∧ ∀ item ∈ items, item.BuiltFrom P N := by
  cases v with
  | array items => exact ⟨h.length, h.items⟩
  | _ => rfl

section
variable {err : Cause → Prop}
  (hadd : ∀ a b, P a → P b → Yields (arithmetic .add a b) P err)
include hadd

theorem sumFrom_yields : ∀ {terms : List (Except Cause Value)} {total : Value}, P total →
    (∀ t ∈ terms, Yields t P err) → Yields (sumFrom total terms) P err
  | [], _, ht, _ => ht
  | term :: terms, total, ht, h => by
    rw [sumFrom]
    refine (h term List.mem_cons_self).bind fun value hv => ?_
    refine (hadd total value ht hv).bind fun total' ht' => ?_
    exact sumFrom_yields ht' fun t hm => h t (List.mem_cons_of_mem term hm)

/-- A sum of corresponding terms. Only without terms it is zero, whatever these are like. -/
theorem sum_zipWith_yields {α : Type} {f : Value → α → Except Cause Value} {xs : List Value}
    {ys : List α} (hzero : xs = [] ∨ ys = [] → P (int 0))
    (hf : ∀ x ∈ xs, ∀ y ∈ ys, Yields (f x y) P err) : Yields (sum (List.zipWith f xs ys)) P err := by
  match xs, ys with
  | [], _ => exact hzero (.inl rfl)
  | _ :: _, [] => exact hzero (.inr rfl)
  | x :: xs, y :: ys =>
    rw [List.zipWith_cons_cons, sum]
    refine (hf x List.mem_cons_self y List.mem_cons_self).bind fun total ht => ?_
    refine sumFrom_yields hadd ht fun t hm => ?_
    rw [← List.map_uncurry_zip_eq_zipWith] at hm
    obtain ⟨p, hp, rfl⟩ := List.mem_map.mp hm
    have hp' := List.of_mem_zip hp
    exact hf p.1 (List.mem_cons_of_mem x hp'.1) p.2 (List.mem_cons_of_mem y hp'.2)

end

section
-- products of scalars and sums of these stay in `P`; so does the empty sum, if there is one
variable (hmul : ∀ a b, a.BuiltFrom P N → b.BuiltFrom P N → Computes (arithmetic .mul a b) (Scalar P))
  (hadd : ∀ a b, Scalar P a → Scalar P b → Computes (arithmetic .add a b) (Scalar P))
  (hzero : N 0 → P (int 0))
include hmul hadd hzero

omit hmul in
theorem sum_zipWith_computes {α : Type} {f : Value → α → Except Cause Value} {xs : List Value}
    {ys : List α} (hx : N xs.length) (hy : N ys.length)
    (hf : ∀ x ∈ xs, ∀ y ∈ ys, Computes (f x y) (Scalar P)) :
    Computes (sum (List.zipWith f xs ys)) (Scalar P) := by
  refine sum_zipWith_yields hadd ?_ hf
  rintro (rfl | rfl)
  · exact ⟨rfl, hzero hx⟩
  · exact ⟨rfl, hzero hy⟩

theorem dotItems_computes {xs ys : List Value} (hx : (array xs).BuiltFrom P N)
    (hy : (array ys).BuiltFrom P N) : Computes (dotItems xs ys) (Scalar P) :=
  sum_zipWith_computes hadd hzero hx.length hy.length fun x hxm y hym =>
    hmul x y (hx.items x hxm) (hy.items y hym)

theorem columnEntry_computes {xs rows : List Value} (hx : (array xs).BuiltFrom P N)
    (hr : (array rows).BuiltFrom P N) (col : Nat) :
    Computes (columnEntry xs rows col) (Scalar P) := by
  refine sum_zipWith_computes hadd hzero hx.length hr.length fun x hxm row hrm => ?_
  have hcol : Computes (column row col) (BuiltFrom P N) := by
    unfold column
    refine (toItems_computes (hr.items row hrm)).bind fun items hi => ?_
    split
    · rename_i item hitem
      exact hi.2 item (List.mem_of_getElem? hitem)
    · rfl
  exact hcol.bind fun y hy => hmul x y (hx.items x hxm) hy

theorem columnEntries_computes {xs rows : List Value} (hx : (array xs).BuiltFrom P N)
    (hr : (array rows).BuiltFrom P N) {columns : Nat} (hc : N columns) :
    Computes (columnEntries xs rows columns) (BuiltFrom P N) := by
  unfold columnEntries
  have each : ∀ col ∈ List.range columns, Computes (columnEntry xs rows col) (Scalar P) :=
    fun col _ => columnEntry_computes hmul hadd hzero hx hr col
  refine (yields_mapM each).bind fun items h => .array ?_ fun item hi => (h.2 item hi).builtFrom
  rw [h.1, List.length_range]
  exact hc

end

theorem toItems_array {v : Value} (h : v.BuiltFrom P N) :
    Computes v.toItems fun items => (array items).BuiltFrom P N :=
  (toItems_computes h).imp (fun _ hi => .array hi.1 hi.2)

theorem shape?_size {v : Value} (h : v.BuiltFrom P N) :
    ∀ {sizes : List Nat}, v.shape? = some sizes → ∀ n ∈ sizes, N n := by
  induction h with
  | @scalar v hs _ =>
    intro sizes hsz n hn
    have : v.shape? = some [] := by cases v <;> first | rfl | cases hs
    rw [this] at hsz
    cases hsz
    cases hn
  | @array items hn hi ih =>
    intro sizes hsz n hmem
    rw [shape?] at hsz
    match items with
    | [] =>
      rw [itemsShape?] at hsz
      cases hsz
      rw [List.mem_singleton.mp hmem]
      exact hn
    | first :: others =>
      rw [itemsShape?] at hsz
      cases hf : first.shape? with
      | none => rw [hf] at hsz; cases hsz
      | some inner =>
        simp only [hf, Option.bind_eq_bind, Option.bind_some] at hsz
        split at hsz
        · cases hsz
          rcases List.mem_cons.mp hmem with rfl | hmem
          · exact hn
          · exact ih first List.mem_cons_self hf n hmem
        · cases hsz

theorem product_computes
    (hmul : ∀ a b, a.BuiltFrom P N → b.BuiltFrom P N → Computes (arithmetic .mul a b) (Scalar P))
    (hadd : ∀ a b, Scalar P a → Scalar P b → Computes (arithmetic .add a b) (Scalar P))
    (hzero : N 0 → P (int 0)) {left right : Value} (hl : left.BuiltFrom P N)
    (hr : right.BuiltFrom P N) : Computes (left.product right) (BuiltFrom P N) := by
  unfold product
  refine (shape_computes left).bind fun leftShape hls => ?_
  refine (shape_computes right).bind fun rightShape hrs => ?_
  split
  · split
    · refine (toItems_array hl).bind fun xs hx => (toItems_array hr).bind fun ys hy => ?_
      exact (dotItems_computes hmul hadd hzero hx hy).imp (fun _ h => h.builtFrom)
    · rfl
  · split
    · refine (toItems_array hl).bind fun rows hrows => (toItems_array hr).bind fun ys hy => ?_
      have each : ∀ row ∈ rows,
          Computes (do dotItems (← row.toItems) ys) (BuiltFrom P N) := fun row hm =>
        (toItems_array (hrows.items row hm)).bind fun xs hx =>
          (dotItems_computes hmul hadd hzero hx hy).imp (fun _ h => h.builtFrom)
      refine (yields_mapM each).bind fun items h => .array ?_ h.2
      rw [h.1]; exact hrows.length
    · rfl
  · rename_i n
    have hn : N n := shape?_size hr hrs n (by simp)
    split
    · exact (toItems_array hl).bind fun xs hx => (toItems_array hr).bind fun rows hrows =>
        columnEntries_computes hmul hadd hzero hx hrows hn
    · rfl
  · rename_i n
    have hn : N n := shape?_size hr hrs n (by simp)
    split
    · refine (toItems_array hl).bind fun lefts hlefts => (toItems_array hr).bind fun rows hrows => ?_
      have each : ∀ row ∈ lefts,
          Computes (do columnEntries (← row.toItems) rows n) (BuiltFrom P N) := fun row hm =>
        (toItems_array (hlefts.items row hm)).bind fun xs hx =>
          columnEntries_computes hmul hadd hzero hx hrows hn
      refine (yields_mapM each).bind fun items h => .array ?_ h.2
      rw [h.1]; exact hlefts.length
    · rfl
  · rfl

/-! ## Axes and elements -/

theorem follow_computes : ∀ {v : Value} {path : List Nat}, v.BuiltFrom P N →
    Computes (follow v path) (BuiltFrom P N)
  | _, [], h => by rw [follow]; exact h
  | array items, p :: path, h => by
    rw [follow]
    split
    · rename_i item hitem
      exact follow_computes (h.items item (List.mem_of_getElem? hitem))
    · rfl
  | int _, _ :: _, _ | real _, _ :: _, _ | bool _, _ :: _, _ | str _, _ :: _, _
  | range _ _, _ :: _, _ => rfl

theorem gather_computes {source : Value} (h : source.BuiltFrom P N) :
    ∀ {sizes path : List Nat}, (∀ n ∈ sizes, N n) → Computes (gather source sizes path) (BuiltFrom P N)
  | [], path, _ => by rw [gather]; exact follow_computes h
  | size :: sizes, path, hn => by
    rw [gather]
    have each : ∀ p ∈ List.range size,
        Computes (gather source sizes (p :: path)) (BuiltFrom P N) := fun p _ =>
      gather_computes h fun n hm => hn n (List.mem_cons_of_mem size hm)
    refine (yields_mapM each).bind fun items hi => .array ?_ hi.2
    rw [hi.1, List.length_range]
    exact hn size List.mem_cons_self

theorem transpose_computes {v : Value} (h : v.BuiltFrom P N) :
    Computes v.transpose (BuiltFrom P N) := by
  unfold transpose
  refine (shape_computes v).bind fun sizes hs => ?_
  split
  · exact h
  · exact gather_computes h fun n hn => shape?_size h hs n (List.mem_reverse.mp hn)

theorem position_computes (axis : Nat) (index : Int64) (size : Nat) :
    Computes (position axis index size) fun _ => True := by
  unfold position
  split <;> trivial

theorem elementFrom_computes (found : Nat) : ∀ {indices : List Int64} {axis : Nat} {v : Value},
    v.BuiltFrom P N → Computes (elementFrom found axis v indices) (BuiltFrom P N)
  | [], _, _, h => by rw [elementFrom]; exact h
  | index :: indices, axis, array items, h => by
    rw [elementFrom]
    refine (position_computes _ _ _).bind fun p _ => ?_
    exact elementFrom_computes found (h.items _ (List.getElem_mem _))
  | _ :: _, _, int _, _ | _ :: _, _, real _, _ | _ :: _, _, bool _, _ | _ :: _, _, str _, _
  | _ :: _, _, range _ _, _ => rfl

theorem updateFrom_computes {change : Value → Except Cause Value}
    (hc : ∀ v, v.BuiltFrom P N → Computes (change v) (BuiltFrom P N)) :
    ∀ {indices : List Int64} {axis : Nat} {v : Value}, v.BuiltFrom P N →
      Computes (updateFrom change axis v indices) (BuiltFrom P N)
  | [], _, v, h => by rw [updateFrom_nil]; exact hc v h
  | index :: indices, axis, array items, h => by
    rw [updateFrom_array]
    refine (position_computes _ _ _).bind fun p _ => ?_
    refine (updateFrom_computes hc (h.items _ (List.getElem_mem _))).bind fun item hi => ?_
    refine .array (by rw [List.length_set]; exact h.length) fun x hx => ?_
    rcases List.mem_or_eq_of_mem_set hx with hx | rfl
    · exact h.items x hx
    · exact hi
  | _ :: _, _, int _, _ | _ :: _, _, real _, _ | _ :: _, _, bool _, _ | _ :: _, _, str _, _
  | _ :: _, _, range _ _, _ => by rw [updateFrom_scalar _ _ rfl]; rfl

/-! ## Arrays of a given size -/

theorem ofSize_builtFrom (function : Sized) {n : Nat} (hn : N n) :
    (function.ofSize n).BuiltFrom (·.kind = .real) N := by
  have row : ∀ items : List Value, items.length = n → (∀ v ∈ items, v.kind = .real) →
      (array items).BuiltFrom (·.kind = .real) N := by
    intro items hl hi
    refine .array (by rw [hl]; exact hn) fun v hv => .scalar ?_ (hi v hv)
    have := hi v hv
    cases v <;> first | rfl | cases this
  cases function with
  | zeros =>
    refine row _ List.length_replicate fun v hv => ?_
    rw [List.eq_of_mem_replicate hv]; rfl
  | ones =>
    refine .array (by rw [List.length_replicate]; exact hn) fun v hv => ?_
    rw [List.eq_of_mem_replicate hv]
    refine row _ List.length_replicate fun v hv => ?_
    rw [List.eq_of_mem_replicate hv]; rfl
  | eye =>
    refine .array (by rw [List.length_map, List.length_range]; exact hn) fun v hv => ?_
    obtain ⟨i, -, rfl⟩ := List.mem_map.mp hv
    refine row _ (by rw [List.length_map, List.length_range]) fun v hv => ?_
    obtain ⟨j, -, rfl⟩ := List.mem_map.mp hv
    rfl

end

end Value

end MatrixScript
