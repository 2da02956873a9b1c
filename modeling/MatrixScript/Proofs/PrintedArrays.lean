import MatrixScript.Machine.Eval
import MatrixScript.Proofs.StatementReading
import MatrixScript.Proofs.WordBoundaries

/-!
# Printed arrays

The text of a value is no literal of the language in general, but that of an array of
integers is an expression for it (`printed_readBack`), however the array is nested. Two
things come back in another form: a negative integer as a negation, and an array of
arrays alone as a matrix.
-/

namespace MatrixScript

mutual

/-- Arrays and integers alone, and not the least integer, which has no opposite. -/
def Value.integral : Value → Bool
  | .int n => Int64.minValue < n
  | .array items => allIntegral items
  | _ => false

def allIntegral : List Value → Bool
  | [] => true
  | item :: items => item.integral && allIntegral items

end

/-- The text of a value is scanned to tokens on the first line, which spell an
expression that has this value. -/
structure Value.ReadBack (v : Value) (ts : List Located) (e : Expr) : Prop where
  scans : ∀ rest, Stops rest →
    itemsFrom 1 (v.text.toList ++ rest) = ts.map .token ++ itemsFrom 1 rest
  derives : Derives .range ts e
  evals : e.eval = return some v

def Value.commaText (items : List Value) : String := String.join ([", "].intercalate (allPieces items))

structure ItemsReadBack (items : List Value) (ts : List Located) (es : List Expr) : Prop where
  scans : ∀ rest, Stops rest →
    itemsFrom 1 ((Value.commaText items).toList ++ rest) = ts.map .token ++ itemsFrom 1 rest
  derives : DerivesItems ts es
  evals : evalAll es = return items

/-! ## Integers -/

theorem repr_digits (k : Nat) : k.repr.toList ∈ LexicalRule.digits := by
  rw [Nat.toList_repr]
  exact LexicalRule.mem_digits.mpr
    ⟨Nat.toDigits_ne_nil, fun _ hc => Nat.isDigit_of_mem_toDigits (by decide) (by decide) hc⟩

theorem ofDigits_repr (k : Nat) : Integer.ofDigits k.repr.toList = k := by
  rw [Nat.toList_repr]
  exact Nat.ofDigitChars_ten_toDigits

theorem itemsFrom_repr {k : Nat} (hk : k < 9223372036854775808) (line : Nat) {rest : List Char}
    (hrest : Stops rest) : itemsFrom line (k.repr.toList ++ rest) =
      .token ⟨.int (Int64.ofInt k), line⟩ :: itemsFrom line rest := by
  have hsmall : Integer.ofDigits k.repr.toList < 9223372036854775808 := by rwa [ofDigits_repr]
  have hlines : k.repr.toList.count '\n' = 0 := by
    refine List.count_eq_zero.mpr fun hm => ?_
    cases (LexicalRule.mem_digits.mp (repr_digits k)).2 _ hm
  have h := itemsFrom_word (.int (repr_digits k) hsmall) hrest line
  rwa [ofDigits_repr, hlines] at h

/-- A minus sign before a digit stands alone. -/
theorem itemsFrom_minus {c : Char} (hc : c.isDigit = true) (line : Nat) (cs : List Char) :
    itemsFrom line ('-' :: c :: cs) = .token ⟨.symbol .minus, line⟩ :: itemsFrom line (c :: cs) := by
  have hne : ('=' == c) = false := by
    refine Bool.eq_false_iff.mpr fun h => ?_
    rw [← eq_of_beq h] at hc
    cases hc
  refine itemsFrom_symbol ?_ (by decide) line
  have hsymbol : Symbol.starting? ('-' :: c :: cs) = some .minus := by
    simp [Symbol.starting?, Symbol.all, Symbol.spelling, List.find?, List.isPrefixOf, hne]
  show Lexeme.symbol '-' (c :: cs) = _
  unfold Lexeme.symbol
  rw [hsymbol]
  rfl

theorem Value.int_text (n : Int64) : (Value.int n).text = Integer.text n := by
  simp [Value.text, Value.pieces]

theorem int_readBack {n : Int64} (h : Int64.minValue < n) : ∃ ts e, (Value.int n).ReadBack ts e := by
  have hmin := Int64.lt_iff_toInt_lt.mp h
  rw [Int64.toInt_minValue] at hmin
  have hmax := n.toInt_lt
  have hsmall : n.toInt.natAbs < 9223372036854775808 := by omega
  by_cases hneg : n.toInt < 0
  · have hopposite : (Int64.ofInt n.toInt.natAbs).toInt = n.toInt.natAbs :=
      Int64.toInt_ofInt_of_le (by omega) (by omega)
    have happly : UnaryOp.negate.apply (.int (Int64.ofInt n.toInt.natAbs)) = .ok (.int n) := by
      have hfit : Integer.neg? (Int64.ofInt n.toInt.natAbs) = some n :=
        Integer.fit?_eq_some_iff.mpr (by omega)
      show Value.ofInteger? (Integer.neg? _) = _
      rw [hfit]
      rfl
    refine ⟨[⟨.symbol .minus, 1⟩, ⟨.int (Int64.ofInt n.toInt.natAbs), 1⟩],
      .unary .negate (.int (Int64.ofInt n.toInt.natAbs) 1) 1, fun rest hrest => ?_, ?_, ?_⟩
    · have htext : (Value.int n).text.toList = '-' :: n.toInt.natAbs.repr.toList := by
        simp [Value.int_text, Integer.text, hneg]
      have hitems := itemsFrom_repr hsmall 1 hrest
      have hdigits := LexicalRule.mem_digits.mp (repr_digits n.toInt.natAbs)
      rw [htext]
      generalize n.toInt.natAbs.repr.toList = digits at hitems hdigits ⊢
      cases digits with
      | nil => exact absurd rfl hdigits.1
      | cons c cs =>
        exact (itemsFrom_minus (hdigits.2 c List.mem_cons_self) 1 _).trans (congrArg _ hitems)
    · exact derives_range (.negate (Derives.int.loosen (by decide)))
    · simp only [Expr.eval, Eval.need, pure_bind, happly, Eval.atLine]
  · have hsame : Int64.ofInt n.toInt.natAbs = n := by
      rw [Int.natAbs_of_nonneg (by omega), Int64.ofInt_toInt]
    refine ⟨[⟨.int n, 1⟩], .int n 1, fun rest hrest => ?_, derives_range .int, rfl⟩
    have htext : (Value.int n).text = n.toInt.natAbs.repr := by
      simp [Value.int_text, Integer.text, hneg]
    rw [htext, itemsFrom_repr hsmall 1 hrest, hsame]
    rfl

/-! ## Brackets -/

/-- A row of vectors has the values of the rows of a matrix. -/
theorem evalAll_vectors (rows : List Row) : evalAll (rows.map .vector) = evalRows rows := by
  induction rows with
  | nil => rfl
  | cons row rows ih =>
    cases row
    simp only [List.map_cons, evalAll, evalRows, Expr.eval, Eval.need, bind_assoc, pure_bind, ih]

/-- A bracket literal of one row has the values of the row, whichever way it is read. -/
theorem eval_ofBracket (es : List Expr) (line : Nat) :
    (Expr.ofBracket es [] line).eval = do return some (.array (← evalAll es)) := by
  unfold Expr.ofBracket
  rw [if_pos (by rfl)]
  cases h : es.mapM Expr.row? with
  | none => rfl
  | some rows =>
    rw [eq_map_of_mapM_row? h, evalAll_vectors]
    rfl

theorem array_text (items : List Value) :
    (Value.array items).text.toList = '[' :: ((Value.commaText items).toList ++ [']']) := by
  simp [Value.text, Value.pieces, Value.commaText]

theorem itemsFrom_leftBracket (cs : List Char) :
    itemsFrom 1 ('[' :: cs) = .token ⟨.symbol .leftBracket, 1⟩ :: itemsFrom 1 cs :=
  itemsFrom_symbol rfl (by decide) 1

theorem itemsFrom_rightBracket (cs : List Char) :
    itemsFrom 1 (']' :: cs) = .token ⟨.symbol .rightBracket, 1⟩ :: itemsFrom 1 cs :=
  itemsFrom_symbol rfl (by decide) 1

theorem empty_readBack : (Value.array []).ReadBack
    [⟨.symbol .leftBracket, 1⟩, ⟨.symbol .rightBracket, 1⟩] (.vector ⟨[], 1⟩) where
  scans rest _ := by
    rw [array_text, List.cons_append, itemsFrom_leftBracket]
    exact congrArg _ (itemsFrom_rightBracket rest)
  derives := derives_range .emptyVector
  evals := rfl

theorem ItemsReadBack.array {items : List Value} {ts : List Located} {es : List Expr}
    (h : ItemsReadBack items ts es) : (Value.array items).ReadBack
      (⟨.symbol .leftBracket, 1⟩ :: (ts ++ [⟨.symbol .rightBracket, 1⟩])) (.ofBracket es [] 1) where
  scans rest _ := by
    have hstops : Stops (']' :: rest) := by
      rintro c t ⟨⟩
      rfl
    rw [array_text, List.cons_append, itemsFrom_leftBracket, List.append_assoc, List.singleton_append,
      h.scans _ hstops, itemsFrom_rightBracket]
    simp
  derives := derives_range (derives_ofBracket (.last h.derives) 1 1)
  evals := by
    rw [eval_ofBracket, h.evals]
    rfl

theorem Value.ReadBack.last {v : Value} {ts : List Located} {e : Expr} (h : v.ReadBack ts e) :
    ItemsReadBack [v] ts [e] where
  scans rest hrest := by
    have htext : Value.commaText [v] = v.text := by
      simp [Value.commaText, Value.allPieces, Value.text]
    rw [htext, h.scans rest hrest]
  derives := .last h.derives
  evals := by
    simp only [evalAll, h.evals, Eval.need, pure_bind]

theorem Value.ReadBack.comma {v w : Value} {items : List Value} {ts us : List Located} {e : Expr}
    {es : List Expr} (h : v.ReadBack ts e) (hitems : ItemsReadBack (w :: items) us es) :
    ItemsReadBack (v :: w :: items) (ts ++ ⟨.symbol .comma, 1⟩ :: us) (e :: es) where
  scans rest hrest := by
    have htext : (Value.commaText (v :: w :: items)).toList =
        v.text.toList ++ ',' :: ' ' :: (Value.commaText (w :: items)).toList := by
      simp [Value.commaText, Value.allPieces, Value.text, List.intercalate_cons_cons]
    have hstops : ∀ cs, Stops (',' :: cs) := by
      rintro cs c t ⟨⟩
      rfl
    have hcomma : ∀ cs, itemsFrom 1 (',' :: cs) = .token ⟨.symbol .comma, 1⟩ :: itemsFrom 1 cs :=
      fun cs => itemsFrom_symbol rfl (by decide) 1
    rw [htext, List.append_assoc, List.cons_append, List.cons_append, h.scans _ (hstops _), hcomma,
      itemsFrom_blank rfl, hitems.scans rest hrest]
    simp
  derives := .comma h.derives hitems.derives
  evals := by
    simp only [evalAll, h.evals, hitems.evals, Eval.need, pure_bind]

/-! ## Values -/

mutual

theorem value_readBack : ∀ v : Value, v.integral = true → ∃ ts e, v.ReadBack ts e
  | .int n, h => int_readBack (of_decide_eq_true h)
  | .array [], _ => ⟨_, _, empty_readBack⟩
  | .array (v :: items), h => by
    obtain ⟨ts, es, hitems⟩ := items_readBack (v :: items) h (by simp)
    exact ⟨_, _, hitems.array⟩
  | .real _, h | .bool _, h | .str _, h | .range _ _, h => by cases h

theorem items_readBack : ∀ items : List Value, allIntegral items = true → items ≠ [] →
    ∃ ts es, ItemsReadBack items ts es
  | [], _, hne => absurd rfl hne
  | v :: items, h, _ => by
    rw [allIntegral, Bool.and_eq_true] at h
    obtain ⟨ts, e, hv⟩ := value_readBack v h.1
    cases items with
    | nil => exact ⟨_, _, hv.last⟩
    | cons w items =>
      obtain ⟨us, es, hitems⟩ := items_readBack (w :: items) h.2 (by simp)
      exact ⟨_, _, hv.comma hitems⟩

end

/-- **Printed arrays.** The text of an array of integers, or of an integer, with a
semicolon after it is read without an error as one expression on its own. It has the
value that was printed on every machine, and leaves the machine as it is. -/
theorem printed_readBack (v : Value) (h : v.integral = true) :
    let scanned := scan (v.text ++ ";")
    scanned.errors = [] ∧ ∃ e line, parseProgram scanned.tokens = .ok [.expr e line] ∧
      ∀ m, e.eval m = .ok (some v) m := by
  obtain ⟨ts, e, hv⟩ := value_readBack v h
  have hstops : Stops [';'] := by
    rintro c t ⟨⟩
    rfl
  have hitems : itemsFrom 1 (v.text ++ ";").toList =
      List.map ScanItem.token (ts ++ [⟨.symbol .semicolon, 1⟩]) := by
    rw [String.toList_append, List.map_append]
    exact hv.scans [';'] hstops
  obtain ⟨herrors, htokens⟩ := scan_of_items _ _ hitems
  have hstmt : DerivesStmt (ts ++ [⟨.symbol .semicolon, 1⟩]) (.expr e e.line) ([] ++ []) :=
    .expr hv.derives
  have hderives : DerivesProgram (ts ++ [⟨.symbol .semicolon, 1⟩] ++ []) [.expr e e.line] :=
    .cons hstmt .nil
  rw [List.append_nil] at hderives
  refine ⟨herrors, e, e.line, ?_, fun m => ?_⟩
  · rw [htokens]
    exact parseProgram_eq_ok.mpr hderives
  · rw [hv.evals]
    rfl

/-- An empty array, a negative integer and two depths. -/
theorem printed_readBack_ragged :
    let v : Value := .array [.array [], .array [.int (-3), .int 4], .array [.array [.int 0]]]
    let m : Machine := .unlimited
    v.integral = true ∧ v.text = "[[], [-3, 4], [[0]]]" ∧ (scan (v.text ++ ";")).errors = [] ∧
      ∃ e line, parseProgram (scan (v.text ++ ";")).tokens = .ok [.expr e line] ∧
        e.eval m = .ok (some v) m := by
  intro v m
  have h : v.integral = true := by decide
  obtain ⟨herrors, e, line, hparse, heval⟩ := printed_readBack v h
  exact ⟨h, by rfl, herrors, e, line, hparse, heval m⟩

end MatrixScript
