/-!
# Checked 64-bit integers

Arithmetic is done on exact integers and brought back to 64 bits only when the
result fits; `fit?` is the one place where that is decided.
-/

namespace MatrixScript.Integer

/-- The first integer that is too large for 64 bits; its opposite still fits. -/
def bound : Int := 9223372036854775808

def fit? (n : Int) : Option Int64 :=
  if -bound ≤ n ∧ n < bound then some (Int64.ofInt n) else none

theorem fit?_eq_some_iff {n : Int} {i : Int64} : fit? n = some i ↔ i.toInt = n := by
  unfold fit?
  constructor
  · intro h
    split at h
    · rename_i hn
      cases h
      unfold bound at hn
      exact Int64.toInt_ofInt_of_le (by omega) (by omega)
    · cases h
  · rintro rfl
    have hlo := i.le_toInt
    have hhi := i.toInt_lt
    rw [if_pos (by unfold bound; omega), Int64.ofInt_toInt]

/-! ## Arithmetic -/

def add? (a b : Int64) : Option Int64 := fit? (a.toInt + b.toInt)

def sub? (a b : Int64) : Option Int64 := fit? (a.toInt - b.toInt)

def mul? (a b : Int64) : Option Int64 := fit? (a.toInt * b.toInt)

def neg? (a : Int64) : Option Int64 := fit? (-a.toInt)

/-! ## Conversions -/

/-- Integers up to this magnitude are all exact as reals. -/
def exactLimit : Nat := 9007199254740991

/-- The same number as a real, refused where rounding could change it. -/
def toReal? (a : Int64) : Option Float :=
  if a.toInt.natAbs ≤ exactLimit then some (Float.ofInt a.toInt) else none

/-- A size: any integer that is not negative. -/
def toSize? (a : Int64) : Option Nat :=
  if 0 ≤ a.toInt then some a.toInt.toNat else none

/-! ## Text -/

/-- The value of a run of decimal digits. -/
def ofDigits (digits : List Char) : Nat :=
  digits.foldl (fun n c => 10 * n + (c.toNat - 48)) 0

def text (a : Int64) : String :=
  if a.toInt < 0 then "-" ++ a.toInt.natAbs.repr else a.toInt.natAbs.repr

end MatrixScript.Integer
