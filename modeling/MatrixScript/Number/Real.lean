import MatrixScript.Number.Integer
import MatrixScript.Number.Shortest

/-!
# Text of reals

Reals are written with the fewest digits that read back, always positionally
and without a trailing point. A numeral is read as the nearest real.
-/

namespace MatrixScript.Number

/-! ## Writing -/

namespace Decimal

/-- Positional notation: zeros fill up to the decimal point on either side. -/
def positional (d : Decimal) : String :=
  let digits := d.digits.repr
  if 0 ≤ d.exponent then
    digits ++ String.ofList (List.replicate d.exponent.toNat '0')
  else
    let places := (-d.exponent).toNat
    let padded := List.replicate (places + 1 - digits.length) '0' ++ digits.toList
    let whole := padded.length - places
    String.ofList (padded.take whole) ++ "." ++ String.ofList (padded.drop whole)

end Decimal

/-- Text of a real. Zero keeps its sign; what is not a number has none. -/
def realText (x : Float) : String :=
  let bits := x.toBits.toNat
  let sign := if bits >>> 63 = 1 then "-" else ""
  let exponent := (bits >>> 52) % 2048
  let fraction := bits % 4503599627370496
  if exponent = 2047 then
    if fraction = 0 then sign ++ "inf" else "NaN"
  else if exponent = 0 ∧ fraction = 0 then sign ++ "0"
  else sign ++ (Interval.ofFields exponent fraction).shortest.positional

/-! ## Reading -/

namespace Decimal

/-- The nearest real. Decimals beyond all finite reals, or nearer to zero than
to any other real, are settled by their magnitude alone. -/
def toReal (d : Decimal) : Float :=
  let magnitude : Int := d.exponent + d.digits.repr.length
  if d.digits = 0 ∨ magnitude < -330 then Float.ofBits 0
  else if magnitude > 310 then Float.ofBits 0x7FF0000000000000
  else Float.ofScientific d.digits (d.exponent < 0) d.exponent.natAbs

/-- The exponent after `e` or `E`: an optional sign and digits. -/
def readExponent : List Char → Int
  | '-' :: digits => -(Integer.ofDigits digits : Int)
  | '+' :: digits => Integer.ofDigits digits
  | digits => Integer.ofDigits digits

/-- The decimal that a numeral denotes: digits, an optional fraction and an
optional exponent. -/
def ofNumeral (numeral : List Char) : Decimal :=
  let whole := numeral.takeWhile Char.isDigit
  let afterWhole := numeral.dropWhile Char.isDigit
  let fraction := match afterWhole with
    | '.' :: rest => rest.takeWhile Char.isDigit
    | _ => []
  let exponent := match afterWhole.dropWhile (fun c => c == '.' || c.isDigit) with
    | _ :: rest => readExponent rest
    | [] => 0
  ⟨Integer.ofDigits (whole ++ fraction), exponent - fraction.length⟩

end Decimal

def readReal (numeral : List Char) : Float := (Decimal.ofNumeral numeral).toReal

end MatrixScript.Number
