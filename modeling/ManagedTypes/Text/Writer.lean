import ManagedTypes.Decimal.Basic
import ManagedTypes.Text.Symbols

/-! Texts of numbers, written from left to right under given symbols: fixed-point, grouped, scientific
and general text, padded decimals and hexadecimal digits. -/
namespace ManagedTypes.Writer

/-- Cuts a text from the left into pieces of `size` characters; the last one may be shorter. -/
def chunks (size : Nat) (text : List Char) : List (List Char) :=
  if _h : 0 < size ∧ 0 < text.length then text.take size :: chunks size (text.drop size) else []
termination_by text.length
decreasing_by simp only [List.length_drop]; omega

/-- `count` digits of a number, beginning at a position of its digit list. -/
def digitsFrom (d : Decimal) (start : Int) (count : Nat) : List Char :=
  (List.range count).map fun (k : Nat) => Numeral.lowerChar (d.digitAt (start + k))

/-- The digits before the separator. -/
def integral (d : Decimal) : List Char :=
  if d.scale ≤ 0 then ['0'] else digitsFrom d 0 d.scale.toNat

/-- At least `width` hexadecimal digits. -/
def hexadecimal (pattern width : Nat) (lower : Bool) : List Char :=
  (Numeral.padded width (Numeral.digits 16 pattern)).map
    (if lower then Numeral.lowerChar else Numeral.upperChar)

variable (symbols : NumberSymbols)

def sign (negative : Bool) : List Char := if negative then symbols.negativeSign.toList else []

/-- A sign and at least `width` digits. -/
def decimal (v : Int) (width : Nat) : List Char :=
  sign symbols (v < 0) ++ (Numeral.padded width (Numeral.digits 10 v.natAbs)).map Numeral.lowerChar

/-- What is left over comes first; then the groups, each behind a separator, except that nothing
separates the first one from the text's beginning. -/
def group (digits : List Char) : List Char :=
  let size := symbols.groupSize
  if size = 0 ∨ digits.length ≤ size then digits
  else
    let first := digits.length % size
    digits.take first ++
      ((chunks size (digits.drop first)).mapIdx fun i chunk =>
        if 0 < i ∨ 0 < first then symbols.groupSeparator.toList ++ chunk else chunk).flatten

/-- Exactly `decimals` places, behind integral digits that may be grouped. -/
def fixed (d : Decimal) (decimals : Nat) (grouped : Bool) : List Char :=
  let r := d.roundTo (d.scale + decimals)
  sign symbols r.negative ++ (if grouped then group symbols (integral r) else integral r) ++
    if decimals = 0 then []
    else symbols.decimalSeparator.toList ++ digitsFrom r r.scale decimals

def exponent (e : Int) (width : Nat) : List Char :=
  (if e < 0 then symbols.negativeSign else symbols.positiveSign).toList ++
    (Numeral.padded width (Numeral.digits 10 e.natAbs)).map Numeral.lowerChar

/-- One digit, `decimals` places, and an exponent of at least three digits. -/
def scientific (d : Decimal) (decimals : Nat) (marker : Char) : List Char :=
  let r := d.roundTo (decimals + 1)
  sign symbols r.negative ++ digitsFrom r 0 1 ++
    (if decimals = 0 then []
      else symbols.decimalSeparator.toList ++ digitsFrom r 1 decimals) ++
    marker :: exponent symbols (if r.isZero then 0 else r.scale - 1) 3

/-- Significant digits only, positional unless the number is below `10 ^ -4` or its integral part has
more than `limit` digits. -/
def significant (d : Decimal) (limit : Option Nat) : List Char :=
  let tooLong := limit.any fun (n : Nat) => (n : Int) < d.scale
  sign symbols d.negative ++
    if d.isZero then ['0']
    else if d.scale < -3 || tooLong then
      digitsFrom d 0 1 ++
        (if d.digits.length ≤ 1 then []
          else symbols.decimalSeparator.toList ++ (d.digits.drop 1).map Numeral.lowerChar) ++
        'E' :: exponent symbols (d.scale - 1) 2
    else
      let fractional := d.digits.length - d.scale.toNat
      integral d ++
        if fractional = 0 then []
        else
          symbols.decimalSeparator.toList ++ List.replicate (-d.scale).toNat '0' ++
            digitsFrom d (max d.scale 0) fractional

/-- Rounded to the digits asked for. A number with all its digits stays positional up to its own length
at least; without a threshold it always does, unless it is small. -/
def general (d : Decimal) (precision threshold : Option Nat) : List Char :=
  match precision with
  | some n => significant symbols (d.roundTo n) (some n)
  | none => significant symbols d (threshold.map (max d.digits.length))

end ManagedTypes.Writer
