import ManagedTypes.Decimal.Basic

/-! Exponent text: one digit, the others after a point, `e`, and the exponent of the first digit. -/
namespace ManagedTypes

namespace Numeral

/-- Whether a text begins with a minus sign, and what follows its sign. -/
def splitSign : List Char → Bool × List Char
  | '-' :: rest => (true, rest)
  | '+' :: rest => (false, rest)
  | text => (false, text)

/-- A decimal numeral, perhaps with a sign, that fits 32 bits. -/
def readInt32? (text : List Char) : Option Int :=
  let (negative, digits) := splitSign text
  let n : Int := value 10 (digits.map digitValue)
  let v := if negative then -n else n
  if digits.isEmpty || !digits.all Char.isDigit then none
  else if -0x80000000 ≤ v ∧ v ≤ 0x7FFFFFFF then some v else none

end Numeral

namespace Decimal

/-- Without the sign. -/
def exponentChars (d : Decimal) : List Char :=
  match d.digits.map Numeral.lowerChar with
  | [] => ['0', 'e', '0']
  | c :: rest =>
    c :: (if rest.isEmpty then [] else '.' :: rest) ++ 'e' :: Numeral.intChars (d.scale - 1)

/-- Reads the digits before the first `e`, wherever the point stands, as those of a number between 0
and 10. An exponent that cannot be read counts as 0. -/
def ofExponentChars (negative : Bool) (text : List Char) : Decimal :=
  let mantissa := (text.takeWhile (· != 'e')).filter Char.isDigit
  let exponent := (text.dropWhile (· != 'e')).drop 1
  normalize ⟨negative, mantissa.map Numeral.digitValue, (Numeral.readInt32? exponent).getD 0 + 1⟩

end Decimal

end ManagedTypes
