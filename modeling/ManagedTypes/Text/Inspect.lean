import ManagedTypes.Decimal.Shortest
import ManagedTypes.Payload.Basic

/-! Texts for inspection: payloads as they appear inside the description of a box or an array. They
never involve the installed formatter. -/
namespace ManagedTypes.Inspect

/-- A number from `10 ^ -4` up to `10 ^ 16` is positional with at least one decimal; others have an
exponent without padding. -/
def decimalText (d : Decimal) : String :=
  let digits (start : Int) (count : Nat) : List Char :=
    (List.range count).map fun (k : Nat) => Numeral.lowerChar (d.digitAt (start + k))
  let sign := if d.negative then ['-'] else []
  let count := d.digits.length
  if d.isZero then String.ofList (sign ++ ['0', '.', '0'])
  else if d.scale < -3 || 16 < d.scale then
    let tail := if count ≤ 1 then [] else '.' :: digits 1 (count - 1)
    String.ofList (sign ++ digits 0 1 ++ tail ++ 'e' :: Numeral.intChars (d.scale - 1))
  else
    let whole := if d.scale ≤ 0 then ['0'] else digits 0 d.scale.toNat
    let places := max 1 ((count : Int) - d.scale).toNat
    String.ofList (sign ++ whole ++ '.' :: digits d.scale places)

def floatText (f : Ieee.Format) (bits : Nat) : String :=
  match f.decode bits with
  | .nan => "NaN"
  | .infinite negative => if negative then "-inf" else "inf"
  | .finite _ _ => decimalText (Decimal.ofFinite f bits)

def payload (p : Payload) : String :=
  match p.content with
  | .integer v => Numeral.intText v
  | .float f pattern => floatText f pattern

/-- A box; a view of an array shows the index it aliases. -/
def box (p : Payload) (index : Option Nat) : String :=
  let position := match index with
    | some i => ", index: " ++ Numeral.text i
    | none => ""
  "BoxedValue \x7b type: " ++ p.type.name ++ ", value: " ++ payload p ++ position ++ " \x7d"

def array (t : PayloadType) (elements : List Payload) : String :=
  "HostArray(" ++ t.name ++ ", [" ++ ", ".intercalate (elements.map payload) ++ "])"

end ManagedTypes.Inspect
