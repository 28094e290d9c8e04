import ManagedTypes.Fault
import ManagedTypes.Numeral

/-! Standard format strings: one letter and at most two significant precision digits. -/
namespace ManagedTypes

inductive FormatFault
  | custom (format : String)
  | precisionTooLarge (precision : Nat)
  | unknownSpecifier (letter : Char)
  | integralOnly (letter : Char)
  deriving DecidableEq, Repr

/-- The ways to lay out any number. -/
inductive Style
  | fixed | number | scientific | general | percent | roundTrip
  deriving DecidableEq, Repr

/-- Decimal and hexadecimal digits are for integral payloads alone. -/
inductive Specifier
  | decimal
  | hexadecimal
  | numeric (style : Style)
  deriving DecidableEq, Repr

def Specifier.ofLetter? (letter : Char) : Option Specifier :=
  match letter.toUpper with
  | 'D' => some .decimal
  | 'X' => some .hexadecimal
  | 'F' => some (.numeric .fixed)
  | 'N' => some (.numeric .number)
  | 'E' => some (.numeric .scientific)
  | 'G' => some (.numeric .general)
  | 'P' => some (.numeric .percent)
  | 'R' => some (.numeric .roundTrip)
  | _ => none

structure FormatString where
  letter : Char
  precision : Option Nat
  deriving DecidableEq, Repr

namespace FormatString

def maxPrecision : Nat := 99

/-- A precision numeral has to fit a 64-bit word before its size is looked at. -/
def parse (text : String) : Except FormatFault FormatString :=
  match text.toList with
  | [] => .error (.custom text)
  | letter :: rest =>
    let precision := Numeral.value 10 (rest.map Numeral.digitValue)
    if !letter.isAlpha then .error (.custom text)
    else if rest.isEmpty then .ok ⟨letter, none⟩
    else if !rest.all Char.isDigit || 0xFFFFFFFFFFFFFFFF < precision then .error (.custom text)
    else if maxPrecision < precision then .error (.precisionTooLarge precision)
    else .ok ⟨letter, some precision⟩

end FormatString

namespace FormatFault

def detail : FormatFault → String
  | custom format => "Custom numeric format '" ++ format ++ "' is not supported"
  | precisionTooLarge precision =>
    "Precision " ++ toString precision ++ " exceeds maximum of "
      ++ toString FormatString.maxPrecision
  | unknownSpecifier letter => "Unknown format specifier '" ++ letter.toString ++ "'"
  | integralOnly letter =>
    "Format specifier '" ++ letter.toString ++ "' is only valid for integral types"

def toFault (f : FormatFault) : Fault := .format f.detail

end FormatFault

end ManagedTypes
