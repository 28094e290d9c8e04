import ManagedTypes.Decimal.Shortest
import ManagedTypes.Payload.Basic
import ManagedTypes.Text.FormatString
import ManagedTypes.Text.Writer

/-! Standard texts of payloads. -/
namespace ManagedTypes

/-- What a payload shows: one symbol if it is not a number, else decimal digits. -/
inductive Numeric
  | special (s : Symbol)
  | decimal (d : Decimal)
  deriving DecidableEq, Repr

def Numeric.ofBits (f : Ieee.Format) (bits : Nat) : Numeric :=
  match f.decode bits with
  | .nan => .special .nan
  | .infinite negative => .special (if negative then .negativeInfinity else .positiveInfinity)
  | .finite _ _ => .decimal (Decimal.ofFinite f bits)

namespace Payload

def numeric (p : Payload) : Numeric :=
  match p.content with
  | .integer v => .decimal (Decimal.ofInt v)
  | .float f pattern => .ofBits f pattern

end Payload

/-- The integral digits up to which general text without a precision stays positional. -/
def PayloadType.positionalDigits : PayloadType → Option Nat
  | .single => some 7
  | .double => some 15
  | _ => none

namespace Standard

/-- General text of zero digits is general text of all digits. -/
def styled (symbols : NumberSymbols) (f : FormatString) (s : Style) (t : PayloadType) (d : Decimal) :
    List Char :=
  match s with
  | .fixed => Writer.fixed symbols d (f.precision.getD 2) false
  | .number => Writer.fixed symbols d (f.precision.getD 2) true
  | .percent =>
    Writer.fixed symbols d.percent (f.precision.getD 2) true
      ++ ' ' :: symbols.percentSymbol.toList
  | .scientific =>
    Writer.scientific symbols d (f.precision.getD 6) (if f.letter = 'e' then 'e' else 'E')
  | .roundTrip => Writer.general symbols d none t.positionalDigits
  | .general => Writer.general symbols d (f.precision.filter (0 < ·)) t.positionalDigits

/-- The text of a payload under a format string. -/
def write (symbols : NumberSymbols) (f : FormatString) (p : Payload) : Except FormatFault String :=
  match Specifier.ofLetter? f.letter with
  | none => .error (.unknownSpecifier f.letter)
  | some .decimal => match p.integer? with
    | some v => .ok (String.ofList (Writer.decimal symbols v (f.precision.getD 0)))
    | none => .error (.integralOnly f.letter)
  | some .hexadecimal => match p.pattern? with
    | some n =>
      .ok (String.ofList (Writer.hexadecimal n (f.precision.getD 0) (f.letter == 'x')))
    | none => .error (.integralOnly f.letter)
  | some (.numeric s) => match p.numeric with
    | .special symbol => .ok (symbols.text symbol)
    | .decimal d => .ok (String.ofList (styled symbols f s p.type d))

def format (symbols : NumberSymbols) (text : String) (p : Payload) : Except FormatFault String := do
  write symbols (← FormatString.parse text) p

/-- Text that reads back, always under the invariant symbols. -/
def canonical (p : Payload) : String :=
  match p.numeric with
  | .special symbol => NumberSymbols.invariant.text symbol
  | .decimal d => String.ofList (Writer.general .invariant d none p.type.positionalDigits)

end Standard

end ManagedTypes
