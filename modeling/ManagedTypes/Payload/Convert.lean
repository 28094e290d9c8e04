import ManagedTypes.Fault
import ManagedTypes.Ieee.Round
import ManagedTypes.Payload.Basic

/-! Conversions of payloads to booleans, characters, the ten payload types and text. -/
namespace ManagedTypes

-- Powers are the core library's, also where another instance is in scope.
attribute [local instance(2000)] instPowNat

/-- A payload widened to what holds every payload of its kind. -/
inductive Number
  | integer (v : Int)
  | float (bits : BitVec 64)
  deriving DecidableEq, Repr

inductive Converted
  | boolean (b : Bool)
  | char (codeUnit : Nat)
  | payload (p : Payload)
  | text (s : String)
  deriving DecidableEq

def Converted.code : Converted → TypeCode
  | boolean _ => .boolean
  | char _ => .char
  | payload p => p.type.code
  | text _ => .string

/-- The integers of an integral type. -/
structure IntRange where
  low : Int
  high : Int
  deriving DecidableEq, Repr

namespace IntRange

def contains (r : IntRange) (v : Int) : Bool := decide (r.low ≤ v ∧ v ≤ r.high)

/-- The integer of the range that is closest. -/
def clamp (r : IntRange) (v : Int) : Int := max r.low (min v r.high)

end IntRange

/-- The integers that payloads of a type stand for; a floating type is given none. -/
def PayloadType.range (t : PayloadType) : IntRange :=
  match t.format with
  | .signed => ⟨-2 ^ (t.width - 1), 2 ^ (t.width - 1) - 1⟩
  | .unsigned => ⟨0, 2 ^ t.width - 1⟩
  | .float => ⟨0, -1⟩

def charRange : IntRange := ⟨0, 0xFFFF⟩

/-- A payload widened to an integer is kept in 128 bits. -/
def wideRange : IntRange :=
  ⟨-0x80000000000000000000000000000000, 0x7FFFFFFFFFFFFFFFFFFFFFFFFFFFFFFF⟩

namespace Number

/-- The nearest integer, ties to even, saturated at the ends of the wide range; NaN and infinities have
none. -/
def toInt? : Number → Option Int
  | integer v => some v
  | float bits => match Ieee.double.decode bits.toNat with
    | .finite negative magnitude =>
      some (wideRange.clamp (Ieee.double.roundToInt negative magnitude))
    | _ => none

def narrow (n : Number) (r : IntRange) (target : TypeCode) : Except Fault Int :=
  match n.toInt? with
  | some v => if r.contains v then .ok v else .error (.outOfRange target.name)
  | none => .error (.outOfRange target.name)

/-- The nearest number of a floating format. -/
def toFloat (n : Number) (f : Ieee.Format) : Nat :=
  match n with
  | integer v => f.ofInt v
  | float bits => f.ofDatum Ieee.double (Ieee.double.decode bits.toNat)

end Number

namespace Payload

def number (p : Payload) : Number :=
  match p.content with
  | .integer v => .integer v
  | .float f pattern => .float (BitVec.ofNat 64 (Ieee.double.ofDatum f (f.decode pattern)))

/-- Everything but zero is true, NaN included. -/
def toBoolean (p : Payload) : Bool :=
  match p.number with
  | .integer v => v != 0
  | .float bits => !Ieee.double.isZero bits.toNat

def toChar (p : Payload) : Except Fault Nat :=
  match p.number with
  | .float _ => .error (.noCast p.type.name TypeCode.char.name)
  | n => Int.toNat <$> n.narrow charRange .char

/-- Conversion to any of the ten payload types. -/
def toPayload (p : Payload) (t : PayloadType) : Except Fault Payload :=
  match t.ieee? with
  | some f => .ok (ofNat t (p.number.toFloat f))
  | none => ofInt t <$> p.number.narrow t.range t.code

/-- Conversion by type code; `text` is the payload's text. Conversion to an object is conversion to the
payload's own type code, which is no object's. -/
def toCode (p : Payload) (text : String) (target : TypeCode) : Except Fault Converted :=
  match PayloadType.ofCode? target with
  | some t => Converted.payload <$> p.toPayload t
  | none => match target with
    | .boolean => .ok (.boolean p.toBoolean)
    | .char => Converted.char <$> p.toChar
    | .string => .ok (.text text)
    | .object =>
      if _h : p.type.code = .object then .error (.noCast p.type.name TypeCode.object.name)
      else p.toCode text p.type.code
    | .decimal => .error (.unsupported "Decimal conversion" p.type.name)
    | other => .error (.noCast p.type.name other.name)
termination_by if target = .object then 1 else 0
decreasing_by simp [_h]

theorem toCode_code (p : Payload) (text : String) (t : PayloadType) :
    p.toCode text t.code = Converted.payload <$> p.toPayload t := by
  rw [toCode.eq_def, PayloadType.ofCode?_code]

theorem toCode_object (p : Payload) (text : String) :
    p.toCode text .object = p.toCode text p.type.code := by
  rw [toCode.eq_def]
  exact dif_neg p.type.code_ne_object

theorem toCode_string (p : Payload) (text : String) : p.toCode text .string = .ok (.text text) := by
  rw [toCode.eq_def]
  rfl

end Payload

/-- What a box can be asked to convert its payload to. -/
inductive Conversion
  | boolean
  | char
  | payload (t : PayloadType)
  | dateTime
  | text
  | code (c : TypeCode)
  deriving DecidableEq, Repr

/-- Whether the conversion needs the payload's text. -/
def Conversion.readsText : Conversion → Bool
  | text | code .string => true
  | _ => false

def Payload.convert (p : Payload) (text : String) : Conversion → Except Fault Converted
  | .boolean => .ok (.boolean p.toBoolean)
  | .char => Converted.char <$> p.toChar
  | .payload t => Converted.payload <$> p.toPayload t
  | .dateTime => .error (.noCast p.type.name TypeCode.dateTime.name)
  | .text => .ok (.text text)
  | .code c => p.toCode text c

end ManagedTypes
