import ManagedTypes.TypeCode
import ManagedTypes.Ieee.Format

/-! The ten primitive payload types, and payloads as bit patterns of the type's width. -/
namespace ManagedTypes

inductive PayloadType
  | sbyte | byte | int16 | uint16 | int32 | uint32 | int64 | uint64 | single | double
  deriving DecidableEq, Repr

inductive NumberFormat
  | signed | unsigned | float
  deriving DecidableEq, Repr

namespace PayloadType

def all : List PayloadType :=
  [sbyte, byte, int16, uint16, int32, uint32, int64, uint64, single, double]

/-- Native width in bits. -/
def width : PayloadType → Nat
  | sbyte | byte => 8
  | int16 | uint16 => 16
  | int32 | uint32 | single => 32
  | int64 | uint64 | double => 64

/-- Native width in bytes. -/
def bytes (t : PayloadType) : Nat := t.width / 8

def format : PayloadType → NumberFormat
  | sbyte | int16 | int32 | int64 => .signed
  | byte | uint16 | uint32 | uint64 => .unsigned
  | single | double => .float

/-- The interchange format of a floating type. -/
def ieee? : PayloadType → Option Ieee.Format
  | single => some Ieee.single
  | double => some Ieee.double
  | _ => none

def code : PayloadType → TypeCode
  | sbyte => .sbyte | byte => .byte | int16 => .int16 | uint16 => .uint16 | int32 => .int32
  | uint32 => .uint32 | int64 => .int64 | uint64 => .uint64 | single => .single
  | double => .double

def name (t : PayloadType) : String := t.code.name

def ofCode? (c : TypeCode) : Option PayloadType := all.find? (·.code == c)
def ofName? (text : String) : Option PayloadType := all.find? (·.name == text)

theorem ofCode?_code (t : PayloadType) : ofCode? t.code = some t := by cases t <;> rfl

theorem code_ne_object (t : PayloadType) : t.code ≠ .object := by cases t <;> decide

/-- A sign, an exponent and a fraction. -/
theorem width_of_ieee? {t : PayloadType} {f : Ieee.Format} (h : t.ieee? = some f) :
    t.width = f.exponent + f.fraction + 1 := by
  cases t <;> cases h <;> rfl

theorem width_le (t : PayloadType) : t.width ≤ 64 := by cases t <;> decide

end PayloadType

inductive Content
  | integer (v : Int)
  | float (format : Ieee.Format) (pattern : Nat)
  deriving DecidableEq, Repr

/-- A memory word; it holds a payload of any type. -/
abbrev Word := BitVec 64

structure Payload where
  type : PayloadType
  bits : BitVec type.width
  deriving DecidableEq

namespace Payload

def zero (t : PayloadType) : Payload := ⟨t, 0⟩

def ofNat (t : PayloadType) (n : Nat) : Payload := ⟨t, BitVec.ofNat t.width n⟩
def ofInt (t : PayloadType) (v : Int) : Payload := ⟨t, BitVec.ofInt t.width v⟩

def toNat (p : Payload) : Nat := p.bits.toNat

/-- The payload's bits in a word, zero-extended. -/
def toWord (p : Payload) : Word := p.bits.setWidth 64

/-- The low bits of a word as a payload. -/
def ofWord (t : PayloadType) (w : Word) : Payload := ⟨t, w.setWidth t.width⟩

/-- The same bits as another type of payload. -/
def reinterpret (t : PayloadType) (p : Payload) : Payload := ofWord t p.toWord

/-- The integer that an integral payload stands for, or the pattern of a floating one. -/
def content (p : Payload) : Content :=
  match p.type.ieee?, p.type.format with
  | some f, _ => .float f p.toNat
  | none, .signed => .integer p.bits.toInt
  | none, _ => .integer p.bits.toNat

def integer? (p : Payload) : Option Int :=
  match p.content with
  | .integer v => some v
  | .float .. => none

/-- The bits of an integral payload as an unsigned number of its native width. -/
def pattern? (p : Payload) : Option Nat :=
  match p.content with
  | .integer _ => some p.toNat
  | .float .. => none

theorem content_of_ieee? {p : Payload} {f : Ieee.Format} (h : p.type.ieee? = some f) :
    p.content = .float f p.toNat := by
  unfold content
  rw [h]

theorem toNat_lt {p : Payload} {f : Ieee.Format} (h : p.type.ieee? = some f) :
    p.toNat < 2 * f.signBit := by
  have hlt : p.toNat < 2 ^ p.type.width := p.bits.isLt
  rwa [PayloadType.width_of_ieee? h, Nat.pow_succ'] at hlt

theorem toNat_ofNat {t : PayloadType} {f : Ieee.Format} (h : t.ieee? = some f) {n : Nat}
    (hn : n < 2 * f.signBit) : (ofNat t n).toNat = n := by
  have hwidth : n < 2 ^ t.width := by rwa [PayloadType.width_of_ieee? h, Nat.pow_succ']
  exact Nat.mod_eq_of_lt hwidth

theorem ofNat_toNat (p : Payload) : ofNat p.type p.toNat = p := by
  rw [ofNat, toNat, BitVec.ofNat_toNat, BitVec.setWidth_eq]

@[simp] theorem ofWord_toWord (p : Payload) : ofWord p.type p.toWord = p := by
  obtain ⟨t, bits⟩ := p
  simp [ofWord, toWord, BitVec.setWidth_setWidth_of_le bits t.width_le]

theorem toWord_ofWord (t : PayloadType) (w : Word) :
    (ofWord t w).toWord = (w.setWidth t.width).setWidth 64 := rfl

end Payload

end ManagedTypes
