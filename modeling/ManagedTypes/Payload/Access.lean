import ManagedTypes.Fault
import ManagedTypes.Payload.Basic

/-! Views of a payload's bits at its native width. -/
namespace ManagedTypes

inductive Access
  | u8 | i8 | u16 | i16 | u32 | i32 | i64 | f32 | f64
  deriving DecidableEq, Repr

namespace Access

def all : List Access := [u8, i8, u16, i16, u32, i32, i64, f32, f64]

/-- The type of payload that the view shows. -/
def type : Access → PayloadType
  | u8 => .byte | i8 => .sbyte | u16 => .uint16 | i16 => .int16 | u32 => .uint32 | i32 => .int32
  | i64 => .int64 | f32 => .single | f64 => .double

def name : Access → String
  | u8 => "U8 access" | i8 => "I8 access" | u16 => "U16 access" | i16 => "I16 access"
  | u32 => "U32 access" | i32 => "I32 access" | i64 => "I64 access" | f32 => "F32 access"
  | f64 => "F64 access"

/-- Unsigned views read only. -/
def writable : Access → Bool
  | u8 | u16 | u32 => false
  | _ => true

end Access

/-- A view needs the payload's native width. A signed view then fits every payload, an unsigned one
the integers and a floating one the floats. -/
def PayloadType.supports (t : PayloadType) (a : Access) : Bool :=
  a.type.width == t.width &&
    match a.type.format with
    | .signed => true
    | .unsigned => t.format != .float
    | .float => t.format == .float

namespace Payload

def require (t : PayloadType) (a : Access) : Except Fault Unit :=
  if t.supports a then .ok () else .error (.unsupported a.name t.name)

/-- The bits that a view looks at. -/
def viewBits (p : Payload) (a : Access) : Except Fault Word := do
  require p.type a
  return p.toWord

/-- Reads through a view. -/
def view (p : Payload) (a : Access) : Except Fault Payload := do
  return ofWord a.type (← p.viewBits a)

/-- The payload of type `t` that bits written through a view leave. -/
def replaceBits (t : PayloadType) (a : Access) (bits : Word) : Except Fault Payload := do
  require t a
  return ofWord t bits

/-- What writing `value` through a view leaves of a payload. The signed byte is put in place of the low
byte of what was there, after a check of its own; the other views replace everything. -/
def throughView (p : Payload) (a : Access) (value : Payload) : Except Fault Payload :=
  match a with
  | .i8 => do
    let bits ← p.viewBits .i8
    replaceBits p.type .i8 (bits &&& ~~~0xFF ||| value.toWord)
  | a => replaceBits p.type a value.toWord

/-- A payload of one byte has nothing above the byte. -/
theorem toWord_and_high {p : Payload} (h : p.type.width = 8) : p.toWord &&& ~~~0xFF = 0#64 := by
  have hlow : ∀ i < 8, (~~~0xFF : Word).getLsbD i = false := by decide
  apply BitVec.eq_of_getLsbD_eq
  intro i _
  rw [BitVec.getLsbD_and, toWord, BitVec.getLsbD_setWidth, BitVec.getLsbD_zero]
  by_cases hi : i < 8
  · rw [hlow i hi, Bool.and_false]
  · rw [BitVec.getLsbD_of_ge p.bits i (by omega), Bool.and_false, Bool.false_and]

/-- Only payloads of one byte have the signed byte's view, so that it too replaces everything. -/
theorem throughView_eq (p : Payload) (a : Access) (value : Payload) :
    p.throughView a value = replaceBits p.type a value.toWord := by
  unfold throughView
  split
  · unfold viewBits replaceBits require
    by_cases h : p.type.supports .i8 = true
    · have hwidth : p.type.width = 8 := by
        simp only [PayloadType.supports, Bool.and_eq_true, beq_iff_eq] at h
        exact h.1.symm
      simp only [if_pos h]
      change Except.ok (ofWord p.type (p.toWord &&& ~~~0xFF ||| value.toWord)) = _
      rw [toWord_and_high hwidth, BitVec.zero_or]
      rfl
    · simp only [if_neg h]
      rfl
  · rfl

theorem throughView_eq_ite (p : Payload) (a : Access) (value : Payload) :
    p.throughView a value =
      if p.type.supports a then .ok (value.reinterpret p.type)
      else .error (.unsupported a.name p.type.name) := by
  rw [throughView_eq, replaceBits, require]
  split <;> rfl

end Payload

end ManagedTypes
