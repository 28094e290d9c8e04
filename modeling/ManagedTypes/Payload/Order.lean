import ManagedTypes.Payload.Basic

/-! Equality, order, hash codes and classes of payloads. -/
namespace ManagedTypes

/-- A 32-bit hash code. -/
abbrev HashCode := BitVec 32

def foldWord (w : Word) : HashCode := w.setWidth 32 ^^^ (w >>> 32).setWidth 32

namespace Payload

/-- Equality of the numbers: NaN equals nothing, the zeros equal each other, and payloads of two
types are never equal. -/
def equal (a b : Payload) : Bool :=
  a.type == b.type &&
    match a.content, b.content with
    | .integer v, .integer w => v == w
    | .float f x, .float _ y => f.equal x y
    | _, _ => false

/-- Order of the numbers of one type; NaN is neither less nor greater. -/
def order (a b : Payload) : Ordering :=
  match a.content, b.content with
  | .integer v, .integer w => compare v w
  | .float f x, .float _ y => f.order x y
  | _, _ => .eq

/-- The pattern that is hashed. Less one and without their sign, the zeros are the greatest of all
patterns and the NaNs are at least infinity: of both, only the bits that infinity has are kept. -/
def hashedBits (f : Ieee.Format) {width : Nat} (bits : BitVec width) : BitVec width :=
  let infinity := BitVec.ofNat width f.infinityBits
  let magnitude := BitVec.ofNat width (f.signBit - 1)
  if infinity.sle ((bits - 1) &&& magnitude) then bits &&& infinity else bits

/-- A word of its own width is folded, a narrower integer hashes to its value and a narrower float to
its pattern. -/
def hashCode (p : Payload) : HashCode :=
  match p.content with
  | .integer v => if p.type.width = 64 then foldWord p.toWord else BitVec.ofInt 32 v
  | .float f _ =>
    let bits := hashedBits f p.bits
    if p.type.width = 64 then foldWord (bits.setWidth 64) else bits.setWidth 32

/-- What a hash accumulator is fed. -/
def hashed (p : Payload) : List HashCode := [p.hashCode]

structure FloatClass where
  nan : Bool
  finite : Bool
  infinity : Bool
  positiveInfinity : Bool
  negativeInfinity : Bool
  negative : Bool
  normal : Bool
  subnormal : Bool
  deriving DecidableEq, Repr

/-- The class of a floating payload; the sign of a NaN counts as negative. -/
def classify? (p : Payload) : Option FloatClass :=
  match p.content with
  | .integer _ => none
  | .float f bits =>
    let infinite := f.isInfinite bits
    let negative := f.isNegative bits
    some ⟨f.isNan bits, f.isFinite bits, infinite, infinite && !negative, infinite && negative,
      negative, f.isNormal bits, f.isSubnormal bits⟩

theorem equal_type {a b : Payload} (h : a.equal b = true) : a.type = b.type := by
  simp only [equal, Bool.and_eq_true, beq_iff_eq] at h
  exact h.1

end Payload

end ManagedTypes
