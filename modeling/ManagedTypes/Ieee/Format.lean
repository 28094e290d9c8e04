/-! Binary interchange formats. A finite datum is a natural number of the format's least steps, so
that order, equality and rounding are facts about natural numbers. -/
namespace ManagedTypes.Ieee

-- Powers are the core library's, also where another instance is in scope.
attribute [local instance(2000)] instPowNat

/-- Widths of the fraction and exponent fields. -/
structure Format where
  fraction : Nat
  exponent : Nat
  deriving DecidableEq, Repr

def single : Format := ⟨23, 8⟩
def double : Format := ⟨52, 11⟩

inductive Datum
  | nan
  | infinite (negative : Bool)
  | finite (negative : Bool) (magnitude : Nat)
  deriving DecidableEq, Repr

namespace Format
variable (f : Format)

/-- The least step, the smallest subnormal, is `2 ^ -f.unit`. -/
def unit : Nat := 2 ^ (f.exponent - 1) - 2 + f.fraction

def signBit : Nat := 2 ^ (f.exponent + f.fraction)
def infinityBits : Nat := (2 ^ f.exponent - 1) * 2 ^ f.fraction

/-- The quiet NaN without sign and payload. -/
def nanBits : Nat := f.infinityBits + 2 ^ (f.fraction - 1)

def isNegative (bits : Nat) : Bool := bits / f.signBit % 2 == 1
def magnitudeBits (bits : Nat) : Nat := bits % f.signBit
def exponentField (bits : Nat) : Nat := bits / 2 ^ f.fraction % 2 ^ f.exponent
def fractionField (bits : Nat) : Nat := bits % 2 ^ f.fraction

def isNan (bits : Nat) : Bool := f.infinityBits < f.magnitudeBits bits
def isInfinite (bits : Nat) : Bool := f.magnitudeBits bits == f.infinityBits
def isFinite (bits : Nat) : Bool := f.magnitudeBits bits < f.infinityBits
def isZero (bits : Nat) : Bool := f.magnitudeBits bits == 0
def isSubnormal (bits : Nat) : Bool := f.exponentField bits == 0 && f.fractionField bits != 0
def isNormal (bits : Nat) : Bool := f.isFinite bits && f.exponentField bits != 0

/-- The number of least steps that a finite pattern stands for. -/
def steps (bits : Nat) : Nat :=
  if f.exponentField bits = 0 then f.fractionField bits
  else (2 ^ f.fraction + f.fractionField bits) * 2 ^ (f.exponentField bits - 1)

def decode (bits : Nat) : Datum :=
  if f.isNan bits then .nan
  else if f.isInfinite bits then .infinite (f.isNegative bits)
  else .finite (f.isNegative bits) (f.steps bits)

/-- Position on the line of the format's non-NaN patterns; the two zeros share one. -/
def rank (bits : Nat) : Int :=
  if f.isNegative bits then -(f.magnitudeBits bits : Int) else f.magnitudeBits bits

/-- Equality of numbers: false on NaN, true on the two zeros. -/
def equal (a b : Nat) : Bool := !f.isNan a && !f.isNan b && f.rank a == f.rank b

def less (a b : Nat) : Bool := !f.isNan a && !f.isNan b && decide (f.rank a < f.rank b)

/-- NaN is neither less nor greater than anything, and so counts as equal. -/
def order (a b : Nat) : Ordering :=
  if f.less a b then .lt else if f.less b a then .gt else .eq

end Format

end ManagedTypes.Ieee
