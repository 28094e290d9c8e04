import ManagedTypes.Ieee.Format

/-! Rounding to nearest, ties to even: quotients to integers, numbers to patterns of a format. -/
namespace ManagedTypes.Ieee

-- Powers are the core library's, also where another instance is in scope.
attribute [local instance(2000)] instPowNat

/-- The integer nearest to `n / d`, the even one of two. -/
def roundQuotient (n d : Nat) : Nat :=
  let q := n / d
  let r := n % d
  if 2 * r < d then q else if d < 2 * r then q + 1 else q + q % 2

namespace Format
variable (f : Format)

/-- The pattern of the nonnegative number nearest to `n / d` least steps. Patterns grow with the
numbers they stand for, so a carry out of the fraction lands in the exponent, and everything from
the first unrepresentable number on is infinity. -/
def nearest (n d : Nat) : Nat :=
  let shift := (n / d).log2 - f.fraction
  min (shift * 2 ^ f.fraction + roundQuotient n (d * 2 ^ shift)) f.infinityBits

def withSign (negative : Bool) (magnitude : Nat) : Nat :=
  if negative then f.signBit + magnitude else magnitude

/-- The pattern nearest to an integer. -/
def ofInt (v : Int) : Nat := f.withSign (v < 0) (f.nearest (v.natAbs * 2 ^ f.unit) 1)

/-- The pattern of `f` nearest to a datum of `g`. -/
def ofDatum (g : Format) : Datum → Nat
  | .nan => f.nanBits
  | .infinite negative => f.withSign negative f.infinityBits
  | .finite negative magnitude =>
    f.withSign negative (f.nearest (magnitude * 2 ^ f.unit) (2 ^ g.unit))

/-- A finite datum rounded to an integer. -/
def roundToInt (negative : Bool) (magnitude : Nat) : Int :=
  let n : Int := roundQuotient magnitude (2 ^ f.unit)
  if negative then -n else n

end Format

end ManagedTypes.Ieee
