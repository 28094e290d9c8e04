import ManagedTypes.Numeral

/-! Decimal numbers as digit lists: `0.d₁d₂d₃… × 10 ^ scale` with a sign of its own, so that a zero
keeps its sign. -/
namespace ManagedTypes

/-- Zero has no digits. -/
structure Decimal where
  negative : Bool
  digits : List Nat
  scale : Int
  deriving DecidableEq, Repr

namespace Decimal

def isZero (d : Decimal) : Bool := d.digits.isEmpty

/-- The digit at a position, the first being position 0; zero outside the list. -/
def digitAt (d : Decimal) (i : Int) : Nat := if i < 0 then 0 else d.digits.getD i.toNat 0

def dropTrailingZeros (ds : List Nat) : List Nat := (ds.reverse.dropWhile (· == 0)).reverse

/-- No zero at either end, and scale 0 for zero. -/
def normalize (d : Decimal) : Decimal :=
  let kept := dropTrailingZeros d.digits
  let digits := kept.dropWhile (· == 0)
  let leading := (kept.takeWhile (· == 0)).length
  ⟨d.negative, digits, if digits.isEmpty then 0 else d.scale - leading⟩

/-- The number `n × 10 ^ exponent`. -/
def scaled (negative : Bool) (n : Nat) (exponent : Int) : Decimal :=
  let digits := Numeral.digits 10 n
  normalize ⟨negative, digits, digits.length + exponent⟩

def ofInt (v : Int) : Decimal := scaled (v < 0) v.natAbs 0

/-- A hundred times the number. -/
def percent (d : Decimal) : Decimal := if d.isZero then d else { d with scale := d.scale + 2 }

/-- One more in the last place of a digit list, with the carry out of its front. -/
def increment : List Nat → Bool × List Nat
  | [] => (true, [])
  | d :: ds =>
    let (carry, rest) := increment ds
    if carry then (if d = 9 then (true, 0 :: rest) else (false, (d + 1) :: rest))
    else (false, d :: rest)

/-- Keeps `keep` digits, a half going away from zero. -/
def roundTo (d : Decimal) (keep : Int) : Decimal :=
  if keep < 0 then ⟨d.negative, [], 0⟩
  else if d.digits.length ≤ keep.toNat then d
  else
    let head := d.digits.take keep.toNat
    if d.digitAt keep < 5 then normalize ⟨d.negative, head, d.scale⟩
    else
      let (carry, digits) := increment head
      if carry then normalize ⟨d.negative, 1 :: digits, d.scale + 1⟩
      else normalize ⟨d.negative, digits, d.scale⟩

@[simp] theorem roundTo_negative (d : Decimal) (keep : Int) :
    (d.roundTo keep).negative = d.negative := by
  unfold roundTo
  split
  · rfl
  split
  · rfl
  simp only
  split
  · rfl
  split <;> rfl

end Decimal

end ManagedTypes
