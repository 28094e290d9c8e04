import ManagedTypes.Decimal.ExponentText
import ManagedTypes.Ieee.Format

/-! The shortest decimal that rounds back to a finite datum. A decimal reads back when it lies
between the midpoints to the datum's neighbours, the midpoints themselves belonging to a datum with
an even significand. Of the coarsest decimal grid that has such a point, the nearest is taken, and
the upper of two equally near ones. -/
namespace ManagedTypes.Decimal

-- Powers are the core library's, also where another instance is in scope.
attribute [local instance(2000)] instPowNat
open Ieee

/-- An interval around a number, all three in units of `1 / denominator`. -/
structure Neighbourhood where
  low : Nat
  centre : Nat
  high : Nat
  denominator : Nat
  closed : Bool

/-- The decimals that round to a finite pattern, counted in quarters of the least step. The
neighbour below a power of two is only half as far as the one above. -/
def Neighbourhood.ofBits (f : Format) (bits : Nat) : Neighbourhood :=
  let e := f.exponentField bits
  let gap := 2 ^ (e - 1)
  let centre := 4 * f.steps bits
  let below := if f.fractionField bits = 0 ∧ 1 < e then gap else 2 * gap
  ⟨centre - below, centre, centre + 2 * gap, 2 ^ (f.unit + 2), bits % 2 == 0⟩

namespace Neighbourhood
variable (r : Neighbourhood)

/-- The exponent of the leading decimal digit of the centre. -/
def exponent : Int :=
  if r.denominator ≤ r.centre then (Numeral.length10 (r.centre / r.denominator) : Int) - 1
  else -(Numeral.length10 ((r.denominator + r.centre - 1) / r.centre - 1) : Int)

/-- The grid of multiples of `10 ^ t`: a point `c` is the number `c * p` where the centre is
`centre * q`. -/
def gridUnit (t : Int) : Nat := 10 ^ t.toNat * r.denominator
def gridScale (t : Int) : Nat := 10 ^ (-t).toNat

def contains (t : Int) (c : Nat) : Bool :=
  let x := c * r.gridUnit t
  let low := r.low * gridScale t
  let high := r.high * gridScale t
  if r.closed then decide (low ≤ x ∧ x ≤ high) else decide (low < x ∧ x < high)

/-- The grid point at or below the centre. -/
def floor (t : Int) : Nat := r.centre * gridScale t / r.gridUnit t

/-- The grid point nearest to the centre, the upper of two. -/
def nearest (t : Int) : Nat :=
  let rest := r.centre * gridScale t % r.gridUnit t
  if 2 * rest < r.gridUnit t then r.floor t else r.floor t + 1

/-- The point of the grid that reads back, if there is one. -/
def hit? (t : Int) : Option Nat :=
  let c := r.nearest t
  let other := if c = r.floor t then c + 1 else r.floor t
  if r.contains t c then some c else if r.contains t other then some other else none

/-- Searches the grids of 1, 2, … digits; the finest one always has its nearest point taken. -/
def search (t : Int) : Nat → Nat × Int
  | 0 => (r.nearest t, t)
  | n + 1 => match r.hit? t with
    | some c => (c, t)
    | none => search (t - 1) n

end Neighbourhood

/-- Nine digits tell all singles apart, seventeen all doubles. -/
def enoughDigits (f : Format) : Nat := if f = Ieee.single then 9 else 17

/-- The shortest decimal of a finite pattern, without its sign. -/
def shortest (f : Format) (bits : Nat) : Decimal :=
  if f.isZero bits then ⟨false, [], 0⟩
  else
    let r := Neighbourhood.ofBits f bits
    let (c, t) := r.search r.exponent (enoughDigits f - 1)
    scaled false c t

/-- A finite pattern's shortest decimal as exponent text, without the sign. -/
def shortestChars (f : Format) (bits : Nat) : List Char := exponentChars (shortest f bits)

/-- The decimal that a finite pattern is written with. -/
def ofFinite (f : Format) (bits : Nat) : Decimal :=
  ofExponentChars (f.isNegative bits) (shortestChars f bits)

end ManagedTypes.Decimal
