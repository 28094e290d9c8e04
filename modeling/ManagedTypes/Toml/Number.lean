import ManagedTypes.Ieee.Format
import ManagedTypes.Toml.Node
import ManagedTypes.Toml.Scan

/-! Integers, floats and date-times. -/
namespace ManagedTypes.Toml

-- Powers are the core library's, also where another instance is in scope.
attribute [local instance(2000)] instPowNat

def readSign : List Char → Option Char × List Char
  | '+' :: rest => (some '+', rest)
  | '-' :: rest => (some '-', rest)
  | cs => (none, cs)

/-- A decimal integer without its sign has no leading zero. -/
def readWhole : Reader (List Char)
  | '0' :: rest => some (['0'], rest)
  | cs => digits Char.isDigit cs

def integerOf (v : Int) : Option Scalar :=
  if -0x8000000000000000 ≤ v ∧ v ≤ 0x7FFFFFFFFFFFFFFF then some (.integer v) else none

def readBased (base : Nat) (isDigit : Char → Bool) : Reader Scalar := fun cs => do
  let (ds, rest) ← digits isDigit cs
  return (← integerOf (numeral base ds), rest)

/-- Only a decimal integer has a sign. -/
def readInteger : Reader Scalar
  | '0' :: 'x' :: rest => readBased 16 (fun c => (hexValue? c).isSome) rest
  | '0' :: 'o' :: rest => readBased 8 (fun c => '0' ≤ c && c ≤ '7') rest
  | '0' :: 'b' :: rest => readBased 2 (fun c => c == '0' || c == '1') rest
  | cs => do
    let (sign, cs) := readSign cs
    let (ds, rest) ← readWhole cs
    let n : Int := numeral 10 ds
    return (← integerOf (if sign = some '-' then -n else n), rest)

/-- The number `n × 10 ^ e` is too large for a double: at least the midpoint between the largest
finite double and the power of two above it. Its exponent decides, but for one binade. -/
def isHuge (n : Nat) (e : Int) : Bool :=
  let limit := 1 <<< 1024 - 1 <<< 970
  let places := Numeral.length10 n + e
  if n = 0 ∨ places < 309 then false
  else if 309 < places then true
  else decide (limit * 10 ^ (-e).toNat ≤ n * 10 ^ e.toNat)

def readFraction : Reader (List Char)
  | '.' :: rest => digits Char.isDigit rest
  | _ => none

def readExponent : Reader Int
  | c :: rest =>
    if c = 'e' ∨ c = 'E' then do
      let (sign, rest) := readSign rest
      let (ds, rest) ← digits Char.isDigit rest
      let n : Int := numeral 10 ds
      return (if sign = some '-' then -n else n, rest)
    else none
  | [] => none

def readSpecial : Reader Scalar
  | 'i' :: 'n' :: 'f' :: rest => some (.float, rest)
  | 'n' :: 'a' :: 'n' :: rest => some (.float, rest)
  | _ => none

/-- A float has a fraction, an exponent or both, or is infinity or NaN. A positive one must not be
too large. -/
def readFloat : Reader Scalar := fun cs => do
  let (sign, cs) := readSign cs
  match readWhole cs with
  | none => readSpecial cs
  | some (whole, rest) =>
    let (places, afterFraction) := (readFraction rest).getD ([], rest)
    let (e, afterExponent) := (readExponent afterFraction).getD (0, afterFraction)
    if afterExponent.length = rest.length then none
    let n := numeral 10 (whole ++ places)
    if sign ≠ some '-' ∧ isHuge n (e - places.length) then none
    return (.float, afterExponent)

/-- A number of exactly `count` digits within bounds. -/
def readField (count low high : Nat) : Reader Nat := fun cs =>
  let ds := cs.take count
  let n := numeral 10 ds
  if ds.length = count ∧ ds.all Char.isDigit ∧ low ≤ n ∧ n ≤ high then some (n, cs.drop count)
  else none

def readChar (c : Char) : Reader Unit
  | d :: rest => if c = d then some ((), rest) else none
  | [] => none

def isLeapYear (year : Nat) : Bool := year % 4 == 0 && (year % 100 != 0 || year % 400 == 0)

def daysInMonth (year month : Nat) : Nat :=
  if month = 2 then (if isLeapYear year then 29 else 28)
  else if month = 4 ∨ month = 6 ∨ month = 9 ∨ month = 11 then 30
  else 31

def readDate : Reader Unit := fun cs => do
  let (year, cs) ← readField 4 0 9999 cs
  let (_, cs) ← readChar '-' cs
  let (month, cs) ← readField 2 1 12 cs
  let (_, cs) ← readChar '-' cs
  let (_, cs) ← readField 2 1 (daysInMonth year month) cs
  return ((), cs)

/-- Digits after the seconds, if there are any. -/
def skipSecondFraction (cs : List Char) : List Char :=
  match cs with
  | '.' :: rest => if (rest.takeWhile Char.isDigit).isEmpty then cs else rest.dropWhile Char.isDigit
  | _ => cs

def readTime : Reader Unit := fun cs => do
  let (_, cs) ← readField 2 0 23 cs
  let (_, cs) ← readChar ':' cs
  let (_, cs) ← readField 2 0 59 cs
  let (_, cs) ← readChar ':' cs
  let (_, cs) ← readField 2 0 60 cs
  return ((), skipSecondFraction cs)

def readOffset : Reader Unit
  | c :: rest =>
    if c = 'Z' ∨ c = 'z' then some ((), rest)
    else if c = '+' ∨ c = '-' then do
      let (_, cs) ← readField 2 0 23 rest
      let (_, cs) ← readChar ':' cs
      let (_, cs) ← readField 2 0 59 cs
      return ((), cs)
    else none
  | [] => none

/-- The time of day after a date, with an offset if there is one. -/
def readTimeOfDate : Reader Unit
  | c :: rest =>
    if c = 'T' ∨ c = 't' ∨ c = ' ' then do
      let (_, cs) ← readTime rest
      return (readOffset cs).getD ((), cs)
    else none
  | [] => none

/-- A date, a date with a time of day, or a time of day alone. -/
def readMoment : Reader Scalar := fun cs =>
  match readDate cs with
  | some (_, rest) => some (.moment, ((readTimeOfDate rest).getD ((), rest)).2)
  | none => do
    let (_, rest) ← readTime cs
    return (.moment, rest)

def readNumber : Reader Scalar := fun cs => readMoment cs <|> readFloat cs <|> readInteger cs

end ManagedTypes.Toml
