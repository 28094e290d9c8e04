import ManagedTypes.Text.Standard

/-! Templates: text whose symbols are still open. A layout of a number is a template, so it cannot look
at what the symbols are. -/
namespace ManagedTypes

inductive Piece
  | char (c : Char)
  | symbol (s : Symbol)
  deriving DecidableEq, Repr

def Piece.chars (symbols : NumberSymbols) : Piece → List Char
  | .char c => [c]
  | .symbol s => (symbols.text s).toList

abbrev Template := List Piece

namespace Template

def render (symbols : NumberSymbols) (t : Template) : String :=
  String.ofList (t.flatMap (Piece.chars symbols))

theorem toList_render (symbols : NumberSymbols) (t : Template) :
    (render symbols t).toList = t.flatMap (Piece.chars symbols) := String.toList_ofList

theorem render_append (symbols : NumberSymbols) (s t : Template) :
    render symbols (s ++ t) = render symbols s ++ render symbols t := by
  simp [render, String.ofList_append]

end Template

/-- Cuts a list from the right into groups of `size`; the first one may be shorter. -/
def groups {α : Type} (size : Nat) (xs : List α) : List (List α) :=
  if _h : 0 < size ∧ size < xs.length then
    groups size (xs.take (xs.length - size)) ++ [xs.drop (xs.length - size)]
  else [xs]
termination_by xs.length
decreasing_by simp only [List.length_take]; omega

namespace Layout

def digit (d : Nat) : Piece := .char (Numeral.lowerChar d)

def sign (negative : Bool) : Template := if negative then [.symbol .negativeSign] else []

/-- `count` digits of a number, beginning at a position of its digit list. -/
def digitsFrom (d : Decimal) (start : Int) (count : Nat) : Template :=
  (List.range count).map fun (k : Nat) => digit (d.digitAt (start + k))

def grouped (size : Nat) (whole : Template) : Template :=
  [Piece.symbol .groupSeparator].intercalate (groups size whole)

/-- The digits before the separator. -/
def whole (d : Decimal) : Template :=
  if d.scale ≤ 0 then [digit 0] else digitsFrom d 0 d.scale.toNat

/-- The separator and what follows it, when anything does. -/
def fraction (tail : Template) : Template :=
  if tail.isEmpty then [] else .symbol .decimalSeparator :: tail

/-- Exactly `decimals` places; the integral digits are grouped if a group size is given. -/
def fixed (d : Decimal) (decimals : Nat) (groupSize : Option Nat) : Template :=
  let r := d.roundTo (d.scale + decimals)
  let integral := match groupSize with
    | some size => grouped size (whole r)
    | none => whole r
  sign r.negative ++ integral ++ fraction (digitsFrom r r.scale decimals)

def exponent (e : Int) (width : Nat) : Template :=
  .symbol (if e < 0 then .negativeSign else .positiveSign)
    :: (Numeral.padded width (Numeral.digits 10 e.natAbs)).map digit

/-- One digit, `decimals` places, and an exponent of at least three digits. -/
def scientific (d : Decimal) (decimals : Nat) (marker : Char) : Template :=
  let r := d.roundTo (decimals + 1)
  sign r.negative ++ digitsFrom r 0 1 ++ fraction (digitsFrom r 1 decimals)
    ++ .char marker :: exponent (if r.isZero then 0 else r.scale - 1) 3

/-- Significant digits only, positional unless the number is below `10 ^ -4` or its integral part
has more than `limit` digits. -/
def general (d : Decimal) (limit : Option Nat) : Template :=
  let count := d.digits.length
  let tooLong := match limit with
    | some n => (n : Int) < d.scale
    | none => false
  if d.isZero then sign d.negative ++ [digit 0]
  else if d.scale < -3 || tooLong then
    sign d.negative ++ digitsFrom d 0 1 ++ fraction (digitsFrom d 1 (count - 1))
      ++ .char 'E' :: exponent (d.scale - 1) 2
  else
    let places := (count : Int) - d.scale
    sign d.negative ++ whole d ++ fraction (digitsFrom d d.scale places.toNat)

end Layout

namespace Standard

/-- A number with all its digits; however many they are, they do not force an exponent. -/
def allDigits (t : PayloadType) (d : Decimal) : Template :=
  Layout.general d (t.positionalDigits.map (max d.digits.length))

def general (t : PayloadType) (d : Decimal) (precision : Option Nat) : Template :=
  match precision with
  | none | some 0 => allDigits t d
  | some n => Layout.general (d.roundTo n) (some n)

def decimal (v : Int) (width : Nat) : Template :=
  Layout.sign (v < 0) ++ (Numeral.padded width (Numeral.digits 10 v.natAbs)).map Layout.digit

def hexadecimal (pattern width : Nat) (lower : Bool) : Template :=
  (Numeral.padded width (Numeral.digits 16 pattern)).map fun d =>
    .char (if lower then Numeral.lowerChar d else Numeral.upperChar d)

def number (groupSize : Nat) (f : FormatString) (s : Style) (t : PayloadType) (d : Decimal) :
    Template :=
  match s with
  | .fixed => Layout.fixed d (f.precision.getD 2) none
  | .number => Layout.fixed d (f.precision.getD 2) (some groupSize)
  | .percent =>
    Layout.fixed d.percent (f.precision.getD 2) (some groupSize)
      ++ [.char ' ', .symbol .percent]
  | .scientific => Layout.scientific d (f.precision.getD 6) (if f.letter = 'e' then 'e' else 'E')
  | .roundTrip => allDigits t d
  | .general => general t d f.precision

/-- The template of a payload under a format string. Of the symbols it needs the group size alone. -/
def template (groupSize : Nat) (f : FormatString) (p : Payload) : Except FormatFault Template :=
  match Specifier.ofLetter? f.letter with
  | none => .error (.unknownSpecifier f.letter)
  | some .decimal => match p.integer? with
    | some v => .ok (decimal v (f.precision.getD 0))
    | none => .error (.integralOnly f.letter)
  | some .hexadecimal => match p.pattern? with
    | some n => .ok (hexadecimal n (f.precision.getD 0) (f.letter == 'x'))
    | none => .error (.integralOnly f.letter)
  | some (.numeric s) => match p.numeric with
    | .special symbol => .ok [.symbol symbol]
    | .decimal d => .ok (number groupSize f s p.type d)

end Standard

end ManagedTypes
