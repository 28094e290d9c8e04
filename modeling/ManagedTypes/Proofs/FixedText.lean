import ManagedTypes.Proofs.ExactValue
import ManagedTypes.Proofs.ShortestDecimal
import ManagedTypes.Proofs.WrittenText
import ManagedTypes.Text.Formatter

/-! Fixed-point text is the exact number rounded to the places asked for. The number of a float is
the one that its shortest text denotes. -/
namespace ManagedTypes
open Numeral

namespace Payload

/-- Everything but NaN and the infinities. -/
def isFinite (p : Payload) : Bool :=
  match p.content with
  | .integer _ => true
  | .float f pattern => f.isFinite pattern

/-- The sign that a payload is written with, and its number without the sign. -/
def magnitude? (p : Payload) : Option (Bool × ℚ) :=
  match p.content with
  | .integer v => some (decide (v < 0), |(v : ℚ)|)
  | .float f pattern =>
    if f.isFinite pattern then
      (readMagnitude? 'e' (Decimal.shortestChars f pattern)).map (f.isNegative pattern, ·)
    else none

theorem ieee_cases {p : Payload} {f : Ieee.Format} {pattern : ℕ} (h : p.content = .float f pattern) :
    f = Ieee.single ∨ f = Ieee.double := by
  obtain ⟨t, bits⟩ := p
  cases t <;> cases h
  · exact .inl rfl
  · exact .inr rfl

theorem resolved_of_content {p : Payload} {f : Ieee.Format} {pattern : ℕ}
    (h : p.content = .float f pattern) : Decimal.Resolved f := by
  rcases ieee_cases h with rfl | rfl
  · exact Decimal.resolved_single
  · exact Decimal.resolved_double

theorem numeric_of_isNan {p : Payload} {f : Ieee.Format} {pattern : ℕ}
    (h : p.content = .float f pattern) (hnan : f.isNan pattern = true) :
    p.numeric = .special .nan := by
  simp only [numeric, h, Numeric.ofBits, Ieee.Format.decode_eq_nan_iff.mpr hnan]

theorem numeric_of_isInfinite {p : Payload} {f : Ieee.Format} {pattern : ℕ}
    (h : p.content = .float f pattern) (hinfinite : f.isInfinite pattern = true) :
    p.numeric =
      .special (if f.isNegative pattern then .negativeInfinity else .positiveInfinity) := by
  have hdecode := Ieee.Format.decode_eq_infinite_iff.mpr ⟨beq_iff_eq.mp hinfinite, rfl⟩
  simp only [numeric, h, Numeric.ofBits, hdecode]

theorem numeric_of_finite {p : Payload} {f : Ieee.Format} {pattern : ℕ}
    (h : p.content = .float f pattern) (hfinite : f.isFinite pattern = true) :
    p.numeric = .decimal (Decimal.ofFinite f pattern) := by
  have hdecode := Ieee.Format.decode_eq_finite_iff.mpr ⟨hfinite, rfl, rfl⟩
  simp only [numeric, h, Numeric.ofBits, hdecode]

/-- The decimal digits of a finite payload are those of its number. -/
theorem numeric_of_isFinite {p : Payload} (h : p.isFinite = true) :
    ∃ d : Decimal, p.numeric = .decimal d ∧ d.Normal ∧ p.magnitude? = some (d.negative, d.magnitude) := by
  cases hc : p.content with
  | integer v =>
    refine ⟨Decimal.ofInt v, by simp [numeric, hc], Decimal.normal_ofInt v, ?_⟩
    have hnegative : (Decimal.ofInt v).negative = decide (v < 0) := rfl
    simp [magnitude?, hc, Decimal.magnitude_ofInt, hnegative]
  | float f pattern =>
    have hfinite : f.isFinite pattern = true := by simpa [isFinite, hc] using h
    have hresolved := resolved_of_content hc
    have hread := Decimal.readMagnitude?_exponentChars (Decimal.normal_shortest f pattern).digits_lt
    have hnegative : (Decimal.ofFinite f pattern).negative = f.isNegative pattern := rfl
    refine ⟨Decimal.ofFinite f pattern, numeric_of_finite hc hfinite,
      Decimal.normal_ofFinite hresolved hfinite, ?_⟩
    rw [hnegative, Decimal.magnitude_ofFinite hresolved hfinite]
    simp [magnitude?, hc, hfinite, Decimal.shortestChars, hread]

end Payload

namespace FormatString

/-- A letter and digits whose value is at most the greatest precision. -/
theorem parse_digits {letter : Char} {digits : List Char} (hletter : letter.isAlpha = true)
    (hdigits : ∀ c ∈ digits, c.isDigit = true)
    (hbound : value 10 (digits.map digitValue) ≤ maxPrecision) :
    parse (String.ofList (letter :: digits)) =
      .ok ⟨letter, if digits = [] then none else some (value 10 (digits.map digitValue))⟩ := by
  have hall : digits.all Char.isDigit = true := List.all_eq_true.mpr hdigits
  unfold parse
  rw [String.toList_ofList]
  dsimp only
  rw [hletter, hall]
  by_cases hnil : digits = []
  · simp [hnil]
  · generalize value 10 (digits.map digitValue) = n at hbound
    have hword : ¬ 0xFFFFFFFFFFFFFFFF < n := by
      unfold maxPrecision at hbound
      omega
    rw [if_neg hnil, if_neg (by simp), if_neg (by simpa using hnil), if_neg (by simpa using hword),
      if_neg (Nat.not_lt.mpr hbound)]

end FormatString

namespace Layout

/-- Digits that read as a number rounded to `places` decimals, a half going away from zero. -/
structure IsFixed (x : ℚ) (places : ℕ) (whole tail : List Char) : Prop where
  whole_digits : ∀ c ∈ whole, c.isDigit = true
  tail_digits : ∀ c ∈ tail, c.isDigit = true
  whole_ne : whole ≠ []
  leading : whole.head? = some '0' → whole = ['0']
  length_tail : tail.length = places
  value_eq : (value 10 (whole.map digitValue) : ℚ) + value 10 (tail.map digitValue) / 10 ^ places =
    Decimal.roundHalf (x * 10 ^ places) / 10 ^ places

/-- Rounding leaves exactly the digits that the layout shows. -/
theorem isFixed_roundTo {d : Decimal} (h : d.Normal) (places : ℕ) :
    let r := d.roundTo (d.scale + places)
    IsFixed d.magnitude places ((wholeDigits r).map lowerChar)
      ((window r r.scale places).map lowerChar) := by
  intro r
  have hr : r.Normal := Decimal.normal_roundTo h _
  have hwhole := wholeDigits_lt hr.digits_lt
  have htail := window_lt hr.digits_lt r.scale places
  have hround := Decimal.magnitude_roundTo h.digits_lt (d.scale + places)
  refine ⟨all_isDigit hwhole, all_isDigit htail, by simpa using wholeDigits_ne_nil r,
    whole_chars_head hr, by simp, ?_⟩
  rw [map_digitValue hwhole, map_digitValue htail,
    whole_add_places (Decimal.length_roundTo_le d h.digits_lt places), hround, add_sub_cancel_left,
    sub_add_cancel_left, zpow_natCast, zpow_neg, zpow_natCast, div_eq_mul_inv]

variable (symbols : NumberSymbols)

theorem render_fixed (d : Decimal) (places : ℕ) :
    let r := d.roundTo (d.scale + places)
    (fixed d places none).render symbols = String.ofList (fixedText symbols d.negative
      ((wholeDigits r).map lowerChar) ((window r r.scale places).map lowerChar)) := by
  intro r
  rw [Template.render, ← chars_positional, ← Decimal.roundTo_negative d (d.scale + places)]
  rfl

theorem render_fixed_grouped (d : Decimal) (places size : ℕ) :
    let r := d.roundTo (d.scale + places)
    (fixed d places (some size)).render symbols = String.ofList (fixedText symbols d.negative
      (symbols.groupSeparator.toList.intercalate (groups size ((wholeDigits r).map lowerChar)))
      ((window r r.scale places).map lowerChar)) := by
  intro r
  rw [Template.render, fixed, digitsFrom_eq, whole_eq]
  simp only [List.flatMap_append, chars_sign, chars_grouped, chars_fraction, fixedText,
    Decimal.roundTo_negative, List.map_eq_nil_iff, r]

theorem render_percent (d : Decimal) (places size : ℕ) :
    let r := d.percent.roundTo (d.percent.scale + places)
    Template.render symbols
        (fixed d.percent places (some size) ++ [Piece.char ' ', Piece.symbol .percent]) =
      String.ofList (fixedText symbols d.negative
        (symbols.groupSeparator.toList.intercalate (groups size ((wholeDigits r).map lowerChar)))
        ((window r r.scale places).map lowerChar) ++ ' ' :: symbols.percentSymbol.toList) := by
  intro r
  have hnegative : d.percent.negative = d.negative := by
    unfold Decimal.percent
    split <;> rfl
  have hsuffix : Template.render symbols [Piece.char ' ', Piece.symbol .percent] =
      String.ofList (' ' :: symbols.percentSymbol.toList) := by
    simp [Template.render, Piece.chars, NumberSymbols.text]
  rw [Template.render_append, render_fixed_grouped, hsuffix, hnegative, ← String.ofList_append]

end Layout

namespace Standard

theorem template_numeric {size : ℕ} {f : FormatString} {p : Payload} {s : Style} {d : Decimal}
    (hstyle : Specifier.ofLetter? f.letter = some (.numeric s)) (hnumeric : p.numeric = .decimal d) :
    template size f p = .ok (number size f s p.type d) := by
  unfold template
  rw [hstyle, hnumeric]

theorem format_eq {symbols : NumberSymbols} {text : String} {f : FormatString} {p : Payload}
    {t : Template} (hparse : FormatString.parse text = .ok f)
    (htemplate : template symbols.groupSize f p = .ok t) :
    format symbols text p = .ok (t.render symbols) := by
  rw [format_eq_bind]
  rw [hparse]
  simp only [bind, Except.bind, htemplate, pure, Except.pure]

end Standard

namespace NumberFormatter

/-- A finite payload is written in the style of the letter. -/
theorem standard_format (own : NumberSymbols) (provider : Option NumberSymbols) {p : Payload}
    {d : Decimal} (hnumeric : p.numeric = .decimal d) {letter : Char} (hletter : letter.isAlpha = true)
    {s : Style} (hstyle : Specifier.ofLetter? letter = some (.numeric s)) {digits : List Char}
    (hdigits : ∀ c ∈ digits, c.isDigit = true)
    (hbound : value 10 (digits.map digitValue) ≤ FormatString.maxPrecision) :
    (standard own).format (String.ofList (letter :: digits)) provider p =
      .ok ((Standard.number (provider.getD own).groupSize
        ⟨letter, if digits = [] then none else some (value 10 (digits.map digitValue))⟩
        s p.type d).render (provider.getD own)) := by
  have hparse := FormatString.parse_digits hletter hdigits hbound
  have htemplate : Standard.template (provider.getD own).groupSize
      ⟨letter, if digits = [] then none else some (value 10 (digits.map digitValue))⟩ p = _ :=
    Standard.template_numeric hstyle hnumeric
  unfold standard
  dsimp only
  rw [Standard.format_eq hparse htemplate]

/-- Fixed-point, grouped and percent text of every finite payload, under every precision that a
format string can have: the number rounded to the places asked for, behind its own sign. -/
theorem standard_fixed_point (own : NumberSymbols) (provider : Option NumberSymbols)
    (p : Payload) (hp : p.isFinite = true) (precision : List Char)
    (hdigits : ∀ c ∈ precision, c.isDigit = true)
    (hbound : value 10 (precision.map digitValue) ≤ 99) :
    let symbols := provider.getD own
    let places := if precision = [] then 2 else value 10 (precision.map digitValue)
    let written (letter : Char) (text : List Char) :=
      (standard own).format (String.ofList (letter :: precision)) provider p =
        .ok (String.ofList text)
    let grouped (whole : List Char) :=
      symbols.groupSeparator.toList.intercalate (groups symbols.groupSize whole)
    ∃ negative x, p.magnitude? = some (negative, x) ∧
      (∃ whole tail, Layout.IsFixed x places whole tail ∧
        (∀ letter ∈ ['F', 'f'], written letter (Layout.fixedText symbols negative whole tail)) ∧
        ∀ letter ∈ ['N', 'n'],
          written letter (Layout.fixedText symbols negative (grouped whole) tail)) ∧
      ∃ whole tail, Layout.IsFixed (100 * x) places whole tail ∧
        ∀ letter ∈ ['P', 'p'], written letter
          (Layout.fixedText symbols negative (grouped whole) tail ++
            ' ' :: symbols.percentSymbol.toList) := by
  intro symbols places written grouped
  obtain ⟨d, hnumeric, hnormal, hexact⟩ := Payload.numeric_of_isFinite hp
  have hplaces : (if precision = [] then none
      else some (value 10 (precision.map digitValue))).getD 2 = places := by
    simp only [places]
    split <;> rfl
  -- none of the three styles looks at the letter
  have hwritten {letters : List Char} {s : Style} {text : List Char}
      (hletters : ∀ letter ∈ letters,
        letter.isAlpha = true ∧ Specifier.ofLetter? letter = some (.numeric s))
      (hrender : ∀ letter, (Standard.number symbols.groupSize
        ⟨letter, if precision = [] then none else some (value 10 (precision.map digitValue))⟩
        s p.type d).render symbols = String.ofList text) :
      ∀ letter ∈ letters, written letter text := by
    intro letter hletter
    obtain ⟨halpha, hstyle⟩ := hletters letter hletter
    have hformat := standard_format own provider hnumeric halpha hstyle hdigits hbound
    rw [hrender letter] at hformat
    exact hformat
  have hpercent := Layout.isFixed_roundTo (Decimal.normal_percent hnormal) places
  rw [Decimal.magnitude_percent] at hpercent
  refine ⟨d.negative, d.magnitude, hexact, ⟨_, _, Layout.isFixed_roundTo hnormal places, ?_, ?_⟩,
    _, _, hpercent, ?_⟩
  · refine hwritten (s := .fixed) (List.forall_mem_cons.mpr
      ⟨⟨by decide, rfl⟩, List.forall_mem_singleton.mpr ⟨by decide, rfl⟩⟩) fun letter => ?_
    rw [Standard.number, hplaces, Layout.render_fixed]
  · refine hwritten (s := .number) (List.forall_mem_cons.mpr
      ⟨⟨by decide, rfl⟩, List.forall_mem_singleton.mpr ⟨by decide, rfl⟩⟩) fun letter => ?_
    rw [Standard.number, hplaces, Layout.render_fixed_grouped]
  · refine hwritten (s := .percent) (List.forall_mem_cons.mpr
      ⟨⟨by decide, rfl⟩, List.forall_mem_singleton.mpr ⟨by decide, rfl⟩⟩) fun letter => ?_
    rw [Standard.number, hplaces, Layout.render_percent]

/-- For the single nearest to -0.004, two places. -/
theorem standard_fixed_point_small :
    let p := Payload.ofNat .single 0xBB83126F
    p.isFinite = true ∧ ∃ negative x whole tail, p.magnitude? = some (negative, x) ∧
      Layout.IsFixed x 2 whole tail ∧
      (standard .invariant).format (String.ofList ['F', '2']) none p =
        .ok (String.ofList (Layout.fixedText .invariant negative whole tail)) := by
  intro p
  have hp : p.isFinite = true := by decide +kernel
  obtain ⟨negative, x, hexact, ⟨whole, tail, hrounded, hfixed, _⟩, _⟩ :=
    standard_fixed_point .invariant none p hp ['2'] (by simp [Char.isDigit]) (by decide)
  have hplaces : value 10 (['2'].map digitValue) = 2 := by decide
  rw [if_neg (by decide), hplaces] at hrounded
  exact ⟨hp, negative, x, whole, tail, hexact, hrounded, hfixed 'F' (by simp)⟩

end NumberFormatter

end ManagedTypes
