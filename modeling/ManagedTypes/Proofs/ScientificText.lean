import ManagedTypes.Proofs.FixedText
import ManagedTypes.Proofs.SignificantDigits

/-! Scientific text is the exact number rounded to significant digits: one digit, the others behind a
separator, and the power of ten that the first digit stands for. -/
namespace ManagedTypes
open Numeral

namespace Numeral

/-- A numeral filled up with zeros to a width, and with no other zero in front. -/
structure IsPadded (width n : ℕ) (text : List Char) : Prop where
  digits : ∀ c ∈ text, c.isDigit = true
  width_le : width ≤ text.length
  leading : text.head? = some '0' → text.length = width
  value_eq : value 10 (text.map digitValue) = n

theorem isPadded_padded {width : ℕ} (hwidth : 0 < width) (n : ℕ) :
    IsPadded width n ((padded width (digits 10 n)).map lowerChar) where
  digits := all_isDigit (padded_lt (by norm_num) width n)
  width_le := by
    rw [List.length_map, length_padded]
    exact le_max_left _ _
  leading hhead := by
    have hlength := length_padded width (Numeral.digits 10 n)
    rw [List.length_map, hlength]
    by_contra hlong
    -- without padding the first digit is the numeral's own
    have hnone : padded width (Numeral.digits 10 n) = Numeral.digits 10 n := by
      rw [padded, Nat.sub_eq_zero_of_le (by omega), List.replicate_zero, List.nil_append]
    rw [hnone, List.head?_map] at hhead
    have hzero := eq_zero_of_map_lowerChar
      (fun d hd => digits_lt (by norm_num) d (List.mem_of_mem_head? hd)) hhead
    rcases Nat.eq_zero_or_pos n with rfl | hpos
    · rw [digits_of_lt (by norm_num), List.length_singleton] at hlong
      omega
    · exact head_digits hpos hzero
  value_eq := by rw [map_digitValue (padded_lt (by norm_num) width n), value_padded]

end Numeral

namespace Layout

/-- One digit and `places` others, and a power of ten, that read as a number rounded to as many
significant digits. -/
structure IsScientific (x : ℚ) (places : ℕ) (lead : Char) (tail : List Char) (e : ℤ) : Prop where
  lead_digit : lead.isDigit = true
  tail_digits : ∀ c ∈ tail, c.isDigit = true
  length_tail : tail.length = places
  leading : lead = '0' → x = 0
  exponent_zero : x = 0 → e = 0
  value_eq : ((digitValue lead : ℚ) + value 10 (tail.map digitValue) / 10 ^ places) * 10 ^ e =
    Decimal.roundSignificant (places + 1) x

variable {d : Decimal}

theorem value_lead {places : ℕ} (hfit : d.digits.length ≤ places + 1) :
    ((d.digitAt 0 : ℚ) + value 10 (window d 1 places) / 10 ^ places) * 10 ^ (d.scale - 1) =
      d.magnitude := by
  have hpow : (10 : ℚ) ^ places ≠ 0 := by positivity
  have hdigits := congrArg (value 10) (window_lead hfit)
  rw [value_cons, length_window, value_append_zeros] at hdigits
  have hmantissa : (d.digitAt 0 : ℚ) + value 10 (window d 1 places) / 10 ^ places =
      value 10 d.digits * 10 ^ (places + 1 - d.digits.length) / 10 ^ places := by
    rw [eq_div_iff hpow, add_mul, div_mul_cancel₀ _ hpow]
    exact_mod_cast hdigits
  rw [hmantissa, Decimal.magnitude, div_mul_eq_mul_div, div_eq_iff hpow, mul_assoc, mul_assoc,
    Decimal.ten_pow_mul (b := d.scale - d.digits.length + places) (by omega),
    ← Decimal.ten_zpow_mul (a := d.scale - d.digits.length) (b := places) rfl, zpow_natCast]

theorem digitAt_zero_ne (h : d.Normal) (hne : d.digits ≠ []) : d.digitAt 0 ≠ 0 := by
  obtain ⟨x, rest, hd⟩ := List.exists_cons_of_ne_nil hne
  have hhead := h.head_ne
  rw [hd, List.head?_cons] at hhead
  simpa [Decimal.digitAt, hd] using hhead

/-- The power of ten that the first digit stands for; zero has none. -/
def leadExponent (d : Decimal) : ℤ := if d.isZero then 0 else d.scale - 1

/-- Rounding leaves exactly the digits that the layout shows. -/
theorem isScientific_roundTo (h : d.Normal) (places : ℕ) :
    let r := d.roundTo (places + 1 : ℕ)
    IsScientific d.magnitude places (lowerChar (r.digitAt 0)) ((window r 1 places).map lowerChar)
      (leadExponent r) := by
  intro r
  have hr : r.Normal := Decimal.normal_roundTo h _
  have hround : r.magnitude = Decimal.roundSignificant (places + 1) d.magnitude := h.magnitude_roundTo _
  have hzero : r.digits = [] ↔ d.magnitude = 0 := by
    rw [← hr.magnitude_eq_zero_iff, hround,
      Decimal.roundSignificant_eq_zero_iff (Decimal.magnitude_nonneg d) places.succ_pos]
  have htail := window_lt hr.digits_lt 1 places
  have hlead := digitAt_lt hr.digits_lt 0
  have hvalue := value_lead (h.length_roundTo_le places.succ_pos)
  refine ⟨isDigit_lowerChar hlead, all_isDigit htail, by simp, fun hchar => ?_, fun hx => ?_, ?_⟩
  · by_contra hx
    exact digitAt_zero_ne hr (mt hzero.mp hx) (eq_zero_of_lowerChar hlead hchar)
  · rw [leadExponent, if_pos (by simpa [Decimal.isZero] using hzero.mpr hx)]
  · rw [digitValue_lowerChar hlead, map_digitValue htail, ← hround, ← hvalue, leadExponent]
    split
    next hnil =>
      have hdigits : r.digits = [] := by simpa [Decimal.isZero] using hnil
      rw [hr.magnitude_eq_zero_iff.mpr hdigits, mul_eq_zero] at hvalue
      rw [hvalue.resolve_right (by positivity), zero_mul, zero_mul]
    · rfl

variable (symbols : NumberSymbols)

theorem render_scientific (d : Decimal) (places : ℕ) (marker : Char) :
    let r := d.roundTo (places + 1 : ℕ)
    (scientific d places marker).render symbols = String.ofList
      (fixedText symbols d.negative [lowerChar (r.digitAt 0)] ((window r 1 places).map lowerChar) ++
        exponentText symbols marker (leadExponent r)
          ((padded 3 (digits 10 (leadExponent r).natAbs)).map lowerChar)) := by
  intro r
  rw [Template.render, ← chars_lead, ← Decimal.roundTo_negative d (places + 1 : ℕ)]
  rfl

end Layout

namespace NumberFormatter

/-- Scientific text of every finite payload, under every precision that a format string can have: the
number rounded to one digit more than the places asked for, behind its own sign. -/
theorem standard_scientific (own : NumberSymbols) (provider : Option NumberSymbols)
    (p : Payload) (hp : p.isFinite = true) (precision : List Char)
    (hdigits : ∀ c ∈ precision, c.isDigit = true)
    (hbound : value 10 (precision.map digitValue) ≤ 99) :
    let symbols := provider.getD own
    let places := if precision = [] then 6 else value 10 (precision.map digitValue)
    ∃ negative x lead tail e exponent, p.magnitude? = some (negative, x) ∧
      Layout.IsScientific x places lead tail e ∧ IsPadded 3 e.natAbs exponent ∧
      ∀ marker ∈ ['E', 'e'],
        (standard own).format (String.ofList (marker :: precision)) provider p =
          .ok (String.ofList (Layout.fixedText symbols negative [lead] tail ++
            Layout.exponentText symbols marker e exponent)) := by
  intro symbols places
  obtain ⟨d, hnumeric, hnormal, hexact⟩ := Payload.numeric_of_isFinite hp
  have hplaces : (if precision = [] then none
      else some (value 10 (precision.map digitValue))).getD 6 = places := by
    simp only [places]
    split <;> rfl
  refine ⟨_, _, _, _, _, _, hexact, Layout.isScientific_roundTo hnormal places,
    isPadded_padded (by norm_num) _, fun marker hmarker => ?_⟩
  have hletter : marker.isAlpha = true ∧ Specifier.ofLetter? marker = some (.numeric .scientific) ∧
      (if marker = 'e' then 'e' else 'E') = marker := by
    revert marker
    exact List.forall_mem_cons.mpr ⟨⟨by decide, rfl, by decide⟩,
      List.forall_mem_singleton.mpr ⟨by decide, rfl, by decide⟩⟩
  obtain ⟨halpha, hstyle, hsame⟩ := hletter
  rw [standard_format own provider hnumeric halpha hstyle hdigits hbound, Standard.number, hplaces,
    hsame, Layout.render_scientific]

/-- For the double nearest to -9.9999, two places: the carry goes through all digits. -/
theorem standard_scientific_carry :
    let p := Payload.ofNat .double 0xC023FFF2E48E8A72
    p.isFinite = true ∧ ∃ negative x lead tail e exponent, p.magnitude? = some (negative, x) ∧
      Layout.IsScientific x 2 lead tail e ∧ IsPadded 3 e.natAbs exponent ∧
      (standard .invariant).format (String.ofList ['e', '2']) none p =
        .ok (String.ofList (Layout.fixedText .invariant negative [lead] tail ++
          Layout.exponentText .invariant 'e' e exponent)) := by
  intro p
  have hp : p.isFinite = true := by decide +kernel
  obtain ⟨negative, x, lead, tail, e, exponent, hexact, hrounded, hpadded, hwritten⟩ :=
    standard_scientific .invariant none p hp ['2'] (by simp [Char.isDigit]) (by decide)
  have hplaces : value 10 (['2'].map digitValue) = 2 := by decide
  rw [if_neg (by decide), hplaces] at hrounded
  exact ⟨hp, negative, x, lead, tail, e, exponent, hexact, hrounded, hpadded, hwritten 'e' (by simp)⟩

end NumberFormatter

end ManagedTypes
