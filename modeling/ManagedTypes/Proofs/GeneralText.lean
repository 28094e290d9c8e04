import ManagedTypes.Proofs.ScientificText

/-! General text is the exact number, all of it or rounded to significant digits, written without a
superfluous digit: around the point, or with an exponent where that would take too many zeros. -/
namespace ManagedTypes
open Numeral

namespace Layout

/-- Digits on both sides of a point that read as a number, with no zero that could be left out. -/
structure IsPlain (x : ℚ) (whole tail : List Char) : Prop where
  whole_digits : ∀ c ∈ whole, c.isDigit = true
  tail_digits : ∀ c ∈ tail, c.isDigit = true
  whole_ne : whole ≠ []
  leading : whole.head? = some '0' → whole = ['0']
  trailing : tail.getLast? ≠ some '0'
  zero : x = 0 → whole = ['0'] ∧ tail = []
  value_eq : (value 10 (whole.map digitValue) : ℚ) +
    value 10 (tail.map digitValue) / 10 ^ tail.length = x

/-- One digit in front of the point, others behind it and a power of ten that read as a number, with no
zero that could be left out. -/
structure IsExponential (x : ℚ) (lead : Char) (tail : List Char) (e : ℤ) : Prop where
  lead_digit : lead.isDigit = true
  tail_digits : ∀ c ∈ tail, c.isDigit = true
  leading : lead ≠ '0'
  trailing : tail.getLast? ≠ some '0'
  value_eq : ((digitValue lead : ℚ) + value 10 (tail.map digitValue) / 10 ^ tail.length) * 10 ^ e = x

/-- The decimal exponent of a number is below -4, or is not below the limit where there is one. -/
def NeedsExponent (x : ℚ) (limit : Option ℕ) : Prop :=
  x ≠ 0 ∧ (Int.log 10 x < -4 ∨ ∃ n ∈ limit, (n : ℤ) ≤ Int.log 10 x)

/-- The texts of a number: each has an exponent if and only if the number needs one. -/
inductive IsGeneral (symbols : NumberSymbols) (negative : Bool) (x : ℚ) (limit : Option ℕ) :
    List Char → Prop
  | plain {whole tail : List Char} (near : ¬NeedsExponent x limit) (h : IsPlain x whole tail) :
      IsGeneral symbols negative x limit (fixedText symbols negative whole tail)
  | exponential {lead : Char} {tail digits : List Char} {e : ℤ} (far : NeedsExponent x limit)
      (h : IsExponential x lead tail e) (he : IsPadded 2 e.natAbs digits) :
      IsGeneral symbols negative x limit
        (fixedText symbols negative [lead] tail ++ exponentText symbols 'E' e digits)

variable {d : Decimal}

theorem needsExponent_iff (h : d.Normal) (limit : Option ℕ) :
    NeedsExponent d.magnitude limit ↔ IsFar d limit := by
  unfold NeedsExponent IsFar
  rw [Ne, h.magnitude_eq_zero_iff]
  refine and_congr_right fun hne => ?_
  rw [h.log_magnitude hne]
  refine or_congr (by omega) (exists_congr fun n => and_congr_right fun _ => ?_)
  omega

/-- What ends a list of digits ends it with the list's last digit. -/
theorem getLast?_ne_of_append {front tail ds : List ℕ} (h : front ++ tail = ds)
    (hlast : ds.getLast? ≠ some 0) : tail.getLast? ≠ some 0 := by
  intro hzero
  apply hlast
  rw [← h, List.getLast?_append, hzero, Option.some_or]

theorem getLast?_chars_ne {ds : List ℕ} (h : ∀ x ∈ ds, x < 10) (hlast : ds.getLast? ≠ some 0) :
    (ds.map lowerChar).getLast? ≠ some '0' := by
  rw [List.getLast?_map]
  exact mt (eq_zero_of_map_lowerChar fun x hx => h x (List.mem_of_getLast? hx)) hlast

/-- With as many places as the last digit needs, it is the last one shown. -/
theorem isPlain_digits (h : d.Normal) :
    IsPlain d.magnitude ((wholeDigits d).map lowerChar)
      ((window d d.scale ((d.digits.length : ℤ) - d.scale).toNat).map lowerChar) := by
  obtain ⟨places, hplaces⟩ : ∃ n, n = ((d.digits.length : ℤ) - d.scale).toNat := ⟨_, rfl⟩
  have hfit : (d.digits.length : ℤ) ≤ d.scale + places := by omega
  have hwhole := wholeDigits_lt h.digits_lt
  have htail := window_lt h.digits_lt d.scale places
  have hlast : (window d d.scale places).getLast? ≠ some 0 := by
    rcases Nat.eq_zero_or_pos places with rfl | hpos
    · simp [window]
    have hexact : (d.scale + places - d.digits.length).toNat = 0 := by omega
    obtain ⟨zeros, hdigits⟩ := positional_digits hfit
    rw [hexact, List.replicate_zero, List.append_nil] at hdigits
    have hne : d.digits ≠ [] := by
      intro hnil
      have hscale := h.scale_eq hnil
      rw [hnil, List.length_nil] at hplaces
      omega
    refine getLast?_ne_of_append hdigits ?_
    rw [List.getLast?_append, List.getLast?_eq_some_getLast hne, Option.some_or,
      ← List.getLast?_eq_some_getLast hne]
    exact h.last_ne
  rw [← hplaces]
  refine ⟨all_isDigit hwhole, all_isDigit htail, by simpa using wholeDigits_ne_nil d,
    whole_chars_head h, getLast?_chars_ne htail hlast, fun hzero => ?_, ?_⟩
  · have hnil := h.magnitude_eq_zero_iff.mp hzero
    have hscale := h.scale_eq hnil
    rw [hnil, hscale] at hplaces
    rw [wholeDigits, if_pos hscale.le, hplaces]
    exact ⟨rfl, rfl⟩
  · rw [map_digitValue hwhole, map_digitValue htail, List.length_map, length_window,
      whole_add_places hfit]

/-- The digits of a number that is not zero, the first apart. -/
theorem isExponential_digits (h : d.Normal) (hne : d.digits ≠ []) :
    IsExponential d.magnitude (lowerChar (d.digitAt 0))
      ((window d 1 (d.digits.length - 1)).map lowerChar) (d.scale - 1) := by
  have hlength : 0 < d.digits.length := List.length_pos_iff.mpr hne
  have hfit : d.digits.length ≤ d.digits.length - 1 + 1 := by omega
  have hlead := digitAt_lt h.digits_lt 0
  have htail := window_lt h.digits_lt 1 (d.digits.length - 1)
  have hdigits : [d.digitAt 0] ++ window d 1 (d.digits.length - 1) = d.digits := by
    rw [List.singleton_append, window_lead hfit, Nat.sub_add_cancel hlength, Nat.sub_self,
      List.replicate_zero, List.append_nil]
  refine ⟨isDigit_lowerChar hlead, all_isDigit htail,
    fun hchar => digitAt_zero_ne h hne (eq_zero_of_lowerChar hlead hchar),
    getLast?_chars_ne htail (getLast?_ne_of_append hdigits h.last_ne), ?_⟩
  rw [digitValue_lowerChar hlead, map_digitValue htail, List.length_map, length_window]
  exact value_lead hfit

theorem isGeneral_general (symbols : NumberSymbols) (h : d.Normal) (limit : Option ℕ) :
    IsGeneral symbols d.negative d.magnitude limit
      ((general d limit).flatMap (Piece.chars symbols)) := by
  obtain ⟨hfar, htext⟩ | ⟨hnear, htext⟩ := chars_general symbols h limit
  · rw [htext]
    exact .exponential ((needsExponent_iff h limit).mpr hfar) (isExponential_digits h hfar.1)
      (isPadded_padded (by norm_num) _)
  · rw [htext]
    exact .plain (mt (needsExponent_iff h limit).mp hnear) (isPlain_digits h)

end Layout

/-- The decimal exponent from which general text that keeps all digits has an exponent. Integers have
none. -/
noncomputable def PayloadType.exponentLimit (t : PayloadType) (x : ℚ) : Option ℕ :=
  match t with
  | .double => some (max (Decimal.significantDigits x) 15)
  | .single => some (max (Decimal.significantDigits x) 7)
  | _ => none

theorem PayloadType.exponentLimit_magnitude (t : PayloadType) {d : Decimal} (h : d.Normal) :
    t.exponentLimit d.magnitude = t.positionalDigits.map (max d.digits.length) := by
  cases t <;> simp only [exponentLimit, positionalDigits, h.significantDigits_eq, Option.map_some,
    Option.map_none]

namespace NumberFormatter

/-- General and round-trip text of every finite payload, under every precision that a format string can
have, behind its own sign. Round-trip text, and general text whose precision is zero or left out, is
all of the number. -/
theorem standard_general (own : NumberSymbols) (provider : Option NumberSymbols)
    (p : Payload) (hp : p.isFinite = true) (precision : List Char)
    (hdigits : ∀ c ∈ precision, c.isDigit = true)
    (hbound : value 10 (precision.map digitValue) ≤ 99) :
    let symbols := provider.getD own
    let count := value 10 (precision.map digitValue)
    let written (letter : Char) (text : List Char) :=
      (standard own).format (String.ofList (letter :: precision)) provider p =
        .ok (String.ofList text)
    ∃ negative x, p.magnitude? = some (negative, x) ∧
      (∃ text, (if count = 0 then Layout.IsGeneral symbols negative x (p.type.exponentLimit x) text
          else Layout.IsGeneral symbols negative (Decimal.roundSignificant count x) (some count) text) ∧
        ∀ letter ∈ ['G', 'g'], written letter text) ∧
      ∃ text, Layout.IsGeneral symbols negative x (p.type.exponentLimit x) text ∧
        ∀ letter ∈ ['R', 'r'], written letter text := by
  intro symbols count written
  obtain ⟨d, hnumeric, hnormal, hexact⟩ := Payload.numeric_of_isFinite hp
  have hall := Layout.isGeneral_general symbols hnormal (p.type.exponentLimit d.magnitude)
  -- neither style looks at the letter
  have hwritten {letters : List Char} {s : Style} {t : Template}
      (hletters : ∀ letter ∈ letters,
        letter.isAlpha = true ∧ Specifier.ofLetter? letter = some (.numeric s))
      (hnumber : ∀ letter, Standard.number symbols.groupSize
        ⟨letter, if precision = [] then none else some count⟩ s p.type d = t) :
      ∀ letter ∈ letters, written letter (t.flatMap (Piece.chars symbols)) := by
    intro letter hletter
    obtain ⟨halpha, hstyle⟩ := hletters letter hletter
    have hformat := standard_format own provider hnumeric halpha hstyle hdigits hbound
    rw [hnumber letter] at hformat
    exact hformat
  refine ⟨d.negative, d.magnitude, hexact, ?_, _, hall, ?_⟩
  · have hletters : ∀ letter ∈ ['G', 'g'],
        letter.isAlpha = true ∧ Specifier.ofLetter? letter = some (.numeric .general) :=
      List.forall_mem_cons.mpr ⟨⟨by decide, rfl⟩, List.forall_mem_singleton.mpr ⟨by decide, rfl⟩⟩
    rcases Nat.eq_zero_or_pos count with hzero | hpos
    · refine ⟨_, by rw [if_pos hzero]; exact hall, hwritten hletters fun letter => ?_⟩
      rw [PayloadType.exponentLimit_magnitude _ hnormal, hzero]
      split <;> rfl
    · have hround := Layout.isGeneral_general symbols (Decimal.normal_roundTo hnormal count) (some count)
      rw [hnormal.magnitude_roundTo, Decimal.roundTo_negative] at hround
      refine ⟨_, by rw [if_neg hpos.ne']; exact hround, hwritten hletters fun letter => ?_⟩
      have hne : precision ≠ [] := by
        rintro rfl
        exact hpos.ne' rfl
      obtain ⟨n, hn⟩ := Nat.exists_eq_succ_of_ne_zero hpos.ne'
      rw [if_neg hne, hn]
      rfl
  · refine hwritten (s := .roundTrip) (List.forall_mem_cons.mpr
      ⟨⟨by decide, rfl⟩, List.forall_mem_singleton.mpr ⟨by decide, rfl⟩⟩) fun letter => ?_
    rw [PayloadType.exponentLimit_magnitude _ hnormal]
    rfl

/-- For the single nearest to 999.9, three digits: the carry takes the number to its limit. -/
theorem standard_general_carry :
    let p := Payload.ofNat .single 0x4479F99A
    p.isFinite = true ∧ ∃ negative x text, p.magnitude? = some (negative, x) ∧
      Layout.IsGeneral .invariant negative (Decimal.roundSignificant 3 x) (some 3) text ∧
      (standard .invariant).format (String.ofList ['G', '3']) none p = .ok (String.ofList text) := by
  intro p
  have hp : p.isFinite = true := by decide +kernel
  obtain ⟨negative, x, hexact, ⟨text, hgeneral, hwritten⟩, _⟩ :=
    standard_general .invariant none p hp ['3'] (by simp [Char.isDigit]) (by decide)
  have hcount : value 10 (['3'].map digitValue) = 3 := by decide
  rw [hcount, if_neg (by norm_num)] at hgeneral
  exact ⟨hp, negative, x, text, hexact, hgeneral, hwritten 'G' (by simp)⟩

end NumberFormatter

end ManagedTypes
