import ManagedTypes.Proofs.FixedText

/-! Canonical text of a float reads back: as a decimal it is the number of the float's shortest text,
and the pattern nearest to that number is the float's own. -/
namespace ManagedTypes
open Numeral

namespace Ieee.Format
variable (f : Format)

/-- The pattern nearest to the number that a decimal text denotes. -/
def readPattern? (text : List Char) : Option ℕ :=
  (readDecimal? 'E' text).map fun ((negative, x) : Bool × ℚ) =>
    f.withSign negative (f.nearest (x.num.toNat * 2 ^ f.unit) x.den)

/-- Rounding finds the pattern that a number is nearest to. -/
theorem nearest_of_isNearest (hf : 0 < f.fraction) {x : ℚ} (hx : 0 ≤ x) {m : ℕ}
    (h : f.IsNearest (x * 2 ^ f.unit) m) : f.nearest (x.num.toNat * 2 ^ f.unit) x.den = m :=
  (f.isNearest_nearest_rat hf hx).unique h

end Ieee.Format

namespace Layout

theorem head?_digits {ds : List ℕ} (hne : ds ≠ []) (h : ∀ d ∈ ds, d < 10) (rest : List Char) :
    (ds.map lowerChar ++ rest).head? ≠ some '-' := by
  obtain ⟨d, ds, rfl⟩ := List.exists_cons_of_ne_nil hne
  intro hminus
  have hdigit := isDigit_lowerChar (h d (by simp))
  rw [List.map_cons, List.cons_append, List.head?_cons, Option.some.injEq] at hminus
  rw [hminus] at hdigit
  exact absurd hdigit (by decide)

theorem fixedText_invariant (negative : Bool) (whole places : List ℕ) :
    fixedText .invariant negative (whole.map lowerChar) (places.map lowerChar) =
      (if negative then ['-'] else []) ++ (whole.map lowerChar ++ pointChars places) := by
  have hminus : NumberSymbols.invariant.negativeSign.toList = ['-'] := rfl
  have hpoint : NumberSymbols.invariant.decimalSeparator.toList = ['.'] := rfl
  simp only [fixedText, pointChars, hminus, hpoint, List.map_eq_nil_iff, List.isEmpty_iff,
    List.singleton_append, List.append_assoc]

/-- A sign, digits, a point and digits, and what can come after them. -/
theorem readDecimal?_fixedText (negative : Bool) (whole places : List ℕ) {suffix : List Char} {e : ℤ}
    (hne : whole ≠ []) (hwhole : ∀ d ∈ whole, d < 10) (hplaces : ∀ d ∈ places, d < 10)
    (hsuffix : readExponent? 'E' suffix = some e) :
    readDecimal? 'E'
        (fixedText .invariant negative (whole.map lowerChar) (places.map lowerChar) ++ suffix) =
      some (negative, value 10 (whole ++ places) * (10 : ℚ) ^ (e - places.length)) := by
  have hmark : IsMark 'E' := ⟨by decide, by decide⟩
  rw [fixedText_invariant, List.append_assoc, List.append_assoc,
    readDecimal?_sign 'E' negative (head?_digits hne hwhole _),
    readMagnitude?_eq hmark whole places hne hwhole hplaces hsuffix, Option.map_some]

theorem readExponent?_exponentText (e : ℤ) (width : ℕ) :
    readExponent? 'E' (exponentText .invariant 'E' e
      ((padded width (digits 10 e.natAbs)).map lowerChar)) = some e := by
  have hne : padded width (digits 10 e.natAbs) ≠ [] := by simp [padded, digits_ne_nil]
  have hread := readNat?_map hne (padded_lt (by norm_num) width e.natAbs)
  rw [value_padded] at hread
  rw [exponentText, readExponent?_mark]
  rcases lt_or_ge e 0 with hneg | hpos
  · have hsign : NumberSymbols.invariant.negativeSign.toList = ['-'] := rfl
    rw [if_pos hneg, hsign]
    simp only [readInt?, List.singleton_append, splitSign, hread, Option.map_some, if_true,
      Option.some.injEq]
    omega
  · have hsign : NumberSymbols.invariant.positiveSign.toList = ['+'] := rfl
    rw [if_neg (by omega), hsign]
    simp only [readInt?, List.singleton_append, splitSign, hread, Option.map_some,
      Bool.false_eq_true, if_false, Option.some.injEq]
    omega

/-- General text denotes the number in both of its forms. -/
theorem readDecimal?_general {d : Decimal} (h : d.Normal) (limit : Option ℕ) :
    readDecimal? 'E' ((general d limit).flatMap (Piece.chars .invariant)) =
      some (d.negative, d.magnitude) := by
  obtain ⟨hfar, htext⟩ | ⟨-, htext⟩ := chars_general .invariant h limit
  · have hlength : 0 < d.digits.length := List.length_pos_iff.mpr hfar.1
    have hread := readDecimal?_fixedText d.negative [d.digitAt 0] (window d 1 (d.digits.length - 1))
      (by simp) (by simpa using digitAt_lt h.digits_lt 0) (window_lt h.digits_lt _ _)
      (readExponent?_exponentText (d.scale - 1) 2)
    -- the first digit stands before the point, so the exponent is one less than the scale
    have hscale : d.scale - 1 - ((d.digits.length - 1 : ℕ) : ℤ) = d.scale - d.digits.length := by
      omega
    rw [List.singleton_append, window_lead (by omega), Nat.sub_add_cancel hlength, Nat.sub_self,
      List.replicate_zero, List.append_nil, length_window, hscale] at hread
    rw [htext]
    exact hread
  · obtain ⟨places, hplaces⟩ : ∃ n, n = ((d.digits.length : ℤ) - d.scale).toNat := ⟨_, rfl⟩
    have hread := readDecimal?_fixedText d.negative (wholeDigits d) (window d d.scale places)
      (wholeDigits_ne_nil d) (wholeDigits_lt h.digits_lt) (window_lt h.digits_lt _ _)
      (readExponent?_nil 'E')
    have hscaled : d.magnitude * 10 ^ places * (10 : ℚ) ^ (0 - (places : ℤ)) = d.magnitude := by
      rw [mul_assoc, ← zpow_natCast, ← zpow_add₀ (by norm_num)]
      simp
    rw [value_positional (by omega), length_window, hscaled, List.append_nil] at hread
    rw [htext, ← hplaces]
    exact hread

end Layout

namespace Standard
open Ieee

theorem canonical_eq (p : Payload) :
    (canonical p).toList = match p.numeric with
      | .special symbol => (NumberSymbols.invariant.text symbol).toList
      | .decimal d => (allDigits p.type d).flatMap (Piece.chars .invariant) := by
  rw [canonical_eq_render, Template.toList_render]
  cases p.numeric with
  | special symbol => simp [Piece.chars]
  | decimal d => rfl

variable {t : PayloadType} {f : Format} (hf : t.ieee? = some f)
include hf

theorem content_of_ieee (bits : BitVec t.width) :
    (⟨t, bits⟩ : Payload).content = .float f bits.toNat :=
  Payload.content_of_ieee? (p := ⟨t, bits⟩) hf

theorem resolved_of_ieee : Decimal.Resolved f :=
  Payload.resolved_of_content (content_of_ieee hf 0)

theorem bits_lt (bits : BitVec t.width) : bits.toNat < 2 * f.signBit :=
  Payload.toNat_lt (p := ⟨t, bits⟩) hf

theorem canonical_finite {bits : BitVec t.width} (h : f.isFinite bits.toNat = true) :
    ∃ x, readMagnitude? 'e' (Decimal.shortestChars f bits.toNat) = some x ∧
      readDecimal? 'E' (canonical ⟨t, bits⟩).toList = some (f.isNegative bits.toNat, x) ∧
      f.readPattern? (canonical ⟨t, bits⟩).toList = some bits.toNat := by
  have hresolved := resolved_of_ieee hf
  have hnormal := Decimal.normal_ofFinite hresolved h
  have hread := Layout.readDecimal?_general hnormal
    (t.positionalDigits.map (max (Decimal.ofFinite f bits.toNat).digits.length))
  have hnumeric : (⟨t, bits⟩ : Payload).numeric = .decimal (Decimal.ofFinite f bits.toNat) :=
    Payload.numeric_of_finite (content_of_ieee hf bits) h
  have htext : readDecimal? 'E' (canonical ⟨t, bits⟩).toList =
      some (f.isNegative bits.toNat, (Decimal.shortest f bits.toNat).magnitude) := by
    rw [canonical_eq, hnumeric, ← Decimal.magnitude_ofFinite hresolved h]
    exact hread
  refine ⟨_, Decimal.readMagnitude?_exponentChars (Decimal.normal_shortest f bits.toNat).digits_lt,
    htext, ?_⟩
  have hnearest := f.nearest_of_isNearest hresolved.fraction_pos (Decimal.magnitude_nonneg _)
    (Decimal.isNearest_shortest hresolved h)
  simp only [Format.readPattern?, htext, Option.map_some, hnearest,
    f.withSign_magnitudeBits (bits_lt hf bits)]

theorem canonical_infinite {bits : BitVec t.width} (h : f.isInfinite bits.toNat = true) :
    canonical ⟨t, bits⟩ = if f.isNegative bits.toNat then "-Infinity" else "Infinity" := by
  rw [canonical, Payload.numeric_of_isInfinite (content_of_ieee hf bits) h]
  cases f.isNegative bits.toNat <;> rfl

theorem canonical_nan {bits : BitVec t.width} (h : f.isNan bits.toNat = true) :
    canonical ⟨t, bits⟩ = "NaN" := by
  rw [canonical, Payload.numeric_of_isNan (content_of_ieee hf bits) h]
  rfl

/-- An infinity is its sign. -/
theorem eq_of_isInfinite {a b : BitVec t.width} (ha : f.isInfinite a.toNat = true)
    (hb : f.isInfinite b.toNat = true) (h : f.isNegative a.toNat = f.isNegative b.toNat) : a = b := by
  simp only [Format.isInfinite, beq_iff_eq] at ha hb
  apply BitVec.eq_of_toNat_eq
  rw [← f.withSign_magnitudeBits (bits_lt hf a), ← f.withSign_magnitudeBits (bits_lt hf b), h, ha, hb]

/-- An infinity's text is no decimal text. -/
theorem readDecimal?_infinite {bits : BitVec t.width} (h : f.isInfinite bits.toNat = true) :
    readDecimal? 'E' (canonical ⟨t, bits⟩).toList = none := by
  rw [canonical_infinite hf h]
  cases f.isNegative bits.toNat <;> rfl

theorem canonical_injective {a b : BitVec t.width} (ha : f.isNan a.toNat = false)
    (hb : f.isNan b.toNat = false) (h : canonical ⟨t, a⟩ = canonical ⟨t, b⟩) : a = b := by
  rcases f.finite_or_infinite ha with hfa | hia <;> rcases f.finite_or_infinite hb with hfb | hib
  · obtain ⟨_, _, _, hreada⟩ := canonical_finite hf hfa
    obtain ⟨_, _, _, hreadb⟩ := canonical_finite hf hfb
    rw [h, hreadb, Option.some.injEq] at hreada
    exact BitVec.eq_of_toNat_eq hreada.symm
  · obtain ⟨_, _, hreada, _⟩ := canonical_finite hf hfa
    rw [h, readDecimal?_infinite hf hib] at hreada
    simp at hreada
  · obtain ⟨_, _, hreadb, _⟩ := canonical_finite hf hfb
    rw [← h, readDecimal?_infinite hf hia] at hreadb
    simp at hreadb
  · apply eq_of_isInfinite hf hia hib
    rw [canonical_infinite hf hia, canonical_infinite hf hib] at h
    cases hsa : f.isNegative a.toNat <;> cases hsb : f.isNegative b.toNat <;> simp [hsa, hsb] at h <;>
      rfl

end Standard

/-- Canonical text of a floating type, whatever symbols the formatter has. A finite pattern's text
denotes the number of its shortest text and decodes to the pattern; texts tell the patterns apart,
except for NaN. -/
theorem NumberFormatter.canonical_round_trip (own : NumberSymbols) (t : PayloadType) (f : Ieee.Format)
    (hf : t.ieee? = some f) :
    let text (bits : BitVec t.width) := (NumberFormatter.standard own).canonical ⟨t, bits⟩
    (∀ bits, f.isFinite bits.toNat = true →
      ∃ x, readMagnitude? 'e' (Decimal.shortestChars f bits.toNat) = some x ∧
        readDecimal? 'E' (text bits).toList = some (f.isNegative bits.toNat, x) ∧
        f.readPattern? (text bits).toList = some bits.toNat) ∧
      (∀ a b, f.isNan a.toNat = false → f.isNan b.toNat = false → text a = text b → a = b) ∧
      (∀ bits, f.isInfinite bits.toNat = true →
        text bits = if f.isNegative bits.toNat then "-Infinity" else "Infinity") ∧
      ∀ bits, f.isNan bits.toNat = true → text bits = "NaN" :=
  ⟨fun _ h => Standard.canonical_finite hf h, fun _ _ ha hb h => Standard.canonical_injective hf ha hb h,
    fun _ h => Standard.canonical_infinite hf h, fun _ h => Standard.canonical_nan hf h⟩

/-- For the least subnormal double. -/
theorem NumberFormatter.canonical_round_trip_least :
    PayloadType.double.ieee? = some Ieee.double ∧
      ∃ x, readDecimal? 'E' ((NumberFormatter.standard .invariant).canonical ⟨.double, 1⟩).toList =
          some (Ieee.double.isNegative 1, x) ∧
        Ieee.double.readPattern? ((NumberFormatter.standard .invariant).canonical ⟨.double, 1⟩).toList =
          some 1 := by
  obtain ⟨x, _, hdecimal, hpattern⟩ :=
    (canonical_round_trip .invariant .double Ieee.double rfl).1 1 (by decide)
  exact ⟨rfl, x, hdecimal, hpattern⟩

end ManagedTypes
