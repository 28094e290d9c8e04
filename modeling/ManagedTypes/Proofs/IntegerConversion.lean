import ManagedTypes.Payload.Convert
import ManagedTypes.Proofs.ExactValue

/-! Conversion to an integral type gives the integer nearest to the exact number of the payload, or says
that it is outside the type's range. -/
namespace ManagedTypes

/-- No integer is nearer to the number; of two, the even one is meant. -/
structure IsNearestInt (x : ℚ) (v : ℤ) : Prop where
  closest : ∀ k : ℤ, |(v : ℚ) - x| ≤ |(k : ℚ) - x|
  even : ∀ k : ℤ, k ≠ v → |(v : ℚ) - x| = |(k : ℚ) - x| → v % 2 = 0

theorem isNearestInt_of_error {x : ℚ} {v : ℤ} (h : |(v : ℚ) - x| ≤ 1 / 2)
    (heven : |(v : ℚ) - x| = 1 / 2 → v % 2 = 0) : IsNearestInt x v := by
  have hfurther (k : ℤ) (hk : k ≠ v) : 1 / 2 ≤ |(k : ℚ) - x| := by
    have hgap : (1 : ℚ) ≤ |(v : ℚ) - k| := by
      exact_mod_cast Int.one_le_abs (sub_ne_zero.mpr hk.symm)
    have htriangle := abs_sub_le (v : ℚ) x k
    rw [abs_sub_comm x (k : ℚ)] at htriangle
    linarith
  constructor
  · intro k
    by_cases hk : k = v
    · rw [hk]
    · exact h.trans (hfurther k hk)
  · intro k hk heq
    exact heven (le_antisymm h (heq ▸ hfurther k hk))

/-- Two nearest integers would both be even, and one between them nearer. -/
theorem IsNearestInt.unique {x : ℚ} {v w : ℤ} (hv : IsNearestInt x v) (hw : IsNearestInt x w) :
    v = w := by
  by_contra hne
  wlog hlt : v < w generalizing v w
  · exact this hw hv (Ne.symm hne) (by omega)
  have heq := le_antisymm (hv.closest w) (hw.closest v)
  have hveven := hv.even w (Ne.symm hne) heq
  have hweven := hw.even v hne heq.symm
  have hbetween : (v : ℚ) + 2 ≤ w := by exact_mod_cast (by omega : v + 2 ≤ w)
  have hclose := hv.closest (v + 1)
  push_cast at hclose
  rcases abs_cases ((v : ℚ) - x) with ⟨h1, _⟩ | ⟨h1, _⟩ <;>
    rcases abs_cases ((w : ℚ) - x) with ⟨h2, _⟩ | ⟨h2, _⟩ <;>
    rcases abs_cases ((v : ℚ) + 1 - x) with ⟨h3, _⟩ | ⟨h3, _⟩ <;>
    linarith

theorem isNearestInt_intCast (v : ℤ) : IsNearestInt v v :=
  isNearestInt_of_error (by norm_num) (by norm_num)

theorem isNearestInt_roundToInt (f : Ieee.Format) (negative : Bool) (n : ℕ) :
    IsNearestInt (Ieee.Format.signed negative (n / 2 ^ f.unit)) (f.roundToInt negative n) := by
  obtain ⟨herror, htie⟩ := Ieee.roundQuotient_error (n := n) (d := 2 ^ f.unit) (by positivity)
  push_cast at herror htie
  unfold Ieee.Format.roundToInt Ieee.Format.signed
  generalize Ieee.roundQuotient n (2 ^ f.unit) = q at herror htie
  dsimp only
  cases negative
  · refine isNearestInt_of_error (by simpa using herror) fun h => ?_
    have heven := htie (by simpa using h)
    simpa using by omega
  · have hflip : ((-(q : ℤ) : ℤ) : ℚ) - -((n : ℚ) / 2 ^ f.unit) = -((q : ℚ) - n / 2 ^ f.unit) := by
      push_cast
      ring
    refine isNearestInt_of_error (by rwa [if_pos rfl, if_pos rfl, hflip, abs_neg]) fun h => ?_
    rw [if_pos rfl, if_pos rfl, hflip, abs_neg] at h
    have heven := htie h
    rw [if_pos rfl]
    omega

namespace IntRange

theorem contains_iff {r : IntRange} {v : ℤ} : r.contains v = true ↔ r.low ≤ v ∧ v ≤ r.high := by
  simp [contains]

/-- Saturating at the ends of a wider range brings nothing into the narrower one. -/
theorem contains_clamp {r wide : IntRange} (hlow : wide.low < r.low) (hhigh : r.high < wide.high)
    (v : ℤ) : r.contains (wide.clamp v) = r.contains v := by
  rw [Bool.eq_iff_iff, contains_iff, contains_iff]
  unfold clamp
  omega

theorem clamp_eq {r : IntRange} {v : ℤ} (h : r.contains v = true) : r.clamp v = v := by
  rw [contains_iff] at h
  unfold clamp
  omega

end IntRange

theorem PayloadType.range_lt (t : PayloadType) :
    wideRange.low < t.range.low ∧ t.range.high < wideRange.high := by
  cases t <;> decide

namespace Payload
open Ieee

/-- The exact number of a payload. NaN and the infinities have none. -/
def value? (p : Payload) : Option ℚ :=
  match p.content with
  | .integer v => some v
  | .float f pattern => if f.isFinite pattern then some (f.toRat pattern) else none

/-- A floating payload has a format that doubles widen; an integral one is read with or without sign. -/
theorem content_cases (p : Payload) :
    (∃ f, p.type.ieee? = some f ∧ 2 ≤ f.exponent ∧ Format.Widens f double ∧
      p.content = .float f p.toNat) ∨
    (p.type.ieee? = none ∧ p.type.format = .signed ∧ p.content = .integer p.bits.toInt) ∨
    (p.type.ieee? = none ∧ p.type.format = .unsigned ∧ p.content = .integer p.bits.toNat) := by
  obtain ⟨t, bits⟩ := p
  cases t
  case single => exact .inl ⟨single, rfl, by decide, Format.widens_single, rfl⟩
  case double => exact .inl ⟨double, rfl, by decide, Format.widens_double, rfl⟩
  case sbyte | int16 | int32 | int64 => exact .inr (.inl ⟨rfl, rfl, rfl⟩)
  case byte | uint16 | uint32 | uint64 => exact .inr (.inr ⟨rfl, rfl, rfl⟩)

theorem content_of_integer? {p : Payload} {v : ℤ} (h : p.integer? = some v) :
    p.content = .integer v := by
  unfold integer? at h
  cases hc : p.content with
  | integer w => rw [hc] at h; rw [Option.some.inj h]
  | float f pattern => rw [hc] at h; cases h

theorem width_pos (t : PayloadType) : 0 < t.width := by cases t <;> decide

/-- The integer of an integral payload is read off its bits with or without sign. -/
theorem integer_cases {p : Payload} {v : ℤ} (h : p.integer? = some v) :
    (p.type.ieee? = none ∧ p.type.format = .signed ∧ p.bits.toInt = v) ∨
    (p.type.ieee? = none ∧ p.type.format = .unsigned ∧ (p.bits.toNat : ℤ) = v) := by
  have hv := content_of_integer? h
  rcases p.content_cases with ⟨f, -, -, -, hc⟩ | ⟨ht, hs, hc⟩ | ⟨ht, hs, hc⟩
  · cases hc.symm.trans hv
  · exact .inl ⟨ht, hs, Content.integer.inj (hc.symm.trans hv)⟩
  · exact .inr ⟨ht, hs, Content.integer.inj (hc.symm.trans hv)⟩

theorem contains_of_integer? {p : Payload} {v : ℤ} (h : p.integer? = some v) :
    p.type.range.contains v = true := by
  have hpos := width_pos p.type
  rw [IntRange.contains_iff]
  rcases integer_cases h with ⟨-, hs, rfl⟩ | ⟨-, hs, rfl⟩
  · have hlow := BitVec.le_toInt p.bits
    have hhigh := BitVec.toInt_lt (x := p.bits)
    simp only [PayloadType.range, hs]
    omega
  · have hlt : (p.bits.toNat : ℤ) < 2 ^ p.type.width := by exact_mod_cast p.bits.isLt
    simp only [PayloadType.range, hs]
    omega

/-- An integral payload is the one of its type that stands for its integer. -/
theorem eq_ofInt {p : Payload} {v : ℤ} (h : p.integer? = some v) : p = ofInt p.type v := by
  rcases integer_cases h with ⟨-, -, rfl⟩ | ⟨-, -, rfl⟩
  · rw [ofInt, BitVec.ofInt_toInt]
  · rw [ofInt, BitVec.ofInt_natCast, BitVec.ofNat_toNat, BitVec.setWidth_eq]

theorem integer?_ofInt {t : PayloadType} (ht : t.ieee? = none) {v : ℤ}
    (h : t.range.contains v = true) : (ofInt t v).integer? = some v := by
  have hpos := width_pos t
  rw [IntRange.contains_iff] at h
  rcases (ofInt t v).content_cases with ⟨f, hf, -⟩ | ⟨-, hs, hc⟩ | ⟨-, hs, hc⟩
  · simp [ofInt, ht] at hf
  · simp only [PayloadType.range, show t.format = .signed from hs] at h
    have hbits : (ofInt t v).bits.toInt = v := by
      have hhalf : (2 : ℤ) ^ t.width = 2 * 2 ^ (t.width - 1) := by
        rw [← pow_succ', Nat.sub_add_cancel hpos]
      rw [ofInt, BitVec.toInt_ofInt]
      exact Int.bmod_eq_of_le (by push_cast; omega) (by push_cast; omega)
    rw [integer?, hc, hbits]
  · simp only [PayloadType.range, show t.format = .unsigned from hs] at h
    have hbits : ((ofInt t v).bits.toNat : ℤ) = v := by
      rw [ofInt, BitVec.toNat_ofInt, Int.toNat_of_nonneg (Int.emod_nonneg _ (by positivity))]
      exact Int.emod_eq_of_lt h.1 (by push_cast; omega)
    rw [integer?, hc, hbits]

theorem value?_of_integer? {p : Payload} {v : ℤ} (h : p.integer? = some v) :
    p.value? = some (v : ℚ) := by
  rw [value?, content_of_integer? h]

theorem number_of_integer? {p : Payload} {v : ℤ} (h : p.integer? = some v) :
    p.number = .integer v := by
  rw [number, content_of_integer? h]

/-- A floating payload is converted from the double with the same number. -/
theorem decode_number {p : Payload} {f : Format} (hw : Format.Widens f double)
    (hc : p.content = .float f p.toNat) :
    ∃ bits, p.number = .float bits ∧
      double.decode bits.toNat = (f.decode p.toNat).finer (2 ^ (double.unit - f.unit)) := by
  refine ⟨BitVec.ofNat 64 (double.ofDatum f (f.decode p.toNat)), by rw [number, hc], ?_⟩
  have hlt : double.ofDatum f (f.decode p.toNat) < 2 ^ 64 := double.ofDatum_lt (by decide) f _
  rw [BitVec.toNat_ofNat, Nat.mod_eq_of_lt hlt, hw.decode_ofDatum]

/-- A payload is converted from its number rounded, and NaN and the infinities from nothing. -/
theorem toInt?_number (p : Payload) :
    (p.value? = none ∧ p.number.toInt? = none) ∨
      ∃ (x : ℚ) (v : ℤ), p.value? = some x ∧ IsNearestInt x v ∧
        p.number.toInt? = some (wideRange.clamp v) := by
  rcases hi : p.integer? with _ | v
  · rcases p.content_cases with ⟨f, -, hexp, hw, hc⟩ | ⟨-, -, hc⟩ | ⟨-, -, hc⟩
    · obtain ⟨bits, hnumber, hdecode⟩ := decode_number hw hc
      rw [hnumber, Number.toInt?, hdecode, value?, hc]
      by_cases hfinite : f.isFinite p.toNat = true
      · -- Counted in the finer steps of a double, the number is the same.
        have hexact : f.toRat p.toNat = Format.signed (f.isNegative p.toNat)
            ((f.steps p.toNat * 2 ^ (double.unit - f.unit) : ℕ) / 2 ^ double.unit) := by
          rw [f.toRat_eq hexp, Format.div_finer hw.unit_le]
        rw [Format.decode_eq_finite_iff.mpr ⟨hfinite, rfl, rfl⟩]
        exact .inr ⟨_, _, if_pos hfinite, hexact ▸ isNearestInt_roundToInt double _ _, rfl⟩
      · left
        refine ⟨if_neg hfinite, ?_⟩
        cases hd : f.decode p.toNat with
        | nan | infinite negative => rfl
        | finite negative n => exact absurd (Format.decode_eq_finite_iff.mp hd).1 hfinite
    all_goals simp [integer?, hc] at hi
  · have hin := contains_of_integer? hi
    have hwide := p.type.range_lt
    rw [IntRange.contains_iff] at hin
    refine .inr ⟨v, v, value?_of_integer? hi, isNearestInt_intCast v, ?_⟩
    rw [number_of_integer? hi, Number.toInt?, IntRange.clamp_eq]
    rw [IntRange.contains_iff]
    omega

end Payload

/-- Narrowing gives the integer where it is within the range, and otherwise the fault it names. -/
theorem Number.narrow_cases (n : Number) (r : IntRange) (target : TypeCode) :
    (∃ v, n.toInt? = some v ∧ r.contains v = true ∧ n.narrow r target = .ok v) ∨
      (∀ v, n.toInt? = some v → r.contains v = false) ∧
        n.narrow r target = .error (.outOfRange target.name) := by
  unfold narrow
  cases n.toInt? with
  | none => exact .inr ⟨nofun, rfl⟩
  | some v =>
    cases hin : r.contains v with
    | true => exact .inl ⟨v, rfl, hin, if_pos hin⟩
    | false => exact .inr ⟨fun w hw => Option.some.inj hw ▸ hin, if_neg (by simp [hin])⟩

namespace Payload

/-- Narrowing a payload's number gives the integer nearest to it, if the range has that integer. -/
theorem narrow_number (p : Payload) {r : IntRange}
    (hr : wideRange.low < r.low ∧ r.high < wideRange.high) (target : TypeCode) :
    (∃ (x : ℚ) (v : ℤ), p.value? = some x ∧ IsNearestInt x v ∧ r.contains v = true ∧
      p.number.narrow r target = .ok v) ∨
    (∀ (x : ℚ) (v : ℤ), p.value? = some x → IsNearestInt x v → r.contains v = false) ∧
      p.number.narrow r target = .error (.outOfRange target.name) := by
  rcases p.toInt?_number with ⟨hvalue, hint⟩ | ⟨x, v, hvalue, hnearest, hint⟩
  · rcases p.number.narrow_cases r target with ⟨w, hw, -⟩ | ⟨-, herror⟩
    · cases hint.symm.trans hw
    · exact .inr ⟨fun x v hx => (by cases hvalue.symm.trans hx), herror⟩
  · rcases p.number.narrow_cases r target with ⟨w, hw, hin, hok⟩ | ⟨hout, herror⟩
    · obtain rfl := Option.some.inj (hint.symm.trans hw)
      rw [IntRange.contains_clamp hr.1 hr.2] at hin
      have hwide : wideRange.contains v = true := by
        rw [IntRange.contains_iff] at hin ⊢
        omega
      rw [IntRange.clamp_eq hwide] at hok
      exact .inl ⟨x, v, hvalue, hnearest, hin, hok⟩
    · refine .inr ⟨fun y w hy hw => ?_, herror⟩
      obtain rfl := Option.some.inj (hvalue.symm.trans hy)
      rw [hw.unique hnearest, ← IntRange.contains_clamp hr.1 hr.2 v]
      exact hout _ hint

/-- The payload of an integral type that stands for the integer nearest to a payload's number. -/
def Rounds (p : Payload) (t : PayloadType) (r : Payload) : Prop :=
  r.type = t ∧ ∃ (x : ℚ) (v : ℤ), p.value? = some x ∧ IsNearestInt x v ∧
    t.range.low ≤ v ∧ v ≤ t.range.high ∧ r.integer? = some v

theorem toPayload_cases (p : Payload) {t : PayloadType} (ht : t.ieee? = none) :
    (∃ r, p.toPayload t = .ok r ∧ ∀ r', Rounds p t r' ↔ r' = r) ∨
    (∀ r, ¬ Rounds p t r) ∧ p.toPayload t = .error (.outOfRange t.name) := by
  unfold toPayload
  rw [ht]
  rcases p.narrow_number t.range_lt t.code with ⟨x, v, hvalue, hnearest, hin, hok⟩ | ⟨hout, herror⟩
  · refine .inl ⟨ofInt t v, by rw [hok]; rfl, fun r' => ⟨?_, ?_⟩⟩
    · rintro ⟨rfl, y, w, hy, hw, -, -, hr⟩
      obtain rfl := Option.some.inj (hvalue.symm.trans hy)
      rw [hnearest.unique hw]
      exact eq_ofInt hr
    · rintro rfl
      have hends := IntRange.contains_iff.mp hin
      exact ⟨rfl, x, v, hvalue, hnearest, hends.1, hends.2, integer?_ofInt ht hin⟩
  · refine .inr ⟨?_, by rw [herror]; rfl⟩
    rintro r ⟨-, x, v, hvalue, hnearest, hlow, hhigh, -⟩
    have hin := IntRange.contains_iff.mpr ⟨hlow, hhigh⟩
    rw [hout x v hvalue hnearest] at hin
    cases hin

theorem toPayload_eq_ok_iff (p : Payload) {t : PayloadType} (ht : t.ieee? = none) (r : Payload) :
    p.toPayload t = .ok r ↔ Rounds p t r := by
  rcases p.toPayload_cases ht with ⟨s, hok, hs⟩ | ⟨hnone, herror⟩
  · rw [hok, hs, Except.ok.injEq, eq_comm]
  · simp [herror, hnone]

theorem exists_integer {p : Payload} (h : p.type.ieee? = none) : ∃ v, p.integer? = some v := by
  rcases p.content_cases with ⟨f, hf, -⟩ | ⟨-, -, hc⟩ | ⟨-, -, hc⟩
  · cases h.symm.trans hf
  · exact ⟨_, by rw [integer?, hc]⟩
  · exact ⟨_, by rw [integer?, hc]⟩

/-- Of two integral payloads, each stands for what the other rounds to: they are the same integer. -/
theorem Rounds.symm {p r : Payload} {t : PayloadType} (hp : p.type.ieee? = none) (h : Rounds p t r) :
    Rounds r p.type p := by
  obtain ⟨-, x, v, hvalue, hnearest, -, -, hr⟩ := h
  obtain ⟨w, hw⟩ := exists_integer hp
  obtain rfl := Option.some.inj (hvalue.symm.trans (value?_of_integer? hw))
  obtain rfl := hnearest.unique (isNearestInt_intCast w)
  have hends := IntRange.contains_iff.mp (contains_of_integer? hw)
  exact ⟨rfl, v, v, value?_of_integer? hr, isNearestInt_intCast v, hends.1, hends.2, hw⟩

/-- A character is the UTF-16 code unit with an integral payload's integer. -/
theorem toChar_cases {p : Payload} {v : ℤ} (h : p.integer? = some v) :
    (∃ c : ℕ, p.toChar = .ok c ∧ v = c ∧ c ≤ 0xFFFF) ∨
    (v < 0 ∨ 0xFFFF < v) ∧ p.toChar = .error (.outOfRange TypeCode.char.name) := by
  have hchar : p.toChar = Int.toNat <$> (Number.integer v).narrow charRange .char := by
    rw [toChar, number_of_integer? h]
  rw [hchar]
  rcases (Number.integer v).narrow_cases charRange .char with ⟨w, hw, hin, hok⟩ | ⟨hout, herror⟩
  · obtain rfl := Option.some.inj hw
    obtain ⟨hlow, hhigh⟩ := IntRange.contains_iff.mp hin
    simp only [charRange] at hlow hhigh
    exact .inl ⟨v.toNat, by rw [hok]; rfl, by omega, by omega⟩
  · refine .inr ⟨?_, by rw [herror]; rfl⟩
    have hv := hout v rfl
    rw [← Bool.not_eq_true, IntRange.contains_iff] at hv
    simp only [charRange] at hv
    omega

/-- Conversion to an integral type succeeds exactly where the integer nearest to the payload's number,
ties to even, is one of the type's, and gives that integer; otherwise it is an overflow naming the type.
Between integral types it can therefore be undone. Only an integral payload converts to a character. -/
theorem integer_conversion (p : Payload) :
    (∀ (t : PayloadType), t.ieee? = none →
      (∀ (r : Payload), p.toPayload t = .ok r ↔ Rounds p t r) ∧
      ((∀ (r : Payload), ¬ Rounds p t r) → p.toPayload t =
        .error (.overflow ("Value was either too large or too small for " ++ t.name))) ∧
      ∀ (r : Payload), p.type.ieee? = none → p.toPayload t = .ok r → r.toPayload p.type = .ok p) ∧
    (p.type.ieee? = none → ∃ (v : ℤ), p.integer? = some v ∧
      (∀ (c : ℕ), p.toChar = .ok c ↔ v = c ∧ c ≤ 0xFFFF) ∧
      (v < 0 ∨ 0xFFFF < v → p.toChar =
        .error (.overflow "Value was either too large or too small for Char"))) ∧
    (p.type.ieee? ≠ none → p.toChar =
      .error (.invalidCast ("Invalid cast from '" ++ p.type.name ++ "' to 'Char'"))) := by
  refine ⟨fun t ht => ⟨p.toPayload_eq_ok_iff ht, fun hnone => ?_, fun r hp hr => ?_⟩, fun hp => ?_,
    fun hp => ?_⟩
  · rcases p.toPayload_cases ht with ⟨r, -, hr⟩ | ⟨-, herror⟩
    · exact absurd ((hr r).mpr rfl) (hnone r)
    · exact herror
  · exact (r.toPayload_eq_ok_iff hp p).mpr (((p.toPayload_eq_ok_iff ht r).mp hr).symm hp)
  · obtain ⟨v, hv⟩ := exists_integer hp
    refine ⟨v, hv, fun c => ?_, fun hout => ?_⟩
    · rcases toChar_cases hv with ⟨d, hok, hd, hle⟩ | ⟨hout, herror⟩
      · rw [hok, Except.ok.injEq]
        omega
      · simp only [herror, reduceCtorEq, false_iff]
        omega
    · rcases toChar_cases hv with ⟨d, -, hd, hle⟩ | ⟨-, herror⟩
      · omega
      · rw [herror]; rfl
  · rcases p.content_cases with ⟨f, -, -, hw, hc⟩ | ⟨hnone, -⟩ | ⟨hnone, -⟩
    · obtain ⟨bits, hnumber, -⟩ := decode_number hw hc
      rw [toChar, hnumber]
      simp [Fault.noCast, TypeCode.name, String.append_assoc]
    · exact absurd hnone hp
    · exact absurd hnone hp

-- Two and a half, halfway between two integers.
example : (ofNat .double 0x4004000000000000).toPayload .int32 = .ok (ofInt .int32 2) := by
  decide +kernel

end Payload

end ManagedTypes
