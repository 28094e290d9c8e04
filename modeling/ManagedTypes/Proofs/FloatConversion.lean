import ManagedTypes.Proofs.FloatRounding
import ManagedTypes.Proofs.PayloadOrder

/-! Conversion to a floating type rounds the exact number of the payload once. That floats pass through
doubles loses nothing on the way. -/
namespace ManagedTypes

theorem PayloadType.widens {t : PayloadType} {f : Ieee.Format} (h : t.ieee? = some f) :
    Ieee.Format.Widens f Ieee.double := by
  cases t <;> cases h
  · exact Ieee.Format.widens_single
  · exact Ieee.Format.widens_double

theorem PayloadType.fraction_pos {t : PayloadType} {f : Ieee.Format} (h : t.ieee? = some f) :
    0 < f.fraction := by
  cases t <;> cases h <;> decide

namespace Ieee

theorem Datum.finer_one (d : Datum) : d.finer 1 = d := by
  cases d with
  | finite negative n => exact congrArg (finite negative) (mul_one n)
  | _ => rfl

namespace Format

/-- A datum counted in finer steps is the same number. -/
theorem extended?_of_finer {g f : Format} (hg : 2 ≤ g.exponent) (hf : 2 ≤ f.exponent)
    (hunit : g.unit ≤ f.unit) {a b : ℕ}
    (h : f.decode b = (g.decode a).finer (2 ^ (f.unit - g.unit))) :
    f.extended? b = g.extended? a ∧ (g.isNan a = false → f.isNegative b = g.isNegative a) := by
  unfold extended?
  rw [h]
  cases hd : g.decode a with
  | nan => exact ⟨rfl, fun hnan => by simp [decode_eq_nan_iff.mp hd] at hnan⟩
  | infinite negative =>
    rw [hd] at h
    exact ⟨rfl, fun _ => (decode_eq_infinite_iff.mp h).2.trans (decode_eq_infinite_iff.mp hd).2.symm⟩
  | finite negative n =>
    rw [hd] at h
    obtain ⟨-, rfl, rfl⟩ := decode_eq_finite_iff.mp hd
    obtain ⟨-, hsign, hsteps⟩ := decode_eq_finite_iff.mp h
    refine ⟨?_, fun _ => hsign⟩
    have hsame : f.toRat b = g.toRat a := by
      rw [f.toRat_eq hf, g.toRat_eq hg, hsign, hsteps, div_finer hunit]
    simp only [Datum.finer, hsame]

end Format

end Ieee

namespace Payload
open Ieee

/-- Negative integers are, and floats with the sign, the zero that has it included. -/
def isNegative (p : Payload) : Bool :=
  match p.content with
  | .integer v => v < 0
  | .float f bits => f.isNegative bits

def isInfinite (p : Payload) : Bool :=
  match p.content with
  | .integer _ => false
  | .float f bits => f.isInfinite bits

section Kind
variable {p : Payload} {g : Format} (hg : p.type.ieee? = some g)
include hg

theorem isNegative_of_ieee? : p.isNegative = g.isNegative p.toNat := by
  rw [isNegative, content_of_ieee? hg]

theorem isInfinite_of_ieee? : p.isInfinite = g.isInfinite p.toNat := by
  rw [isInfinite, content_of_ieee? hg]

theorem isNan_of_ieee? : p.isNan = g.isNan p.toNat := by
  rw [isNan, content_of_ieee? hg]

theorem value?_of_isFinite (hfinite : g.isFinite p.toNat = true) :
    p.value? = some (g.toRat p.toNat) := by
  rw [value?, content_of_ieee? hg]
  exact if_pos hfinite

end Kind

/-- Every payload has a number, is an infinity or is NaN. -/
theorem kind_cases (p : Payload) :
    (∃ x, p.value? = some x) ∨ p.isInfinite = true ∨ p.isNan = true := by
  cases hp : p.type.ieee? with
  | none =>
    obtain ⟨v, hv⟩ := exists_integer hp
    exact .inl ⟨v, value?_of_integer? hv⟩
  | some g =>
    rw [isInfinite_of_ieee? hp, isNan_of_ieee? hp]
    cases hnan : g.isNan p.toNat with
    | true => exact .inr (.inr rfl)
    | false => exact (g.finite_or_infinite hnan).imp (fun h => ⟨_, value?_of_isFinite hp h⟩) .inl

/-- Infinities and NaN are floats. -/
theorem exists_ieee? {p : Payload} (h : p.isInfinite = true ∨ p.isNan = true) :
    ∃ g, p.type.ieee? = some g := by
  refine Option.ne_none_iff_exists'.mp fun hp => ?_
  obtain ⟨v, hv⟩ := exists_integer hp
  simp [isInfinite, isNan, content_of_integer? hv] at h

variable {t : PayloadType} {f : Format}

theorem toFloat_lt (hf : 0 < f.fraction) (n : Number) : n.toFloat f < 2 * f.signBit := by
  cases n with
  | integer v => exact Format.withSign_lt ((Nat.min_le_right _ _).trans_lt f.infinityBits_lt) _
  | float bits => exact f.ofDatum_lt hf _ _

/-- A payload of a floating type is a pattern, the one that conversion to the type gives. -/
theorem toPayload_float_iff (p : Payload) (ht : t.ieee? = some f) (r : Payload) :
    p.toPayload t = .ok r ↔ r.type = t ∧ r.toNat = p.number.toFloat f := by
  have hlt := toFloat_lt (PayloadType.fraction_pos ht) p.number
  have hok : p.toPayload t = .ok (ofNat t (p.number.toFloat f)) := by
    unfold toPayload
    rw [ht]
  rw [hok, Except.ok.injEq]
  constructor
  · rintro rfl
    exact ⟨rfl, toNat_ofNat ht hlt⟩
  · rintro ⟨rfl, hpattern⟩
    rw [← hpattern, ofNat_toNat]

theorem exists_toPayload (p : Payload) (ht : t.ieee? = some f) : ∃ r, p.toPayload t = .ok r :=
  ⟨_, (p.toPayload_float_iff ht _).mpr
    ⟨rfl, toNat_ofNat ht (toFloat_lt (PayloadType.fraction_pos ht) p.number)⟩⟩

section Content
variable {p : Payload} {g : Format} (hw : Format.Widens g double) (hc : p.content = .float g p.toNat)
include hw hc

theorem toFloat_number (f : Format) : p.number.toFloat f =
    f.ofDatum double ((g.decode p.toNat).finer (2 ^ (double.unit - g.unit))) := by
  obtain ⟨bits, hnumber, hdecode⟩ := decode_number hw hc
  rw [hnumber, Number.toFloat, hdecode]

theorem roundsTo_of_finite (hf : 0 < f.fraction) (hexp : 2 ≤ f.exponent)
    (hfinite : g.isFinite p.toNat = true) :
    f.RoundsTo (g.toRat p.toNat) (g.isNegative p.toNat) (p.number.toFloat f) := by
  have hround := Format.roundsTo_nearest hf hexp (g.isNegative p.toNat)
    (g.steps p.toNat * 2 ^ (double.unit - g.unit) * 2 ^ f.unit) (by positivity : 0 < 2 ^ double.unit)
  have hvalue : ((g.steps p.toNat * 2 ^ (double.unit - g.unit) * 2 ^ f.unit : ℕ) : ℚ) /
      (2 ^ double.unit : ℕ) / 2 ^ f.unit = g.steps p.toNat / 2 ^ g.unit := by
    rw [← Format.div_finer hw.unit_le]
    push_cast
    field_simp
  rw [toFloat_number hw hc, Format.decode_eq_finite_iff.mpr ⟨hfinite, rfl, rfl⟩,
    g.toRat_eq hw.two_le_exponent, ← hvalue]
  exact hround

theorem toFloat_of_infinite (f : Format) (hinfinite : g.isInfinite p.toNat = true) :
    p.number.toFloat f = f.withSign (g.isNegative p.toNat) f.infinityBits := by
  have hdecode : g.decode p.toNat = .infinite (g.isNegative p.toNat) :=
    Format.decode_eq_infinite_iff.mpr ⟨by simpa [Format.isInfinite] using hinfinite, rfl⟩
  rw [toFloat_number hw hc, hdecode]
  rfl

theorem toFloat_of_nan (f : Format) (hnan : g.isNan p.toNat = true) : p.number.toFloat f = f.nanBits := by
  rw [toFloat_number hw hc, Format.decode_eq_nan_iff.mpr hnan]
  rfl

/-- A double rounded from a float is the very number. -/
theorem decode_toFloat_double : double.decode (p.number.toFloat double) =
    (g.decode p.toNat).finer (2 ^ (double.unit - g.unit)) := by
  obtain ⟨bits, hnumber, hdecode⟩ := decode_number hw hc
  rw [hnumber, Number.toFloat, Format.widens_double.decode_ofDatum, Nat.sub_self, pow_zero,
    Datum.finer_one, hdecode]

end Content

/-- A payload with a number is an integer or a finite float. -/
theorem value?_cases {p : Payload} {x : ℚ} (hx : p.value? = some x) :
    (∃ g, 2 ≤ g.exponent ∧ Format.Widens g double ∧ p.content = .float g p.toNat ∧
      g.isFinite p.toNat = true ∧ x = g.toRat p.toNat) ∨
    ∃ v : ℤ, p.content = .integer v ∧ x = v := by
  unfold value? at hx
  rcases p.content_cases with ⟨g, -, hexp, hw, hc⟩ | ⟨-, -, hc⟩ | ⟨-, -, hc⟩ <;> rw [hc] at hx
  · simp only [Option.ite_none_right_eq_some, Option.some.injEq] at hx
    exact .inl ⟨g, hexp, hw, hc, hx.1, hx.2.symm⟩
  all_goals exact .inr ⟨_, hc, (Option.some.inj hx).symm⟩

section Value
variable {p : Payload} {x : ℚ} (hx : p.value? = some x)
include hx

theorem signed_abs_value : Format.signed p.isNegative |x| = x := by
  rcases value?_cases hx with ⟨g, hexp, -, hc, -, rfl⟩ | ⟨v, hc, rfl⟩ <;> rw [isNegative, hc]
  · exact Format.signed_abs_toRat hexp _
  · exact Format.signed_abs_intCast v

/-- A number is rounded once, as it is. -/
theorem roundsTo_toFloat (hf : 0 < f.fraction) (hexp : 2 ≤ f.exponent) :
    f.RoundsTo x p.isNegative (p.number.toFloat f) := by
  rcases value?_cases hx with ⟨g, -, hw, hc, hfinite, rfl⟩ | ⟨v, hc, rfl⟩ <;> rw [isNegative, hc]
  · exact roundsTo_of_finite hw hc hf hexp hfinite
  · rw [number, hc]
    exact Format.roundsTo_ofInt hf hexp v

/-- A number becomes the one payload that it rounds to. -/
theorem toPayload_iff_roundsTo (ht : t.ieee? = some f) (r : Payload) :
    p.toPayload t = .ok r ↔ r.type = t ∧ f.RoundsTo x p.isNegative r.toNat := by
  have hf := PayloadType.fraction_pos ht
  have hexp := PayloadType.two_le_exponent ht
  have hround := roundsTo_toFloat hx hf hexp
  rw [p.toPayload_float_iff ht]
  refine and_congr_right fun hr => ⟨fun h => h ▸ hround, fun h => ?_⟩
  exact h.unique hf hexp (signed_abs_value hx) hround (toNat_lt (hr ▸ ht)) (toFloat_lt hf p.number)

end Value

section Float
variable {p r : Payload} {g : Format} (hg : p.type.ieee? = some g)
include hg

theorem isInfinite_toPayload (ht : t.ieee? = some f) (hr : p.toPayload t = .ok r)
    (hinfinite : p.isInfinite = true) : r.isInfinite = true ∧ r.isNegative = p.isNegative := by
  obtain ⟨rfl, hpattern⟩ := (p.toPayload_float_iff ht r).mp hr
  rw [isInfinite_of_ieee? hg] at hinfinite
  rw [toFloat_of_infinite (PayloadType.widens hg) (content_of_ieee? hg) f hinfinite] at hpattern
  obtain ⟨hmagnitude, hsign⟩ :=
    Format.decode_eq_infinite_iff.mp (f.decode_infinite (g.isNegative p.toNat))
  rw [isInfinite_of_ieee? ht, isNegative_of_ieee? ht, isNegative_of_ieee? hg, hpattern]
  exact ⟨beq_iff_eq.mpr hmagnitude, hsign⟩

theorem isNan_toPayload (ht : t.ieee? = some f) (hr : p.toPayload t = .ok r) (hnan : p.isNan = true) :
    r.isNan = true := by
  obtain ⟨rfl, hpattern⟩ := (p.toPayload_float_iff ht r).mp hr
  rw [isNan_of_ieee? hg] at hnan
  rw [toFloat_of_nan (PayloadType.widens hg) (content_of_ieee? hg) f hnan] at hpattern
  rw [isNan_of_ieee? ht, hpattern]
  exact Format.decode_eq_nan_iff.mp (f.decode_nan (PayloadType.fraction_pos ht))

/-- Conversion to the type that a float has already gives it back, though it passes through doubles. -/
theorem toPayload_self (hnan : p.isNan = false) : p.toPayload p.type = .ok p := by
  rw [isNan_of_ieee? hg] at hnan
  rcases g.finite_or_infinite hnan with hfinite | hinfinite
  · rw [toPayload_iff_roundsTo (value?_of_isFinite hg hfinite) hg, isNegative_of_ieee? hg]
    exact ⟨rfl, Format.roundsTo_toRat (PayloadType.fraction_pos hg) (PayloadType.two_le_exponent hg)
      hfinite⟩
  · have hmagnitude : g.magnitudeBits p.toNat = g.infinityBits := beq_iff_eq.mp hinfinite
    rw [p.toPayload_float_iff hg,
      toFloat_of_infinite (PayloadType.widens hg) (content_of_ieee? hg) g hinfinite, ← hmagnitude,
      g.withSign_magnitudeBits (toNat_lt hg)]
    exact ⟨rfl, rfl⟩

/-- Every float is a double. -/
theorem extended?_toPayload_double (hr : p.toPayload .double = .ok r) (hnan : p.isNan = false) :
    r.extended? = p.extended? ∧ r.isNegative = p.isNegative := by
  obtain ⟨htype, hpattern⟩ := (p.toPayload_float_iff rfl r).mp hr
  have hdouble : r.type.ieee? = some double := htype ▸ rfl
  have hw := PayloadType.widens hg
  obtain ⟨hextended, hsign⟩ := Format.extended?_of_finer hw.two_le_exponent
    Format.widens_double.two_le_exponent hw.unit_le (decode_toFloat_double hw (content_of_ieee? hg))
  rw [isNan_of_ieee? hg] at hnan
  rw [extended?, extended?, content_of_ieee? hg, content_of_ieee? hdouble, isNegative_of_ieee? hg,
    isNegative_of_ieee? hdouble, hpattern]
  exact ⟨hextended, hsign hnan⟩

end Float

/-- Conversion to a floating type always succeeds, and rounds once. A number, of an integer as of a float,
becomes the one payload that it rounds to: the nearest, ties to even, with the number's sign on a zero, and
an infinity from the limit on. An infinity stays one with its sign, and NaN stays NaN. A float that is
converted to its own type is the very same, and to a double the same number. -/
theorem float_conversion (p : Payload) :
    ((∃ x, p.value? = some x) ∨ p.isInfinite = true ∨ p.isNan = true) ∧
    (∀ (t : PayloadType) (f : Format), t.ieee? = some f → ∃ r, p.toPayload t = .ok r ∧ r.type = t ∧
      (∀ x, p.value? = some x → ∀ q : Payload,
        q.type = t ∧ f.RoundsTo x p.isNegative q.toNat ↔ q = r) ∧
      (p.isInfinite = true → r.isInfinite = true ∧ r.isNegative = p.isNegative) ∧
      (p.isNan = true → r.isNan = true)) ∧
    (p.type.ieee? ≠ none → p.isNan = false → p.toPayload p.type = .ok p ∧
      ∃ r, p.toPayload .double = .ok r ∧ r.type = .double ∧ r.extended? = p.extended? ∧
        r.isNegative = p.isNegative) := by
  refine ⟨p.kind_cases, fun t f ht => ?_, fun hp hnan => ?_⟩
  · obtain ⟨r, hr⟩ := p.exists_toPayload ht
    obtain ⟨htype, -⟩ := (p.toPayload_float_iff ht r).mp hr
    refine ⟨r, hr, htype, fun x hx q => ?_, fun hinfinite => ?_, fun hnan => ?_⟩
    · rw [← toPayload_iff_roundsTo hx ht, hr, Except.ok.injEq, eq_comm]
    · obtain ⟨g, hg⟩ := exists_ieee? (.inl hinfinite)
      exact isInfinite_toPayload hg ht hr hinfinite
    · obtain ⟨g, hg⟩ := exists_ieee? (.inr hnan)
      exact isNan_toPayload hg ht hr hnan
  · obtain ⟨g, hg⟩ := Option.ne_none_iff_exists'.mp hp
    obtain ⟨r, hr⟩ := p.exists_toPayload (rfl : PayloadType.double.ieee? = some double)
    exact ⟨toPayload_self hg hnan, r, hr, ((p.toPayload_float_iff rfl r).mp hr).1,
      extended?_toPayload_double hg hr hnan⟩

/-- Just above the middle of two singles, and a double would lie in the middle. -/
theorem float_conversion_above_middle :
    let p := ofNat .uint64 (2 ^ 60 + 2 ^ 36 + 1)
    p.value? = some (2 ^ 60 + 2 ^ 36 + 1) ∧
      single.RoundsTo (2 ^ 60 + 2 ^ 36 + 1) false 0x5D800001 ∧
      p.toPayload .single = .ok (ofNat .single 0x5D800001) ∧
      (do (← p.toPayload .double).toPayload .single) = .ok (ofNat .single 0x5D800000) := by
  intro p
  have hinteger : p.integer? = some (2 ^ 60 + 2 ^ 36 + 1) := by decide +kernel
  have hvalue : p.value? = some (2 ^ 60 + 2 ^ 36 + 1) := by
    rw [value?_of_integer? hinteger]
    norm_num
  have hsingle : p.toPayload .single = .ok (ofNat .single 0x5D800001) := by decide +kernel
  obtain ⟨-, hrounds, -⟩ := float_conversion p
  obtain ⟨r, hr, -, hnumber, -⟩ := hrounds .single single rfl
  obtain rfl := Except.ok.inj (hsingle.symm.trans hr)
  exact ⟨hvalue, ((hnumber _ hvalue _).mpr rfl).2, hsingle, by decide +kernel⟩

end Payload

end ManagedTypes
