import ManagedTypes.Proofs.NearestPattern

/-! The exact number of a finite pattern, and its passage to a wider format: no number is lost there, so
rounding finds the very same one. -/
namespace ManagedTypes.Ieee

/-- The datum counted in steps that are as many times finer. -/
def Datum.finer (times : ℕ) : Datum → Datum
  | nan => nan
  | infinite negative => infinite negative
  | finite negative n => finite negative (n * times)

namespace Format

/-- A number with its sign. -/
def signed (negative : Bool) (x : ℚ) : ℚ := if negative then -x else x

variable (f : Format)

/-- What is subtracted from the exponent field. -/
def bias : ℤ := 2 ^ (f.exponent - 1) - 1

/-- The number of a finite pattern. The leading digit is not stored; it is zero where the exponent field
is, and one elsewhere. -/
def toRat (bits : ℕ) : ℚ :=
  signed (f.isNegative bits) <|
    if f.exponentField bits = 0 then f.fractionField bits / 2 ^ f.fraction * 2 ^ (1 - f.bias)
    else (1 + f.fractionField bits / 2 ^ f.fraction) * 2 ^ ((f.exponentField bits : ℤ) - f.bias)

/-- Counted in finer steps a number is the same. -/
theorem div_finer {g f : Format} (h : g.unit ≤ f.unit) (n : ℕ) :
    ((n * 2 ^ (f.unit - g.unit) : ℕ) : ℚ) / 2 ^ f.unit = n / 2 ^ g.unit := by
  have hunit : (2 : ℚ) ^ f.unit = 2 ^ (f.unit - g.unit) * 2 ^ g.unit := by
    rw [← pow_add, Nat.sub_add_cancel h]
  rw [hunit]
  push_cast
  field_simp

theorem unit_eq (hf : 2 ≤ f.exponent) : (f.unit : ℤ) = f.bias - 1 + f.fraction := by
  have hpow : 2 ≤ 2 ^ (f.exponent - 1) := Nat.le_self_pow (by omega) 2
  unfold unit bias
  push_cast [hpow]
  ring

/-- The number counted in least steps. -/
theorem toRat_eq (hf : 2 ≤ f.exponent) (bits : ℕ) :
    f.toRat bits = signed (f.isNegative bits) (f.steps bits / 2 ^ f.unit) := by
  have hunit : (2 : ℚ) ^ f.unit = 2 ^ (f.bias - 1) * 2 ^ f.fraction := by
    rw [← zpow_natCast, f.unit_eq hf, zpow_add₀ (by norm_num), zpow_natCast]
  have hpow (e : ℤ) : (2 : ℚ) ^ e ≠ 0 := zpow_ne_zero _ (by norm_num)
  unfold toRat steps
  congr 1
  rw [hunit]
  split
  · rw [show 1 - f.bias = -(f.bias - 1) by ring, zpow_neg]
    field_simp
  next hne =>
    obtain ⟨e, he⟩ := Nat.exists_eq_succ_of_ne_zero hne
    rw [he, Nat.succ_eq_add_one, Nat.add_sub_cancel,
      show ((e + 1 : ℕ) : ℤ) - f.bias = e - (f.bias - 1) by push_cast; ring,
      zpow_sub₀ (by norm_num), zpow_natCast]
    push_cast
    field_simp

variable {f} in
theorem signBit_pos : 0 < f.signBit := by
  unfold signBit
  positivity

variable {f} in
theorem infinityBits_pos (hf : 2 ≤ f.exponent) : 0 < f.infinityBits := by
  have hpow : 2 ≤ 2 ^ f.exponent := Nat.le_self_pow (by omega) 2
  exact Nat.mul_pos (by omega) (by positivity)

/-- A pattern is its sign and its magnitude. -/
theorem withSign_magnitudeBits {bits : ℕ} (h : bits < 2 * f.signBit) :
    f.withSign (f.isNegative bits) (f.magnitudeBits bits) = bits := by
  have hsplit := Nat.div_add_mod bits f.signBit
  have hsign : bits / f.signBit < 2 := by rwa [Nat.div_lt_iff_lt_mul signBit_pos]
  unfold withSign isNegative magnitudeBits
  interval_cases hs : bits / f.signBit
  · simpa using hsplit
  · simpa using hsplit

theorem finite_or_infinite {bits : ℕ} (h : f.isNan bits = false) :
    f.isFinite bits = true ∨ f.isInfinite bits = true := by
  simp only [isNan, decide_eq_false_iff_not, not_lt] at h
  simp only [isFinite, isInfinite, decide_eq_true_eq, beq_iff_eq]
  omega

section Sign
variable {f} {m : ℕ} (hm : m < f.signBit) (negative : Bool)
include hm

theorem isNegative_withSign : f.isNegative (f.withSign negative m) = negative := by
  have hpos : 0 < f.signBit := (Nat.zero_le m).trans_lt hm
  cases negative
  · simp [isNegative, withSign, Nat.div_eq_of_lt hm]
  · simp [isNegative, withSign, Nat.add_div_left m hpos, Nat.div_eq_of_lt hm]

theorem magnitudeBits_withSign : f.magnitudeBits (f.withSign negative m) = m := by
  cases negative
  · simp [magnitudeBits, withSign, Nat.mod_eq_of_lt hm]
  · simp [magnitudeBits, withSign, Nat.mod_eq_of_lt hm]

theorem withSign_lt : f.withSign negative m < 2 * f.signBit := by
  unfold withSign
  split <;> omega

end Sign

theorem decode_finite {m : ℕ} (hm : m < f.infinityBits) (negative : Bool) :
    f.decode (f.withSign negative m) = .finite negative (f.stepsAt m) := by
  have hlt : m < f.signBit := hm.trans f.infinityBits_lt
  rw [decode, isNan, isInfinite, steps_magnitudeBits, magnitudeBits_withSign hlt,
    isNegative_withSign hlt, if_neg (by simpa using hm.le), if_neg (by simpa using hm.ne)]

theorem decode_infinite (negative : Bool) :
    f.decode (f.withSign negative f.infinityBits) = .infinite negative := by
  rw [decode, isNan, isInfinite, magnitudeBits_withSign f.infinityBits_lt,
    isNegative_withSign f.infinityBits_lt, if_neg (by simp), if_pos (by simp)]

variable {f} in
theorem decode_eq_nan_iff {bits : ℕ} : f.decode bits = .nan ↔ f.isNan bits = true := by
  unfold decode
  split
  next h => simp [h]
  next h => split <;> simp [h]

variable {f} in
theorem decode_eq_infinite_iff {bits : ℕ} {negative : Bool} :
    f.decode bits = .infinite negative ↔
      f.magnitudeBits bits = f.infinityBits ∧ f.isNegative bits = negative := by
  unfold decode isNan isInfinite
  rcases lt_trichotomy (f.magnitudeBits bits) f.infinityBits with h | h | h
  · simp [h.ne, h.not_gt]
  · simp [h]
  · simp [h, h.ne']

variable {f} in
theorem decode_eq_finite_iff {bits n : ℕ} {negative : Bool} :
    f.decode bits = .finite negative n ↔
      f.isFinite bits = true ∧ f.isNegative bits = negative ∧ f.steps bits = n := by
  unfold decode isNan isInfinite isFinite
  rcases lt_trichotomy (f.magnitudeBits bits) f.infinityBits with h | h | h
  · simp [h, h.ne, h.not_gt]
  · simp [h]
  · simp [h, h.not_gt]

variable {f} in
theorem nanBits_lt (hf : 0 < f.fraction) : f.nanBits < f.signBit := by
  have hhalf : 2 ^ (f.fraction - 1) < 2 ^ f.fraction := Nat.pow_lt_pow_right (by norm_num) (by omega)
  have hone : 1 ≤ 2 ^ f.exponent := Nat.one_le_two_pow
  calc f.nanBits
    _ < (2 ^ f.exponent - 1) * 2 ^ f.fraction + 2 ^ f.fraction := Nat.add_lt_add_left hhalf _
    _ = 2 ^ f.exponent * 2 ^ f.fraction := by
      rw [← Nat.succ_mul, Nat.succ_eq_add_one, Nat.sub_add_cancel hone]
    _ = f.signBit := (pow_add 2 _ _).symm

theorem decode_nan (hf : 0 < f.fraction) : f.decode f.nanBits = .nan := by
  rw [decode, isNan, magnitudeBits, Nat.mod_eq_of_lt (nanBits_lt hf), if_pos]
  simp [nanBits]

theorem ofDatum_lt (hf : 0 < f.fraction) (g : Format) (d : Datum) :
    f.ofDatum g d < 2 * f.signBit := by
  cases d with
  | nan => exact (nanBits_lt hf).trans (by have := nanBits_lt hf; omega)
  | infinite negative => exact withSign_lt f.infinityBits_lt negative
  | finite negative n =>
    exact withSign_lt ((Nat.min_le_right _ _).trans_lt f.infinityBits_lt) negative

variable {f}

/-- Rounding keeps what is the number of a pattern already. -/
theorem nearest_exact (hf : 0 < f.fraction) {k n d : ℕ} (hk : k ≤ f.infinityBits) (hd : 0 < d)
    (hn : n = f.stepsAt k * d) : f.nearest n d = k := by
  have hquot : (n : ℚ) / d = f.stepsAt k := by
    rw [hn]
    push_cast
    field_simp
  have hnearest := f.isNearest_nearest hf n hd
  have hclosest := hnearest.closest k hk
  rw [f.steps_eq hk, hquot, sub_self, abs_zero, abs_nonpos_iff, sub_eq_zero,
    f.steps_eq hnearest.le, Nat.cast_inj] at hclosest
  exact f.stepsAt_strictMono.injective hclosest

/-- The second format has every number of the first. -/
structure Widens (g f : Format) : Prop where
  fraction_pos : 0 < f.fraction
  two_le_exponent : 2 ≤ g.exponent
  fraction_le : g.fraction ≤ f.fraction
  unit_le : g.unit ≤ f.unit
  exponent_le : 2 ^ g.exponent + (f.unit - g.unit) ≤ 2 ^ f.exponent

theorem widens_single : Widens single double :=
  ⟨by decide, by decide, by decide, by decide, by decide⟩

theorem widens_double : Widens double double :=
  ⟨by decide, by decide, by decide, by decide, by decide⟩

/-- A grid point that is not past the fraction can be shifted up to its end, or as far as there is
room. -/
theorem exists_shift {j : ℕ} (room : ℕ) (hpos : 0 < j) (hj : j < 2 ^ (f.fraction + 1)) :
    ∃ i s, i < 2 ^ (f.fraction + 1) ∧ (s = 0 ∨ 2 ^ f.fraction ≤ i) ∧ s ≤ room ∧
      i * 2 ^ s = j * 2 ^ room := by
  have hlog : j.log2 ≤ f.fraction := Nat.lt_succ_iff.mp ((Nat.log2_lt hpos.ne').mpr hj)
  obtain ⟨a, ha⟩ : ∃ a, a = min (f.fraction - j.log2) room := ⟨_, rfl⟩
  refine ⟨j * 2 ^ a, room - a, ?_, ?_, Nat.sub_le _ _, ?_⟩
  · calc j * 2 ^ a < 2 ^ (j.log2 + 1) * 2 ^ a :=
          Nat.mul_lt_mul_of_pos_right Nat.lt_log2_self (by positivity)
      _ = 2 ^ (j.log2 + 1 + a) := (pow_add 2 _ _).symm
      _ ≤ 2 ^ (f.fraction + 1) := Nat.pow_le_pow_right (by norm_num) (by omega)
  · rcases Nat.eq_zero_or_pos (room - a) with hs | hs
    · exact .inl hs
    · right
      calc 2 ^ f.fraction = 2 ^ j.log2 * 2 ^ a := by rw [← pow_add]; congr 1; omega
        _ ≤ j * 2 ^ a := Nat.mul_le_mul_right _ (Nat.log2_self_le hpos.ne')
  · rw [mul_assoc, ← pow_add]
    congr 2
    omega

variable {g : Format} (h : Widens g f)
include h

theorem Widens.exists_pattern {m : ℕ} (hm : m < g.infinityBits) :
    ∃ k < f.infinityBits, f.stepsAt k = g.stepsAt m * 2 ^ (f.unit - g.unit) := by
  obtain ⟨s, j, rfl, hj, hs⟩ := g.exists_grid m
  have hwide := h.exponent_le
  have hfour : 2 ^ 2 ≤ 2 ^ g.exponent := Nat.pow_le_pow_right (by norm_num) h.two_le_exponent
  rw [g.stepsAt_grid hj.le hs, mul_assoc, ← pow_add]
  rcases Nat.eq_zero_or_pos j with rfl | hpos
  · refine ⟨0, ?_, by simp [stepsAt]⟩
    exact Nat.mul_pos (by omega) (by positivity)
  -- infinity's exponent stays free
  have hlow : s + 2 ≤ 2 ^ g.exponent - 1 := by
    rcases hs with rfl | hs
    · omega
    · have hlt : (s + 1) * 2 ^ g.fraction < (2 ^ g.exponent - 1) * 2 ^ g.fraction := by
        rw [Nat.succ_mul]
        exact (Nat.add_le_add_left hs _).trans_lt hm
      exact Nat.lt_of_mul_lt_mul_right hlt
  have hfit : j < 2 ^ (f.fraction + 1) :=
    hj.trans_le (Nat.pow_le_pow_right (by norm_num) (Nat.succ_le_succ h.fraction_le))
  obtain ⟨i, e, hi, he, hroom, hvalue⟩ := exists_shift (s + (f.unit - g.unit)) hpos hfit
  refine ⟨e * 2 ^ f.fraction + i, ?_, by rw [f.stepsAt_grid hi.le he, hvalue]⟩
  calc e * 2 ^ f.fraction + i < e * 2 ^ f.fraction + 2 ^ (f.fraction + 1) := Nat.add_lt_add_left hi _
    _ = (e + 2) * 2 ^ f.fraction := by rw [pow_succ, Nat.add_mul, Nat.mul_comm 2]
    _ ≤ f.infinityBits := Nat.mul_le_mul_right _ (by omega)

/-- Widening keeps sign and number, and what is no number. -/
theorem Widens.decode_ofDatum (bits : ℕ) :
    f.decode (f.ofDatum g (g.decode bits)) = (g.decode bits).finer (2 ^ (f.unit - g.unit)) := by
  cases hd : g.decode bits with
  | nan => exact f.decode_nan h.fraction_pos
  | infinite negative => exact f.decode_infinite negative
  | finite negative n =>
    obtain ⟨hfinite, -, hsteps⟩ := decode_eq_finite_iff.mp hd
    obtain ⟨k, hk, hvalue⟩ := h.exists_pattern (of_decide_eq_true hfinite)
    rw [← g.steps_magnitudeBits, hsteps] at hvalue
    have hexact : n * 2 ^ f.unit = f.stepsAt k * 2 ^ g.unit := by
      rw [hvalue, mul_assoc, ← pow_add, Nat.sub_add_cancel h.unit_le]
    rw [ofDatum, nearest_exact h.fraction_pos hk.le (by positivity) hexact, f.decode_finite hk, hvalue,
      Datum.finer]

end Format

end ManagedTypes.Ieee
