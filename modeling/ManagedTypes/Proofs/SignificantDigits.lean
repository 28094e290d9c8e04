import ManagedTypes.Proofs.DecimalValue

/-! Rounding to significant digits as exact arithmetic. The decimal exponent of a number is `Int.log 10`,
so nothing here looks at digit lists until they are compared with it. -/
namespace ManagedTypes.Decimal
open Numeral

theorem log_eq {x : ℚ} (hx : 0 < x) {k : ℤ} (hlow : (10 : ℚ) ^ k ≤ x) (hhigh : x < 10 ^ (k + 1)) :
    Int.log 10 x = k := by
  have hle := (Int.zpow_le_iff_le_log (b := 10) (by norm_num) hx).mp (by exact_mod_cast hlow)
  have hlt := (Int.lt_zpow_iff_log_lt (b := 10) (by norm_num) hx).mp (by exact_mod_cast hhigh)
  omega

theorem ten_zpow_mul {a b c : ℤ} (h : a + b = c) : (10 : ℚ) ^ a * 10 ^ b = 10 ^ c := by
  rw [← zpow_add₀ (by norm_num), h]

theorem ten_pow_mul {n : ℕ} {a b : ℤ} (h : n + a = b) : (10 : ℚ) ^ n * 10 ^ a = 10 ^ b := by
  rw [← zpow_natCast, ten_zpow_mul h]

/-- A nonnegative number rounded to `count` significant digits, a half going up. -/
def roundSignificant (count : ℕ) (x : ℚ) : ℚ :=
  roundHalf (x * 10 ^ (count - 1 - Int.log 10 x)) * 10 ^ (Int.log 10 x + 1 - count)

/-- The least number of digits that a number can be rounded to without a change. -/
noncomputable def significantDigits (x : ℚ) : ℕ := sInf {count | roundSignificant count x = x}

theorem roundSignificant_zero (count : ℕ) : roundSignificant count 0 = 0 := by
  have hzero := roundHalf_natCast 0
  rw [Nat.cast_zero] at hzero
  simp [roundSignificant, hzero]

theorem roundHalf_mono {x y : ℚ} (h : x ≤ y) : roundHalf x ≤ roundHalf y :=
  Nat.floor_le_floor (by linarith)

/-- `count` digits of a number are an integer with as many digits, or the power of ten that comes next. -/
theorem roundHalf_bounds {x : ℚ} (hx : 0 < x) {count : ℕ} (hcount : 0 < count) :
    10 ^ (count - 1) ≤ roundHalf (x * 10 ^ ((count : ℤ) - 1 - Int.log 10 x)) ∧
      roundHalf (x * 10 ^ ((count : ℤ) - 1 - Int.log 10 x)) ≤ 10 ^ count := by
  have hlow : (10 : ℚ) ^ Int.log 10 x ≤ x := by
    exact_mod_cast Int.zpow_log_le_self (b := 10) (by norm_num) hx
  have hhigh : x < (10 : ℚ) ^ (Int.log 10 x + 1) := by
    exact_mod_cast Int.lt_zpow_succ_log_self (b := 10) (by norm_num) x
  have hpos : (0 : ℚ) < 10 ^ ((count : ℤ) - 1 - Int.log 10 x) := by positivity
  constructor
  · have hscaled := mul_le_mul_of_nonneg_right hlow hpos.le
    rw [ten_zpow_mul (c := (count - 1 : ℕ)) (by omega), zpow_natCast] at hscaled
    have hround := roundHalf_mono (x := ((10 ^ (count - 1) : ℕ) : ℚ)) (by exact_mod_cast hscaled)
    rwa [roundHalf_natCast] at hround
  · have hscaled := (mul_lt_mul_of_pos_right hhigh hpos).le
    rw [ten_zpow_mul (c := count) (by omega), zpow_natCast] at hscaled
    have hround := roundHalf_mono (y := ((10 ^ count : ℕ) : ℚ)) (by exact_mod_cast hscaled)
    rwa [roundHalf_natCast] at hround

theorem roundSignificant_pos {x : ℚ} (hx : 0 < x) {count : ℕ} (hcount : 0 < count) :
    0 < roundSignificant count x := by
  have hround := (Nat.pow_pos (by norm_num)).trans_le (roundHalf_bounds hx hcount).1
  have hcast : (0 : ℚ) < roundHalf (x * 10 ^ ((count : ℤ) - 1 - Int.log 10 x)) := by
    exact_mod_cast hround
  unfold roundSignificant
  positivity

theorem roundSignificant_eq_zero_iff {x : ℚ} (hx : 0 ≤ x) {count : ℕ} (hcount : 0 < count) :
    roundSignificant count x = 0 ↔ x = 0 := by
  constructor
  · intro hzero
    by_contra hne
    exact (roundSignificant_pos (lt_of_le_of_ne hx (Ne.symm hne)) hcount).ne' hzero
  · rintro rfl
    exact roundSignificant_zero count

/-- Rounding once more changes nothing, also where a carry has added a digit. -/
theorem roundSignificant_idem {x : ℚ} (hx : 0 ≤ x) {count : ℕ} (hcount : 0 < count) :
    roundSignificant count (roundSignificant count x) = roundSignificant count x := by
  rcases hx.eq_or_lt with rfl | hpos
  · rw [roundSignificant_zero, roundSignificant_zero]
  obtain ⟨hlow, hhigh⟩ := roundHalf_bounds hpos hcount
  have hround := roundSignificant_pos hpos hcount
  obtain ⟨n, hn⟩ : ∃ n, n = roundHalf (x * 10 ^ ((count : ℤ) - 1 - Int.log 10 x)) := ⟨_, rfl⟩
  obtain ⟨k, hk⟩ : ∃ k, k = Int.log 10 x := ⟨_, rfl⟩
  have hy : roundSignificant count x = n * 10 ^ (k + 1 - count) := by rw [roundSignificant, ← hn, hk]
  rw [← hn] at hlow hhigh
  rw [hy] at hround ⊢
  rcases hhigh.lt_or_eq with hlt | rfl
  · -- the number stays in its decade
    have hlog : Int.log 10 ((n : ℚ) * 10 ^ (k + 1 - count)) = k := by
      have hlow' : (10 : ℚ) ^ (count - 1) ≤ n := by exact_mod_cast hlow
      have hlt' : (n : ℚ) < 10 ^ count := by exact_mod_cast hlt
      apply log_eq hround
      · calc (10 : ℚ) ^ k = 10 ^ (count - 1) * 10 ^ (k + 1 - count) := (ten_pow_mul (by omega)).symm
          _ ≤ n * 10 ^ (k + 1 - count) := by gcongr
      · calc (n : ℚ) * 10 ^ (k + 1 - count) < 10 ^ count * 10 ^ (k + 1 - count) := by gcongr
          _ = 10 ^ (k + 1) := ten_pow_mul (by omega)
    rw [roundSignificant, hlog, mul_assoc, ten_zpow_mul (c := 0) (by ring), zpow_zero, mul_one,
      roundHalf_natCast]
  · -- the number is the next power of ten
    have hpower : ((10 ^ count : ℕ) : ℚ) * 10 ^ (k + 1 - count) = 10 ^ (k + 1) := by
      push_cast
      exact ten_pow_mul (by omega)
    have hlog : Int.log 10 ((10 : ℚ) ^ (k + 1)) = k + 1 := by
      exact_mod_cast Int.log_zpow (R := ℚ) (b := 10) (by norm_num) (k + 1)
    have hdigits : (10 : ℚ) ^ (k + 1) * 10 ^ ((count : ℤ) - 1 - (k + 1)) =
        ((10 ^ (count - 1) : ℕ) : ℚ) := by
      rw [ten_zpow_mul (c := (count - 1 : ℕ)) (by omega), zpow_natCast, Nat.cast_pow, Nat.cast_ofNat]
    rw [hpower, roundSignificant, hlog, hdigits, roundHalf_natCast, Nat.cast_pow, Nat.cast_ofNat]
    exact ten_pow_mul (by omega)

variable {d : Decimal}

theorem Normal.magnitude_eq_zero_iff (h : d.Normal) : d.magnitude = 0 ↔ d.digits = [] := by
  constructor
  · intro hzero
    by_contra hne
    have hdecade := h.le_magnitude hne
    rw [hzero] at hdecade
    exact absurd hdecade (not_le.mpr (by positivity))
  · intro hnil
    simp [magnitude, hnil, value]

/-- The scale of a number counts the digits in front of the point. -/
theorem Normal.log_magnitude (h : d.Normal) (hne : d.digits ≠ []) :
    Int.log 10 d.magnitude = d.scale - 1 := by
  have hdecade := h.le_magnitude hne
  apply log_eq ((by positivity : (0 : ℚ) < 10 ^ (d.scale - 1)).trans_le hdecade) hdecade
  rw [sub_add_cancel]
  exact magnitude_lt h.digits_lt

/-- Keeping digits of a digit list is rounding to significant digits. -/
theorem Normal.magnitude_roundTo (h : d.Normal) (count : ℕ) :
    (d.roundTo count).magnitude = roundSignificant count d.magnitude := by
  by_cases hnil : d.digits = []
  · rw [roundTo_of_length_le (by simp [hnil]), h.magnitude_eq_zero_iff.mpr hnil, roundSignificant_zero]
  · rw [Decimal.magnitude_roundTo h.digits_lt, roundSignificant, h.log_magnitude hnil, sub_add_cancel,
      sub_sub_sub_cancel_right]

theorem Normal.not_dvd_value (h : d.Normal) (hne : d.digits ≠ []) : ¬ 10 ∣ value 10 d.digits := by
  obtain ⟨front, last, hlast⟩ := (List.eq_nil_or_concat d.digits).resolve_left hne
  have hlt : last < 10 := h.digits_lt last (by simp [hlast])
  have hnonzero : last ≠ 0 := by
    rintro rfl
    exact h.last_ne (by simp [hlast])
  rw [hlast, List.concat_eq_append, value_append_one]
  omega

/-- A number that rounding to fewer digits leaves as it is has zeros in place of the others. -/
theorem Normal.dvd_value (h : d.Normal) {count m : ℕ} (hlength : count + m = d.digits.length)
    (hround : roundSignificant count d.magnitude = d.magnitude) : 10 ^ m ∣ value 10 d.digits := by
  obtain ⟨n, hn⟩ : ∃ n : ℕ, d.magnitude = n * 10 ^ (d.scale - count) :=
    ⟨_, by rw [← Decimal.magnitude_roundTo h.digits_lt, h.magnitude_roundTo, hround]⟩
  have hvalue : (value 10 d.digits : ℚ) = n * 10 ^ m := by
    calc (value 10 d.digits : ℚ) = d.magnitude * 10 ^ ((d.digits.length : ℤ) - d.scale) := by
          rw [magnitude, mul_assoc, ten_zpow_mul (c := 0) (by ring), zpow_zero, mul_one]
      _ = n * 10 ^ m := by
          rw [hn, mul_assoc, ten_zpow_mul (c := m) (by omega), zpow_natCast]
  exact ⟨n, by rw [mul_comm]; exact_mod_cast hvalue⟩

/-- No shorter list of digits has the value, since the last digit is not zero. -/
theorem Normal.significantDigits_eq (h : d.Normal) :
    significantDigits d.magnitude = d.digits.length := by
  refine IsLeast.csInf_eq ⟨?_, fun count hcount => ?_⟩
  · show roundSignificant d.digits.length d.magnitude = d.magnitude
    rw [← h.magnitude_roundTo, roundTo_of_length_le le_rfl]
  · by_contra hless
    obtain ⟨m, hm⟩ := Nat.exists_eq_add_of_lt (not_le.mp hless)
    have hne : d.digits ≠ [] := by
      rintro hnil
      simp [hnil] at hless
    have hdvd := h.dvd_value (m := m + 1) (by omega) hcount
    exact h.not_dvd_value hne ((dvd_pow_self 10 (Nat.succ_ne_zero m)).trans hdvd)

/-- Rounding leaves no more digits than asked for. -/
theorem Normal.length_roundTo_le (h : d.Normal) {count : ℕ} (hcount : 0 < count) :
    (d.roundTo count).digits.length ≤ count := by
  rw [← (normal_roundTo h count).significantDigits_eq, h.magnitude_roundTo]
  exact Nat.sInf_le (roundSignificant_idem (magnitude_nonneg d) hcount)

end ManagedTypes.Decimal
