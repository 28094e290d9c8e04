import Mathlib
import ManagedTypes.Ieee.Round

/-! Rounding to a pattern, against all patterns of the format. Infinity takes part as the number that
would come after the greatest finite one, so what rounds to it is what rounds past the finite ones. -/
namespace ManagedTypes.Ieee

theorem roundQuotient_error {n d : ℕ} (hd : 0 < d) :
    |(roundQuotient n d : ℚ) - n / d| ≤ 1 / 2 ∧
      (|(roundQuotient n d : ℚ) - n / d| = 1 / 2 → roundQuotient n d % 2 = 0) := by
  have hd' : (0 : ℚ) < d := by exact_mod_cast hd
  have hsplit : (n : ℚ) / d = (n / d : ℕ) + (n % d : ℕ) / d := by
    have hmod : (n : ℚ) = d * (n / d : ℕ) + (n % d : ℕ) := by exact_mod_cast (Nat.div_add_mod n d).symm
    field_simp
    linarith
  have hrest0 : (0 : ℚ) ≤ (n % d : ℕ) / d := by positivity
  have hrest1 : ((n % d : ℕ) : ℚ) / d < 1 := by
    rw [div_lt_one hd']
    exact_mod_cast Nat.mod_lt n hd
  unfold roundQuotient
  dsimp only
  rw [hsplit]
  split
  next hlow =>
    have hhalf : ((n % d : ℕ) : ℚ) / d < 1 / 2 := by
      rw [div_lt_div_iff₀ hd' (by norm_num), one_mul]
      exact_mod_cast (by omega : n % d * 2 < d)
    rw [sub_add_cancel_left, abs_neg, abs_of_nonneg hrest0]
    exact ⟨hhalf.le, fun h => absurd h hhalf.ne⟩
  next hlow =>
    split
    next hhigh =>
      have hhalf : 1 / 2 < ((n % d : ℕ) : ℚ) / d := by
        rw [div_lt_div_iff₀ (by norm_num) hd', one_mul]
        exact_mod_cast (by omega : d < n % d * 2)
      push_cast
      rw [add_sub_add_left_eq_sub, abs_of_pos (by linarith)]
      exact ⟨by linarith, fun h => by linarith⟩
    next hhigh =>
      have hhalf : ((n % d : ℕ) : ℚ) / d = 1 / 2 := by
        rw [div_eq_div_iff hd'.ne' (by norm_num), one_mul]
        exact_mod_cast (by omega : n % d * 2 = d)
      rw [hhalf]
      rcases Nat.mod_two_eq_zero_or_one (n / d) with hpar | hpar
      · rw [hpar]
        push_cast
        norm_num
        omega
      · rw [hpar]
        push_cast
        norm_num
        omega

/-- An integer within half a unit is nearest, and another one as near is half a unit away too. -/
theorem nearest_of_error {x : ℚ} {q : ℕ} (h : |(q : ℚ) - x| ≤ 1 / 2) (j : ℕ) :
    |(q : ℚ) - x| ≤ |(j : ℚ) - x| ∧
      (j ≠ q → |(q : ℚ) - x| = |(j : ℚ) - x| → |(q : ℚ) - x| = 1 / 2) := by
  by_cases hj : j = q
  · subst hj
    exact ⟨le_rfl, fun hne => absurd rfl hne⟩
  have hgap : (1 : ℚ) ≤ |(q : ℚ) - j| := by
    have hint : (1 : ℤ) ≤ |(q : ℤ) - j| := Int.one_le_abs (by omega)
    exact_mod_cast hint
  have htriangle := abs_sub_le (q : ℚ) x j
  rw [abs_sub_comm x (j : ℚ)] at htriangle
  exact ⟨by linarith, fun _ heq => by linarith⟩

/-- Rounding does not leave the integers around a number. -/
theorem le_of_error {x : ℚ} {q n : ℕ} (h : |(q : ℚ) - x| ≤ 1 / 2) (hx : x < n) : q ≤ n := by
  by_contra hlt
  have hcast : (n : ℚ) + 1 ≤ q := by exact_mod_cast (by omega : n + 1 ≤ q)
  have hhigh := (abs_le.mp h).2
  linarith

theorem ge_of_error {x : ℚ} {q n : ℕ} (h : |(q : ℚ) - x| ≤ 1 / 2) (hx : (n : ℚ) ≤ x) : n ≤ q := by
  by_contra hlt
  have hcast : (q : ℚ) + 1 ≤ n := by exact_mod_cast (by omega : q + 1 ≤ n)
  have hlow := (abs_le.mp h).1
  linarith

namespace Format
variable (f : Format)

/-- The number of least steps of any magnitude, past the format's patterns too. -/
def stepsAt (m : ℕ) : ℕ :=
  if m / 2 ^ f.fraction = 0 then m
  else (2 ^ f.fraction + m % 2 ^ f.fraction) * 2 ^ (m / 2 ^ f.fraction - 1)

theorem infinityBits_lt : f.infinityBits < f.signBit := by
  rw [infinityBits, signBit, pow_add]
  exact Nat.mul_lt_mul_of_pos_right (by have := Nat.two_pow_pos f.exponent; omega) (by positivity)

theorem exponentField_eq (bits : ℕ) :
    f.exponentField bits = f.magnitudeBits bits / 2 ^ f.fraction := by
  rw [exponentField, magnitudeBits, signBit, add_comm, pow_add, Nat.mod_mul_right_div_self]

theorem fractionField_eq (bits : ℕ) :
    f.fractionField bits = f.magnitudeBits bits % 2 ^ f.fraction := by
  rw [fractionField, magnitudeBits, signBit, Nat.mod_mod_of_dvd _ (pow_dvd_pow 2 (by omega))]

theorem steps_magnitudeBits (bits : ℕ) : f.steps bits = f.stepsAt (f.magnitudeBits bits) := by
  unfold steps stepsAt
  rw [exponentField_eq, fractionField_eq]
  split
  next hz => exact Nat.mod_eq_of_lt ((Nat.div_eq_zero_iff_lt (by positivity)).mp hz)
  · rfl

/-- Patterns are the points of a grid that doubles its unit at every power of two. -/
theorem stepsAt_grid {s j : ℕ} (hj : j ≤ 2 ^ (f.fraction + 1)) (hs : s = 0 ∨ 2 ^ f.fraction ≤ j) :
    f.stepsAt (s * 2 ^ f.fraction + j) = j * 2 ^ s := by
  have hp : 0 < 2 ^ f.fraction := by positivity
  have hdiv : (s * 2 ^ f.fraction + j) / 2 ^ f.fraction = s + j / 2 ^ f.fraction := by
    rw [add_comm, Nat.add_mul_div_right _ _ hp, add_comm]
  have hmod : (s * 2 ^ f.fraction + j) % 2 ^ f.fraction = j % 2 ^ f.fraction := by
    rw [add_comm, Nat.add_mul_mod_self_right]
  unfold stepsAt
  rw [hdiv, hmod]
  rw [pow_succ] at hj
  rcases Nat.lt_or_ge j (2 ^ f.fraction) with hlow | hlow
  · have hs0 : s = 0 := by omega
    simp [hs0, Nat.div_eq_of_lt hlow]
  rcases Nat.lt_or_ge j (2 ^ f.fraction * 2) with hhigh | hhigh
  · have hone : j / 2 ^ f.fraction = 1 := Nat.div_eq_of_lt_le (by omega) (by omega)
    have hrest : 2 ^ f.fraction + j % 2 ^ f.fraction = j := by
      have hsplit := Nat.div_add_mod j (2 ^ f.fraction)
      rw [hone] at hsplit
      omega
    rw [hone, hrest, if_neg (by omega), Nat.add_sub_cancel]
  · obtain rfl : j = 2 ^ f.fraction * 2 := by omega
    rw [Nat.mul_div_cancel_left 2 hp, Nat.mul_mod_right, if_neg (by omega), Nat.add_zero,
      show s + 2 - 1 = 1 + s by omega, pow_add, pow_one, mul_assoc]

/-- Every pattern is on such a grid, and not at its end. -/
theorem exists_grid (m : ℕ) :
    ∃ s j, m = s * 2 ^ f.fraction + j ∧ j < 2 ^ (f.fraction + 1) ∧
      (s = 0 ∨ 2 ^ f.fraction ≤ j) := by
  have hp : 0 < 2 ^ f.fraction := by positivity
  have hsplit := Nat.div_add_mod m (2 ^ f.fraction)
  have hmodlt := Nat.mod_lt m hp
  rw [pow_succ]
  rcases Nat.eq_zero_or_pos (m / 2 ^ f.fraction) with hz | hpos
  · refine ⟨0, m, by simp, ?_, .inl rfl⟩
    have hm := (Nat.div_eq_zero_iff_lt hp).mp hz
    omega
  · refine ⟨m / 2 ^ f.fraction - 1, 2 ^ f.fraction + m % 2 ^ f.fraction, ?_, by omega, .inr (by omega)⟩
    obtain ⟨s, hs⟩ := Nat.exists_eq_succ_of_ne_zero hpos.ne'
    rw [hs, Nat.succ_eq_add_one] at hsplit ⊢
    rw [Nat.add_sub_cancel]
    nlinarith

theorem grid_div {s j : ℕ} (hj : j < 2 ^ (f.fraction + 1)) (hs : s = 0 ∨ 2 ^ f.fraction ≤ j) :
    (s * 2 ^ f.fraction + j) / 2 ^ f.fraction - 1 = s := by
  have hp : 0 < 2 ^ f.fraction := by positivity
  rw [add_comm, Nat.add_mul_div_right _ _ hp]
  rw [pow_succ] at hj
  rcases Nat.lt_or_ge j (2 ^ f.fraction) with hlow | hlow
  · rw [Nat.div_eq_of_lt hlow]
    omega
  · rw [Nat.div_eq_of_lt_le (by omega) (by omega : j < (1 + 1) * 2 ^ f.fraction)]
    omega

theorem grid_power {s j : ℕ} (hj : j < 2 ^ (f.fraction + 1)) (hs : s = 0 ∨ 2 ^ f.fraction ≤ j) :
    (s * 2 ^ f.fraction + j) % 2 ^ f.fraction = 0 ∧ 1 < (s * 2 ^ f.fraction + j) / 2 ^ f.fraction ↔
      s ≠ 0 ∧ j = 2 ^ f.fraction := by
  have hp : 0 < 2 ^ f.fraction := by positivity
  have hdiv := f.grid_div hj hs
  rw [add_comm, Nat.add_mul_mod_self_right]
  rw [add_comm] at hdiv
  rw [pow_succ] at hj
  rcases Nat.lt_or_ge j (2 ^ f.fraction) with hlow | hlow
  · rw [Nat.mod_eq_of_lt hlow]
    omega
  · have hrest : j % 2 ^ f.fraction = j - 2 ^ f.fraction := by
      rw [Nat.mod_eq_sub_mod hlow, Nat.mod_eq_of_lt (by omega)]
    rw [hrest]
    omega

/-- The step down from a power of two is half the step up. -/
theorem stepsAt_pred {s j : ℕ} (hpos : 0 < s * 2 ^ f.fraction + j) (hj : j < 2 ^ (f.fraction + 1))
    (hs : s = 0 ∨ 2 ^ f.fraction ≤ j) :
    f.stepsAt (s * 2 ^ f.fraction + j - 1) +
      (if s ≠ 0 ∧ j = 2 ^ f.fraction then 2 ^ (s - 1) else 2 ^ s) = j * 2 ^ s := by
  have hp : 0 < 2 ^ f.fraction := by positivity
  split
  next hpower =>
    obtain ⟨hs0, rfl⟩ := hpower
    obtain ⟨s, rfl⟩ := Nat.exists_eq_succ_of_ne_zero hs0
    have hprev : (s + 1) * 2 ^ f.fraction + 2 ^ f.fraction - 1 =
        s * 2 ^ f.fraction + (2 ^ (f.fraction + 1) - 1) := by
      rw [pow_succ, Nat.succ_mul]
      omega
    rw [Nat.succ_eq_add_one, hprev, f.stepsAt_grid (by omega) (.inr (by rw [pow_succ]; omega)),
      Nat.add_sub_cancel]
    calc (2 ^ (f.fraction + 1) - 1) * 2 ^ s + 2 ^ s
        = (2 ^ (f.fraction + 1) - 1 + 1) * 2 ^ s := by rw [Nat.add_mul, one_mul]
      _ = 2 ^ f.fraction * 2 ^ (s + 1) := by
        rw [Nat.sub_add_cancel (Nat.one_le_two_pow), pow_succ, pow_succ]
        ring
  next hother =>
    obtain ⟨j, rfl⟩ : ∃ i, j = i + 1 := by
      refine Nat.exists_eq_succ_of_ne_zero ?_
      rintro rfl
      rcases hs with rfl | hs <;> omega
    rw [← Nat.add_assoc, Nat.add_sub_cancel, f.stepsAt_grid (by omega) (by omega), Nat.add_mul,
      one_mul]

theorem stepsAt_lt_succ (m : ℕ) : f.stepsAt m < f.stepsAt (m + 1) := by
  obtain ⟨s, j, rfl, hj, hs⟩ := f.exists_grid m
  rw [add_assoc, f.stepsAt_grid hj.le hs, f.stepsAt_grid (by omega) (by omega)]
  exact Nat.mul_lt_mul_of_pos_right (by omega) (by positivity)

theorem stepsAt_le (m : ℕ) : f.stepsAt m ≤ 2 ^ (f.fraction + 1 + m / 2 ^ f.fraction) := by
  have hrest : m % 2 ^ f.fraction < 2 ^ f.fraction := Nat.mod_lt m (by positivity)
  have hone : 1 ≤ 2 ^ (m / 2 ^ f.fraction) := Nat.one_le_two_pow
  unfold stepsAt
  rw [pow_add, pow_succ]
  split
  next hz =>
    rw [Nat.mod_eq_of_lt ((Nat.div_eq_zero_iff_lt (by positivity)).mp hz)] at hrest
    nlinarith
  · exact Nat.mul_le_mul (by omega) (Nat.pow_le_pow_right (by norm_num) (Nat.sub_le _ _))

/-- Both neighbours are further away than a part of the number that the format's precision gives. -/
theorem stepsAt_gap_above (m : ℕ) :
    f.stepsAt m + 2 ^ (f.fraction + 1) * f.stepsAt m ≤ 2 ^ (f.fraction + 1) * f.stepsAt (m + 1) := by
  obtain ⟨s, j, rfl, hj, hs⟩ := f.exists_grid m
  rw [add_assoc, f.stepsAt_grid hj.le hs, f.stepsAt_grid (by omega) (by omega)]
  calc j * 2 ^ s + 2 ^ (f.fraction + 1) * (j * 2 ^ s)
      ≤ 2 ^ (f.fraction + 1) * 2 ^ s + 2 ^ (f.fraction + 1) * (j * 2 ^ s) := by gcongr
    _ = 2 ^ (f.fraction + 1) * ((j + 1) * 2 ^ s) := by ring

theorem stepsAt_gap_below {m : ℕ} (hpos : 0 < m) :
    f.stepsAt m + 2 ^ (f.fraction + 1) * f.stepsAt (m - 1) ≤ 2 ^ (f.fraction + 1) * f.stepsAt m := by
  obtain ⟨s, j, rfl, hj, hs⟩ := f.exists_grid m
  have hpred := f.stepsAt_pred hpos hj hs
  rw [f.stepsAt_grid hj.le hs]
  generalize f.stepsAt (s * 2 ^ f.fraction + j - 1) = below at hpred ⊢
  have hgap : j * 2 ^ s ≤
      2 ^ (f.fraction + 1) * (if s ≠ 0 ∧ j = 2 ^ f.fraction then 2 ^ (s - 1) else 2 ^ s) := by
    split
    next hpower =>
      obtain ⟨hs0, rfl⟩ := hpower
      obtain ⟨t, rfl⟩ := Nat.exists_eq_succ_of_ne_zero hs0
      rw [Nat.succ_eq_add_one, Nat.add_sub_cancel, pow_succ, pow_succ]
      exact (by ring : _ = _).le
    · gcongr
  calc j * 2 ^ s + 2 ^ (f.fraction + 1) * below
      ≤ 2 ^ (f.fraction + 1) * (if s ≠ 0 ∧ j = 2 ^ f.fraction then 2 ^ (s - 1) else 2 ^ s) +
          2 ^ (f.fraction + 1) * below := by gcongr
    _ = 2 ^ (f.fraction + 1) * (j * 2 ^ s) := by rw [← hpred]; ring

theorem stepsAt_strictMono : StrictMono f.stepsAt := strictMono_nat_of_lt_succ f.stepsAt_lt_succ

/-- The pattern `m` stands for the number nearest to `x` least steps, the even one of two. -/
structure IsNearest (x : ℚ) (m : ℕ) : Prop where
  le : m ≤ f.infinityBits
  closest : ∀ k ≤ f.infinityBits, |(f.steps m : ℚ) - x| ≤ |(f.steps k : ℚ) - x|
  even : ∀ k ≤ f.infinityBits, k ≠ m → |(f.steps m : ℚ) - x| = |(f.steps k : ℚ) - x| → m % 2 = 0

theorem steps_eq {m : ℕ} (h : m ≤ f.infinityBits) : f.steps m = f.stepsAt m := by
  rw [steps_magnitudeBits, magnitudeBits, Nat.mod_eq_of_lt (h.trans_lt f.infinityBits_lt)]

variable {f}

/-- Two nearest patterns would be neighbours of different parity. -/
theorem IsNearest.unique {x : ℚ} {m k : ℕ} (hm : f.IsNearest x m) (hk : f.IsNearest x k) : m = k := by
  by_contra hne
  wlog hlt : m < k generalizing m k
  · exact this hk hm (Ne.symm hne) (by omega)
  have heq : |(f.steps m : ℚ) - x| = |(f.steps k : ℚ) - x| :=
    le_antisymm (hm.closest k hk.le) (hk.closest m hm.le)
  have hmeven := hm.even k hk.le (Ne.symm hne) heq
  have hkeven := hk.even m hm.le hne heq.symm
  have hbetween : m + 1 ≤ f.infinityBits := by have := hk.le; omega
  have hclose := hm.closest (m + 1) hbetween
  rw [f.steps_eq hm.le, f.steps_eq hk.le] at heq
  rw [f.steps_eq hm.le, f.steps_eq hbetween] at hclose
  have hleft : (f.stepsAt m : ℚ) < f.stepsAt (m + 1) := by exact_mod_cast f.stepsAt_lt_succ m
  have hright : (f.stepsAt (m + 1) : ℚ) < f.stepsAt k := by
    exact_mod_cast f.stepsAt_strictMono (by omega : m + 1 < k)
  rcases abs_cases ((f.stepsAt m : ℚ) - x) with ⟨h1, _⟩ | ⟨h1, _⟩ <;>
    rcases abs_cases ((f.stepsAt k : ℚ) - x) with ⟨h2, _⟩ | ⟨h2, _⟩ <;>
    rcases abs_cases ((f.stepsAt (m + 1) : ℚ) - x) with ⟨h3, _⟩ | ⟨h3, _⟩ <;>
    linarith

variable (f)

/-- The grid that a number is rounded on: it reaches past the number, and starts at or before it. -/
theorem shift_spec (n : ℕ) {d : ℕ} (hd : 0 < d) :
    let s := (n / d).log2 - f.fraction
    (n : ℚ) / d < 2 ^ (f.fraction + 1) * 2 ^ s ∧ (s = 0 ∨ 2 ^ f.fraction * 2 ^ s ≤ (n : ℚ) / d) := by
  intro s
  have hd' : (0 : ℚ) < d := by exact_mod_cast hd
  have hfloor : ((n / d : ℕ) : ℚ) ≤ n / d := Nat.cast_div_le
  have hceil : (n : ℚ) / d < (n / d : ℕ) + 1 := by
    rw [div_lt_iff₀ hd']
    have hsucc := Nat.lt_mul_div_succ n hd
    rw [mul_comm] at hsucc
    exact_mod_cast hsucc
  constructor
  · have hlog : n / d + 1 ≤ 2 ^ (f.fraction + 1 + s) :=
      Nat.lt_log2_self.trans_le (Nat.pow_le_pow_right (by norm_num) (by omega))
    have hcast : ((n / d : ℕ) : ℚ) + 1 ≤ 2 ^ (f.fraction + 1) * 2 ^ s := by
      rw [← pow_add]
      exact_mod_cast hlog
    linarith
  · rcases Nat.eq_zero_or_pos s with hs | hs
    · exact .inl hs
    · right
      have hne : n / d ≠ 0 := by
        intro hz
        simp [s, hz] at hs
      have hlog : 2 ^ (f.fraction + s) ≤ n / d := by
        rw [show f.fraction + s = (n / d).log2 by omega]
        exact Nat.log2_self_le hne
      have hcast : (2 : ℚ) ^ f.fraction * 2 ^ s ≤ (n / d : ℕ) := by
        rw [← pow_add]
        exact_mod_cast hlog
      linarith

theorem grid_parity (hf : 0 < f.fraction) (s j : ℕ) : (s * 2 ^ f.fraction + j) % 2 = j % 2 := by
  obtain ⟨n, hn⟩ := Nat.exists_eq_succ_of_ne_zero hf.ne'
  rw [hn, Nat.succ_eq_add_one, pow_succ, ← mul_assoc, Nat.mul_add_mod_self_right]

variable {f} {s : ℕ} {y : ℚ}

theorem grid_distance {j : ℕ} (hj : j ≤ 2 ^ (f.fraction + 1)) (hs : s = 0 ∨ 2 ^ f.fraction ≤ j) :
    |(f.stepsAt (s * 2 ^ f.fraction + j) : ℚ) - y * 2 ^ s| = |(j : ℚ) - y| * 2 ^ s := by
  have hpow : (0 : ℚ) < 2 ^ s := by positivity
  rw [f.stepsAt_grid hj hs, ← abs_of_pos hpow, ← abs_mul, abs_of_pos hpow]
  congr 1
  push_cast
  ring

/-- A pattern past a grid is further away than the grid's end, one before it further than its start. -/
theorem distance_past_grid {k : ℕ} (hy : y < (2 ^ (f.fraction + 1) : ℕ))
    (hk : s * 2 ^ f.fraction + 2 ^ (f.fraction + 1) < k) :
    |((2 ^ (f.fraction + 1) : ℕ) : ℚ) - y| * 2 ^ s < |(f.stepsAt k : ℚ) - y * 2 ^ s| := by
  have hend : s = 0 ∨ 2 ^ f.fraction ≤ 2 ^ (f.fraction + 1) := .inr (by gcongr <;> omega)
  have hmono : (f.stepsAt (s * 2 ^ f.fraction + 2 ^ (f.fraction + 1)) : ℚ) < f.stepsAt k := by
    exact_mod_cast f.stepsAt_strictMono hk
  have hgrid : y * 2 ^ s < f.stepsAt (s * 2 ^ f.fraction + 2 ^ (f.fraction + 1)) := by
    rw [f.stepsAt_grid le_rfl hend, Nat.cast_mul, Nat.cast_pow 2 s, Nat.cast_ofNat]
    gcongr
  rw [← grid_distance le_rfl hend, abs_of_pos (by linarith), abs_of_pos (by linarith)]
  linarith

theorem distance_before_grid {k : ℕ} (hy : ((2 ^ f.fraction : ℕ) : ℚ) ≤ y)
    (hk : k < s * 2 ^ f.fraction + 2 ^ f.fraction) :
    |((2 ^ f.fraction : ℕ) : ℚ) - y| * 2 ^ s < |(f.stepsAt k : ℚ) - y * 2 ^ s| := by
  have hstart : 2 ^ f.fraction ≤ 2 ^ (f.fraction + 1) := Nat.pow_le_pow_right (by norm_num) (by omega)
  have hmono : (f.stepsAt k : ℚ) < f.stepsAt (s * 2 ^ f.fraction + 2 ^ f.fraction) := by
    exact_mod_cast f.stepsAt_strictMono hk
  have hgrid : (f.stepsAt (s * 2 ^ f.fraction + 2 ^ f.fraction) : ℚ) ≤ y * 2 ^ s := by
    rw [f.stepsAt_grid hstart (.inr le_rfl), Nat.cast_mul, Nat.cast_pow 2 s, Nat.cast_ofNat]
    gcongr
  rw [← grid_distance hstart (.inr le_rfl), abs_of_nonpos (by linarith), abs_of_neg (by linarith)]
  linarith

/-- The rounded point of a grid is nearest of all patterns, on the grid and off it. -/
theorem grid_nearest (hf : 0 < f.fraction) {q : ℕ} (hbelow : y < (2 ^ (f.fraction + 1) : ℕ))
    (habove : s = 0 ∨ ((2 ^ f.fraction : ℕ) : ℚ) ≤ y) (herror : |(q : ℚ) - y| ≤ 1 / 2)
    (htie : |(q : ℚ) - y| = 1 / 2 → q % 2 = 0) (k : ℕ) :
    let m := s * 2 ^ f.fraction + q
    |(f.stepsAt m : ℚ) - y * 2 ^ s| ≤ |(f.stepsAt k : ℚ) - y * 2 ^ s| ∧
      (k ≠ m → |(f.stepsAt m : ℚ) - y * 2 ^ s| = |(f.stepsAt k : ℚ) - y * 2 ^ s| → m % 2 = 0) := by
  intro m
  have hpow : (0 : ℚ) < 2 ^ s := by positivity
  have hm : |(f.stepsAt m : ℚ) - y * 2 ^ s| = |(q : ℚ) - y| * 2 ^ s :=
    grid_distance (le_of_error herror hbelow) (habove.imp_right (ge_of_error herror))
  rw [hm]
  -- what is further away than some integer's point is further away than the nearest one's
  have hfurther {j : ℕ} (h : |(j : ℚ) - y| * 2 ^ s < |(f.stepsAt k : ℚ) - y * 2 ^ s|) :
      |(q : ℚ) - y| * 2 ^ s < |(f.stepsAt k : ℚ) - y * 2 ^ s| :=
    (mul_le_mul_of_nonneg_right (nearest_of_error herror j).1 hpow.le).trans_lt h
  rcases lt_or_ge (s * 2 ^ f.fraction + 2 ^ (f.fraction + 1)) k with hhigh | hhigh
  · have hlt := hfurther (distance_past_grid hbelow hhigh)
    exact ⟨hlt.le, fun _ heq => absurd heq hlt.ne⟩
  by_cases hlow : s = 0 ∨ s * 2 ^ f.fraction + 2 ^ f.fraction ≤ k
  · obtain ⟨j, rfl⟩ : ∃ j, k = s * 2 ^ f.fraction + j := by
      refine ⟨k - s * 2 ^ f.fraction, ?_⟩
      rcases hlow with h | h
      · simp [h]
      · omega
    obtain ⟨hclosest, hhalf⟩ := nearest_of_error herror j
    rw [grid_distance (by omega) (by omega), f.grid_parity hf]
    refine ⟨mul_le_mul_of_nonneg_right hclosest hpow.le, fun hne heq => htie ?_⟩
    exact hhalf (by rintro rfl; exact hne rfl) (mul_right_cancel₀ hpow.ne' heq)
  · rw [not_or, not_le] at hlow
    have hlt := hfurther (distance_before_grid (habove.resolve_left hlow.1) hlow.2)
    exact ⟨hlt.le, fun _ heq => absurd heq hlt.ne⟩

variable (f)

/-- Before infinity is looked at, rounding is to the nearest of all magnitudes. -/
theorem stepsAt_nearest (hf : 0 < f.fraction) (n : ℕ) {d : ℕ} (hd : 0 < d) :
    let s := (n / d).log2 - f.fraction
    let m := s * 2 ^ f.fraction + roundQuotient n (d * 2 ^ s)
    ∀ k, |(f.stepsAt m : ℚ) - n / d| ≤ |(f.stepsAt k : ℚ) - n / d| ∧
      (k ≠ m → |(f.stepsAt m : ℚ) - n / d| = |(f.stepsAt k : ℚ) - n / d| → m % 2 = 0) := by
  intro s m
  obtain ⟨hbelow, habove⟩ := f.shift_spec n hd
  obtain ⟨herror, htie⟩ := roundQuotient_error (n := n) (by positivity : 0 < d * 2 ^ s)
  have hpow : (0 : ℚ) < 2 ^ s := by positivity
  have hx : (n : ℚ) / d = n / (d * 2 ^ s : ℕ) * 2 ^ s := by
    push_cast
    field_simp
  rw [hx] at hbelow habove ⊢
  refine grid_nearest hf ?_ (habove.imp_right fun h => ?_) herror htie
  · push_cast at hbelow ⊢
    exact lt_of_mul_lt_mul_right hbelow hpow.le
  · push_cast at h ⊢
    exact le_of_mul_le_mul_right h hpow

theorem isNearest_nearest (hf : 0 < f.fraction) (n : ℕ) {d : ℕ} (hd : 0 < d) :
    f.IsNearest (n / d) (f.nearest n d) := by
  have hall := f.stepsAt_nearest hf n hd
  unfold nearest
  dsimp only at hall ⊢
  set m := ((n / d).log2 - f.fraction) * 2 ^ f.fraction +
    roundQuotient n (d * 2 ^ ((n / d).log2 - f.fraction))
  rcases le_or_gt m f.infinityBits with hm | hm
  · rw [min_eq_left hm]
    refine ⟨hm, fun k hk => ?_, fun k hk hne heq => ?_⟩
    · rw [f.steps_eq hm, f.steps_eq hk]
      exact (hall k).1
    · rw [f.steps_eq hm, f.steps_eq hk] at heq
      exact (hall k).2 hne heq
  · -- the number lies past infinity's, so infinity's is the nearest of all that come before
    rw [min_eq_right hm.le]
    have hmono : (f.stepsAt f.infinityBits : ℚ) < f.stepsAt m := by
      exact_mod_cast f.stepsAt_strictMono hm
    have hpast : (f.stepsAt f.infinityBits : ℚ) < n / d := by
      by_contra hle
      have hclosest := (hall f.infinityBits).1
      rw [abs_of_nonneg (by linarith), abs_of_nonneg (by linarith)] at hclosest
      linarith
    have hdistance {k : ℕ} (hk : k ≤ f.infinityBits) :
        |(f.steps k : ℚ) - n / d| = n / d - f.stepsAt k := by
      have hle : (f.stepsAt k : ℚ) ≤ f.stepsAt f.infinityBits := by
        exact_mod_cast f.stepsAt_strictMono.monotone hk
      rw [f.steps_eq hk, abs_of_nonpos (by linarith)]
      ring
    refine ⟨le_rfl, fun k hk => ?_, fun k hk hne heq => ?_⟩
    · have hle : (f.stepsAt k : ℚ) ≤ f.stepsAt f.infinityBits := by
        exact_mod_cast f.stepsAt_strictMono.monotone hk
      rw [hdistance le_rfl, hdistance hk]
      linarith
    · have hlt : (f.stepsAt k : ℚ) < f.stepsAt f.infinityBits := by
        exact_mod_cast f.stepsAt_strictMono (by omega : k < f.infinityBits)
      rw [hdistance le_rfl, hdistance hk] at heq
      linarith

/-- A rational is rounded from its numerator and denominator. -/
theorem isNearest_nearest_rat (hf : 0 < f.fraction) {x : ℚ} (hx : 0 ≤ x) :
    f.IsNearest (x * 2 ^ f.unit) (f.nearest (x.num.toNat * 2 ^ f.unit) x.den) := by
  have hnum : ((x.num.toNat : ℕ) : ℚ) = x.num := by
    exact_mod_cast Int.toNat_of_nonneg (Rat.num_nonneg.mpr hx)
  have hquot : ((x.num.toNat * 2 ^ f.unit : ℕ) : ℚ) / x.den = x * 2 ^ f.unit := by
    push_cast
    rw [hnum, mul_div_right_comm, Rat.num_div_den]
  rw [← hquot]
  exact f.isNearest_nearest hf (x.num.toNat * 2 ^ f.unit) x.den_pos

/-- Between the midpoints to its neighbours a pattern is nearest; at a midpoint, if it is even. -/
theorem isNearest_of_between {x : ℚ} {m : ℕ} (hm0 : 0 < m) (hm : m < f.infinityBits)
    (hlow : ((f.stepsAt (m - 1) : ℚ) + f.stepsAt m) / 2 ≤ x)
    (hhigh : x ≤ ((f.stepsAt m : ℚ) + f.stepsAt (m + 1)) / 2)
    (heven : ((f.stepsAt (m - 1) : ℚ) + f.stepsAt m) / 2 = x ∨
      x = ((f.stepsAt m : ℚ) + f.stepsAt (m + 1)) / 2 → m % 2 = 0) :
    f.IsNearest x m := by
  have hstep (k : ℕ) (hk : k ≤ f.infinityBits) (hne : k ≠ m) :
      |(f.stepsAt m : ℚ) - x| ≤ |(f.stepsAt k : ℚ) - x| ∧
        (|(f.stepsAt m : ℚ) - x| = |(f.stepsAt k : ℚ) - x| → m % 2 = 0) := by
    rcases Nat.lt_or_gt_of_ne hne with hlt | hgt
    · have hle : (f.stepsAt k : ℚ) ≤ f.stepsAt (m - 1) := by
        exact_mod_cast f.stepsAt_strictMono.monotone (by omega : k ≤ m - 1)
      have hlt' : (f.stepsAt (m - 1) : ℚ) < f.stepsAt m := by
        exact_mod_cast f.stepsAt_strictMono (by omega : m - 1 < m)
      rw [abs_of_nonpos (by linarith : (f.stepsAt k : ℚ) - x ≤ 0)]
      rcases abs_cases ((f.stepsAt m : ℚ) - x) with ⟨h, _⟩ | ⟨h, _⟩ <;> rw [h]
      · exact ⟨by linarith, fun heq => heven (.inl (by linarith))⟩
      · exact ⟨by linarith, fun heq => heven (.inl (by linarith))⟩
    · have hge : (f.stepsAt (m + 1) : ℚ) ≤ f.stepsAt k := by
        exact_mod_cast f.stepsAt_strictMono.monotone (by omega : m + 1 ≤ k)
      have hgt' : (f.stepsAt m : ℚ) < f.stepsAt (m + 1) := by
        exact_mod_cast f.stepsAt_lt_succ m
      rw [abs_of_nonneg (by linarith : 0 ≤ (f.stepsAt k : ℚ) - x)]
      rcases abs_cases ((f.stepsAt m : ℚ) - x) with ⟨h, _⟩ | ⟨h, _⟩ <;> rw [h]
      · exact ⟨by linarith, fun heq => heven (.inr (by linarith))⟩
      · exact ⟨by linarith, fun heq => heven (.inr (by linarith))⟩
  refine ⟨hm.le, fun k hk => ?_, fun k hk hne heq => ?_⟩
  · by_cases hne : k = m
    · rw [hne]
    · rw [f.steps_eq hm.le, f.steps_eq hk]
      exact (hstep k hk hne).1
  · rw [f.steps_eq hm.le, f.steps_eq hk] at heq
    exact (hstep k hk hne).2 heq

end Format

end ManagedTypes.Ieee
