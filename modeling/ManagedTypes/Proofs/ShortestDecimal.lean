import ManagedTypes.Decimal.Shortest
import ManagedTypes.Proofs.DecimalText
import ManagedTypes.Proofs.NearestPattern

/-! The shortest decimal of a finite pattern rounds back to it. The search stays inside the interval of
numbers that do, and seventeen digits for a double or nine for a single always reach into it. -/
namespace ManagedTypes

namespace Numeral

theorem lt_pow_length (n : ℕ) : n < 10 ^ (digits 10 n).length := by
  have h := value_lt (digits_lt (n := n) (by norm_num : 2 ≤ 10))
  rwa [value_digits] at h

theorem pow_length_le {n : ℕ} (h : 0 < n) : 10 ^ ((digits 10 n).length - 1) ≤ n := by
  induction n using Nat.strong_induction_on with
  | _ n ih =>
    rcases Nat.lt_or_ge n 10 with hlt | hge
    · rw [digits_of_lt hlt]
      exact h
    · have hrest := ih (n / 10) (by omega) (by omega)
      have hlength : 0 < (digits 10 (n / 10)).length := List.length_pos_iff.mpr (digits_ne_nil _ _)
      rw [digits_of_le (by norm_num) hge, List.length_append, List.length_singleton,
        Nat.add_sub_cancel]
      calc 10 ^ (digits 10 (n / 10)).length
          = 10 ^ ((digits 10 (n / 10)).length - 1) * 10 := by
            rw [← pow_succ, Nat.sub_add_cancel hlength]
        _ ≤ n / 10 * 10 := Nat.mul_le_mul_right 10 hrest
        _ ≤ n := Nat.div_mul_le_self n 10

end Numeral

namespace Decimal
open Numeral Ieee

namespace Neighbourhood
variable (r : Neighbourhood)

/-- The distance of two grid points, in units of `1 / denominator`. -/
def spacing (t : ℤ) : ℚ := 10 ^ t * r.denominator

theorem gridUnit_eq (t : ℤ) : (r.gridUnit t : ℚ) = r.spacing t * gridScale t := by
  unfold gridUnit spacing gridScale
  rcases le_total 0 t with ht | ht
  · obtain ⟨n, rfl⟩ := Int.eq_ofNat_of_zero_le ht
    simp
  · obtain ⟨n, hn⟩ := Int.eq_ofNat_of_zero_le (neg_nonneg.mpr ht)
    obtain rfl : t = -(n : ℤ) := by omega
    simp only [Int.toNat_neg_natCast, neg_neg, Int.toNat_natCast, pow_zero, one_mul, zpow_neg,
      zpow_natCast, Nat.cast_pow, Nat.cast_ofNat]
    field_simp

theorem gridScale_pos (t : ℤ) : (0 : ℚ) < gridScale t := by
  unfold gridScale
  positivity

theorem contains_iff (t : ℤ) (c : ℕ) :
    r.contains t c = true ↔
      if r.closed then (r.low : ℚ) ≤ c * r.spacing t ∧ c * r.spacing t ≤ r.high
      else (r.low : ℚ) < c * r.spacing t ∧ c * r.spacing t < r.high := by
  have hscale := gridScale_pos t
  have hle (a : ℕ) : a * gridScale t ≤ c * r.gridUnit t ↔ (a : ℚ) ≤ c * r.spacing t := by
    rw [← mul_le_mul_iff_left₀ hscale, mul_assoc, ← gridUnit_eq]
    exact_mod_cast Iff.rfl
  have hge (a : ℕ) : c * r.gridUnit t ≤ a * gridScale t ↔ c * r.spacing t ≤ (a : ℚ) := by
    rw [← mul_le_mul_iff_left₀ hscale, mul_assoc, ← gridUnit_eq]
    exact_mod_cast Iff.rfl
  unfold contains
  dsimp only
  split
  · rw [decide_eq_true_eq, hle, hge]
  · rw [decide_eq_true_eq, ← not_le, ← not_le, ← not_le, ← not_le, hle, hge]

theorem nearest_error (hden : 0 < r.denominator) (t : ℤ) :
    |(r.nearest t : ℚ) * r.spacing t - r.centre| ≤ r.spacing t / 2 := by
  have hscale := gridScale_pos t
  have hunit : 0 < r.gridUnit t := by unfold gridUnit; positivity
  have hsplit := Nat.div_add_mod (r.centre * gridScale t) (r.gridUnit t)
  have hrest := Nat.mod_lt (r.centre * gridScale t) hunit
  -- twice the error, before both sides are divided by the scale
  have herror : |(r.nearest t : ℤ) * r.gridUnit t - r.centre * gridScale t| * 2 ≤ r.gridUnit t := by
    unfold nearest floor
    dsimp only
    generalize r.centre * gridScale t % r.gridUnit t = rest at hsplit hrest ⊢
    generalize r.centre * gridScale t / r.gridUnit t = q at hsplit ⊢
    have hcast : (r.centre : ℤ) * gridScale t = r.gridUnit t * q + rest := by exact_mod_cast hsplit.symm
    rw [hcast]
    split
    · rw [show (q : ℤ) * r.gridUnit t - (r.gridUnit t * q + rest) = -rest by ring, abs_neg,
        abs_of_nonneg (by positivity)]
      omega
    · rw [Nat.cast_succ,
        show ((q : ℤ) + 1) * r.gridUnit t - (r.gridUnit t * q + rest) = r.gridUnit t - rest by ring,
        abs_of_nonneg (by omega)]
      omega
  have hrat : |(r.nearest t : ℚ) * r.gridUnit t - r.centre * gridScale t| * 2 ≤ r.gridUnit t := by
    exact_mod_cast herror
  rw [gridUnit_eq, ← mul_assoc, ← sub_mul, abs_mul, abs_of_pos hscale] at hrat
  have hcancel : |(r.nearest t : ℚ) * r.spacing t - r.centre| * 2 ≤ r.spacing t :=
    le_of_mul_le_mul_right (by linarith) hscale
  linarith

/-- The coarsest grid of the search is not coarser than the centre. -/
theorem spacing_exponent_le (hden : 0 < r.denominator) (hcentre : 0 < r.centre) :
    r.spacing r.exponent ≤ r.centre := by
  unfold spacing exponent
  split
  next hle =>
    have hquot : 0 < r.centre / r.denominator := Nat.div_pos hle hden
    have hlength : 0 < (Numeral.digits 10 (r.centre / r.denominator)).length :=
      List.length_pos_iff.mpr (digits_ne_nil _ _)
    have hpow := Nat.mul_le_of_le_div _ _ _ (pow_length_le hquot)
    rw [length10, if_neg hquot.ne', ← Int.natCast_one, ← Int.natCast_sub hlength, zpow_natCast]
    exact_mod_cast hpow
  next hlt =>
    rw [zpow_neg, zpow_natCast, inv_mul_le_iff₀ (by positivity)]
    have hceil : r.denominator ≤
        ((r.denominator + r.centre - 1) / r.centre - 1 + 1) * r.centre := by
      have hsplit := Nat.div_add_mod (r.denominator + r.centre - 1) r.centre
      have hrest := Nat.mod_lt (r.denominator + r.centre - 1) hcentre
      have hquot : 0 < (r.denominator + r.centre - 1) / r.centre :=
        Nat.div_pos (by omega) hcentre
      rw [Nat.sub_add_cancel hquot, mul_comm]
      omega
    have hpow : (r.denominator + r.centre - 1) / r.centre - 1 + 1 ≤
        10 ^ length10 ((r.denominator + r.centre - 1) / r.centre - 1) := by
      unfold length10
      split
      next hz => simp [hz]
      · exact lt_pow_length _
    exact_mod_cast hceil.trans (Nat.mul_le_mul_right r.centre hpow)

theorem hit?_contains {t : ℤ} {c : ℕ} (h : r.hit? t = some c) : r.contains t c = true := by
  unfold hit? at h
  dsimp only at h
  generalize (if r.nearest t = r.floor t then r.nearest t + 1 else r.floor t) = other at h
  split at h
  next hc => exact Option.some.inj h ▸ hc
  next =>
    split at h
    next hc => exact Option.some.inj h ▸ hc
    next => simp at h

/-- The search finds a point that reads back once the nearest point of its finest grid does. -/
theorem search_contains (n : ℕ) (t : ℤ) (h : r.contains (t - n) (r.nearest (t - n)) = true) :
    r.contains (r.search t n).2 (r.search t n).1 = true := by
  induction n generalizing t with
  | zero => simpa [search] using h
  | succ n ih =>
    unfold search
    cases hhit : r.hit? t with
    | some c => exact r.hit?_contains hhit
    | none =>
      apply ih
      rwa [show t - 1 - (n : ℤ) = t - (n + 1 : ℕ) by push_cast; ring]

/-- On a grid finer than both halves of the interval the nearest point is inside. -/
theorem contains_nearest (hden : 0 < r.denominator) {t : ℤ}
    (hlow : r.spacing t < 2 * ((r.centre : ℚ) - r.low))
    (hhigh : r.spacing t < 2 * ((r.high : ℚ) - r.centre)) :
    r.contains t (r.nearest t) = true := by
  obtain ⟨hbelow, habove⟩ := abs_le.mp (r.nearest_error hden t)
  rw [contains_iff]
  split
  · constructor <;> linarith
  · constructor <;> linarith

/-- With enough digits the search succeeds. -/
theorem search_contains_of_fine (hden : 0 < r.denominator) (hcentre : 0 < r.centre) {n : ℕ}
    (hlow : (r.centre : ℚ) < 2 * ((r.centre : ℚ) - r.low) * 10 ^ n)
    (hhigh : (r.centre : ℚ) < 2 * ((r.high : ℚ) - r.centre) * 10 ^ n) :
    r.contains (r.search r.exponent n).2 (r.search r.exponent n).1 = true := by
  have hcoarse := r.spacing_exponent_le hden hcentre
  have hfine : r.spacing (r.exponent - n) * 10 ^ n = r.spacing r.exponent := by
    unfold spacing
    rw [mul_right_comm, ← zpow_natCast, ← zpow_add₀ (by norm_num), sub_add_cancel]
  apply r.search_contains
  apply r.contains_nearest hden
  · exact lt_of_mul_lt_mul_right (hfine ▸ hcoarse.trans_lt hlow) (by positivity)
  · exact lt_of_mul_lt_mul_right (hfine ▸ hcoarse.trans_lt hhigh) (by positivity)

/-- The interval of a pattern ends at the midpoints to its neighbours. -/
theorem ofBits_eq (f : Format) (hf : 0 < f.fraction) {bits : ℕ} (hpos : 0 < f.magnitudeBits bits) :
    let m := f.magnitudeBits bits
    ofBits f bits =
      ⟨2 * (f.stepsAt (m - 1) + f.stepsAt m), 4 * f.stepsAt m,
        2 * (f.stepsAt m + f.stepsAt (m + 1)), 2 ^ (f.unit + 2), m % 2 == 0⟩ := by
  intro m
  have hparity : bits % 2 = m % 2 := by
    show bits % 2 = bits % f.signBit % 2
    rw [Nat.mod_mod_of_dvd]
    exact dvd_pow_self 2 (by omega)
  unfold ofBits
  rw [f.exponentField_eq, f.fractionField_eq, f.steps_magnitudeBits, hparity]
  dsimp only
  rw [mk.injEq]
  change 0 < m at hpos
  obtain ⟨s, j, hm, hj, hs⟩ := f.exists_grid m
  have hlow := f.stepsAt_pred (hm ▸ hpos) hj hs
  rw [show f.magnitudeBits bits = m from rfl, hm, f.grid_div hj hs, f.stepsAt_grid hj.le hs,
    add_assoc, f.stepsAt_grid (by omega) (by omega)]
  simp only [f.grid_power hj hs]
  refine ⟨?_, trivial, by ring, trivial, trivial⟩
  generalize f.stepsAt (s * 2 ^ f.fraction + j - 1) = below at hlow
  rw [← hlow]
  split
  next hpower =>
    obtain ⟨t, rfl⟩ := Nat.exists_eq_succ_of_ne_zero hpower.1
    rw [Nat.succ_eq_add_one, Nat.add_sub_cancel, pow_succ]
    omega
  · omega

end Neighbourhood

/-- A format whose patterns differ within the digits that the search goes through, and whose decimal
exponents fit 32 bits. -/
structure Resolved (f : Format) : Prop where
  fraction_pos : 0 < f.fraction
  fine : 2 ^ (f.fraction + 1) < 10 ^ (enoughDigits f - 1)
  small : f.fraction + 2 ^ f.exponent < 2 ^ 31

theorem resolved_single : Resolved single := ⟨by decide, by decide, by decide⟩

theorem resolved_double : Resolved double := ⟨by decide, by decide, by decide⟩

variable {f : Format}

theorem shortest_contains (h : Resolved f) {bits : ℕ} (hpos : 0 < f.magnitudeBits bits) :
    ∃ c t, shortest f bits = scaled false c t ∧
      (Neighbourhood.ofBits f bits).contains t c = true := by
  set m := f.magnitudeBits bits with hm
  set r := Neighbourhood.ofBits f bits with hr
  have heq := Neighbourhood.ofBits_eq f h.fraction_pos (hm ▸ hpos)
  dsimp only at heq
  rw [← hm, ← hr] at heq
  have hbelow := f.stepsAt_gap_below hpos
  have habove := f.stepsAt_gap_above m
  have hsteps : 0 < f.stepsAt m := (Nat.zero_le _).trans_lt (f.stepsAt_strictMono hpos)
  -- either neighbour is further away than the finest grid's points from each other
  have hgap {a b : ℕ} (hab : f.stepsAt m + 2 ^ (f.fraction + 1) * a ≤ 2 ^ (f.fraction + 1) * b) :
      (f.stepsAt m : ℚ) < ((b : ℚ) - a) * 10 ^ (enoughDigits f - 1) := by
    have hlt : a < b := Nat.lt_of_mul_lt_mul_left (a := 2 ^ (f.fraction + 1)) (by omega)
    have hcast : (f.stepsAt m : ℚ) + 2 ^ (f.fraction + 1) * a ≤ 2 ^ (f.fraction + 1) * b := by
      exact_mod_cast hab
    have hfine : (2 : ℚ) ^ (f.fraction + 1) < 10 ^ (enoughDigits f - 1) := by exact_mod_cast h.fine
    have hdiff : (0 : ℚ) < (b : ℚ) - a := sub_pos.mpr (by exact_mod_cast hlt)
    calc (f.stepsAt m : ℚ) ≤ ((b : ℚ) - a) * 2 ^ (f.fraction + 1) := by linarith
      _ < ((b : ℚ) - a) * 10 ^ (enoughDigits f - 1) := by gcongr
  have hzero : f.isZero bits = false := by simpa [Format.isZero, ← hm] using hpos.ne'
  refine ⟨_, _, by simp only [shortest, hzero, Bool.false_eq_true, if_false]; rfl, ?_⟩
  apply Neighbourhood.search_contains_of_fine
  · rw [heq]; positivity
  · rw [heq]; positivity
  · rw [heq]
    have hlow := hgap hbelow
    push_cast
    linarith
  · rw [heq]
    have hhigh := hgap habove
    push_cast
    linarith

theorem normal_shortest (f : Format) (bits : ℕ) : (shortest f bits).Normal := by
  unfold shortest
  split
  · exact normal_zero false
  · exact normal_scaled _ _ _

/-- The shortest decimal lies between the midpoints to the pattern's neighbours. -/
theorem shortest_between (h : Resolved f) {bits : ℕ} (hpos : 0 < f.magnitudeBits bits) :
    let m := f.magnitudeBits bits
    let x := (shortest f bits).magnitude * 2 ^ f.unit
    ((f.stepsAt (m - 1) : ℚ) + f.stepsAt m) / 2 ≤ x ∧
      x ≤ ((f.stepsAt m : ℚ) + f.stepsAt (m + 1)) / 2 ∧
      (((f.stepsAt (m - 1) : ℚ) + f.stepsAt m) / 2 = x ∨
        x = ((f.stepsAt m : ℚ) + f.stepsAt (m + 1)) / 2 → m % 2 = 0) := by
  intro m x
  obtain ⟨c, t, hshort, hcontains⟩ := shortest_contains h hpos
  have heq := Neighbourhood.ofBits_eq f h.fraction_pos hpos
  have hx : x * 4 = c * Neighbourhood.spacing (Neighbourhood.ofBits f bits) t := by
    simp only [x, hshort, magnitude_scaled, Neighbourhood.spacing, heq]
    push_cast
    ring
  rw [Neighbourhood.contains_iff, ← hx, heq] at hcontains
  dsimp only at hcontains
  push_cast at hcontains
  split at hcontains
  next heven =>
    exact ⟨by linarith, by linarith, fun _ => by simpa using heven⟩
  next hodd =>
    exact ⟨by linarith, by linarith, by rintro (h | h) <;> linarith⟩

/-- A finite pattern is the one nearest to its shortest decimal. -/
theorem isNearest_shortest (h : Resolved f) {bits : ℕ} (hfinite : f.isFinite bits = true) :
    f.IsNearest ((shortest f bits).magnitude * 2 ^ f.unit) (f.magnitudeBits bits) := by
  have hlt : f.magnitudeBits bits < f.infinityBits := by simpa [Format.isFinite] using hfinite
  rcases Nat.eq_zero_or_pos (f.magnitudeBits bits) with hz | hpos
  · have hmagnitude : (shortest f bits).magnitude = 0 := by
      simp [shortest, Format.isZero, hz, magnitude, value]
    have hsteps : f.steps 0 = 0 := by simp [Format.steps, Format.exponentField, Format.fractionField]
    rw [hmagnitude, hz, zero_mul]
    exact ⟨Nat.zero_le _, fun k _ => by simp [hsteps], fun _ _ _ _ => rfl⟩
  · obtain ⟨hlow, hhigh, heven⟩ := shortest_between h hpos
    exact f.isNearest_of_between hpos hlt hlow hhigh heven

/-- Half a least step is not below the shortest decimal of a pattern that is not zero. -/
theorem one_le_shortest (h : Resolved f) {bits : ℕ} (hpos : 0 < f.magnitudeBits bits) :
    1 ≤ (shortest f bits).magnitude * 2 ^ (f.unit + 1) := by
  have hstep : 0 < f.stepsAt (f.magnitudeBits bits) :=
    (Nat.zero_le _).trans_lt (f.stepsAt_strictMono hpos)
  have hsteps : (1 : ℚ) ≤ f.stepsAt (f.magnitudeBits bits) := by exact_mod_cast hstep
  have hprev : (0 : ℚ) ≤ f.stepsAt (f.magnitudeBits bits - 1) := by positivity
  have hlow := (shortest_between h hpos).1
  rw [pow_succ]
  linarith

/-- The number that would come after all finite ones is not below it. -/
theorem shortest_mul_le (h : Resolved f) {bits : ℕ} (hpos : 0 < f.magnitudeBits bits)
    (hlt : f.magnitudeBits bits < f.infinityBits) :
    (shortest f bits).magnitude * 2 ^ f.unit ≤ 2 ^ (f.fraction + 2 ^ f.exponent) := by
  set m := f.magnitudeBits bits
  have hone : 1 ≤ 2 ^ f.exponent := Nat.one_le_two_pow
  have hinfinity : f.stepsAt (m + 1) ≤ 2 ^ (f.fraction + 2 ^ f.exponent) := by
    refine (f.stepsAt_strictMono.monotone (by omega : m + 1 ≤ f.infinityBits)).trans ?_
    have hle := f.stepsAt_le f.infinityBits
    rwa [Format.infinityBits, Nat.mul_div_cancel _ (by positivity),
      show f.fraction + 1 + (2 ^ f.exponent - 1) = f.fraction + 2 ^ f.exponent by omega] at hle
  have hcast : (f.stepsAt (m + 1) : ℚ) ≤ 2 ^ (f.fraction + 2 ^ f.exponent) := by
    exact_mod_cast hinfinity
  have hless : (f.stepsAt m : ℚ) < f.stepsAt (m + 1) := by exact_mod_cast f.stepsAt_lt_succ m
  have hhigh := (shortest_between h hpos).2.1
  linarith

theorem shortest_le (h : Resolved f) {bits : ℕ} (hpos : 0 < f.magnitudeBits bits)
    (hlt : f.magnitudeBits bits < f.infinityBits) :
    (shortest f bits).magnitude ≤ 2 ^ (f.fraction + 2 ^ f.exponent) :=
  (le_mul_of_one_le_right (magnitude_nonneg _) (one_le_pow₀ (by norm_num))).trans
    (shortest_mul_le h hpos hlt)

theorem unit_le (f : Format) : f.unit + 1 ≤ f.fraction + 2 ^ f.exponent := by
  have hhalf : 2 ^ (f.exponent - 1) ≤ 2 ^ f.exponent :=
    Nat.pow_le_pow_right (by norm_num) (Nat.sub_le _ _)
  have hone : 1 ≤ 2 ^ f.exponent := Nat.one_le_two_pow
  unfold Format.unit
  omega

theorem magnitudeBits_pos {bits : ℕ} (hne : (shortest f bits).digits ≠ []) :
    0 < f.magnitudeBits bits := by
  by_contra hz
  exact hne (by simp [shortest, Format.isZero, Nat.eq_zero_of_not_pos hz])

theorem scale_shortest (h : Resolved f) {bits : ℕ} (hfinite : f.isFinite bits = true) :
    -2 ^ 31 < (shortest f bits).scale ∧ (shortest f bits).scale ≤ 2 ^ 31 := by
  have hlt : f.magnitudeBits bits < f.infinityBits := by simpa [Format.isFinite] using hfinite
  have hnormal := normal_shortest f bits
  have hsmall := h.small
  have hunit := unit_le f
  rcases eq_or_ne (shortest f bits).digits [] with hnil | hne
  · rw [hnormal.scale_eq hnil]
    norm_num
  have hpos := magnitudeBits_pos hne
  have hpow (n : ℕ) : (2 : ℚ) ^ n ≤ 10 ^ n := by gcongr; norm_num
  constructor
  · have hlow : 1 ≤ (shortest f bits).magnitude * 10 ^ (f.unit + 1) :=
      (one_le_shortest h hpos).trans (mul_le_mul_of_nonneg_left (hpow _) (magnitude_nonneg _))
    have hscale := neg_lt_scale hnormal.digits_lt hlow
    omega
  · have hscale := hnormal.scale_le hne ((shortest_le h hpos hlt).trans (hpow _))
    push_cast at hscale
    have hcast : (f.fraction : ℤ) + 2 ^ f.exponent < 2 ^ 31 := by exact_mod_cast hsmall
    linarith

/-- Writing a finite pattern as exponent text and reading it back changes nothing. -/
theorem ofFinite_eq (h : Resolved f) {bits : ℕ} (hfinite : f.isFinite bits = true) :
    ofFinite f bits = { shortest f bits with negative := f.isNegative bits } :=
  have hscale := scale_shortest h hfinite
  ofExponentChars_exponentChars (normal_shortest f bits) hscale.1 hscale.2 _

theorem normal_ofFinite (h : Resolved f) {bits : ℕ} (hfinite : f.isFinite bits = true) :
    (ofFinite f bits).Normal := by
  have hnormal := normal_shortest f bits
  rw [ofFinite_eq h hfinite]
  exact ⟨hnormal.1, hnormal.2, hnormal.3, hnormal.4⟩

theorem magnitude_ofFinite (h : Resolved f) {bits : ℕ} (hfinite : f.isFinite bits = true) :
    (ofFinite f bits).magnitude = (shortest f bits).magnitude := by
  rw [ofFinite_eq h hfinite]
  rfl

end Decimal

end ManagedTypes
