import ManagedTypes.Proofs.FixedText
import ManagedTypes.Proofs.IntegerConversion
import ManagedTypes.Proofs.SignificantDigits

/-! How many digits the decimal of a payload has and how far its point lies, before and after a percent
or a rounding. -/
namespace ManagedTypes
open Numeral

namespace Decimal

theorem length_normalize_le_self (d : Decimal) : d.normalize.digits.length ≤ d.digits.length := by
  obtain ⟨m, n, hdigits, -⟩ := normalize_split d
  have hlength := congrArg List.length hdigits
  simp only [List.length_append, List.length_replicate] at hlength
  omega

/-! ## Rounding -/

section Rounding
variable {d : Decimal} (h : d.Normal) (keep : ℤ)
include h

/-- What rounding leaves of a number stays in its decade, or is the power of ten that comes next. -/
theorem magnitude_roundTo_bounds {k : ℕ} (hne : (d.roundTo k).digits ≠ []) :
    10 ^ (d.scale - 1) ≤ (d.roundTo k).magnitude ∧ (d.roundTo k).magnitude ≤ 10 ^ d.scale := by
  have hd : d.digits ≠ [] := by
    intro hnil
    rw [roundTo_of_length_le (by simp [hnil])] at hne
    exact hne hnil
  have hpos : 0 < (d.roundTo k).magnitude :=
    (by positivity : (0 : ℚ) < _).trans_le ((normal_roundTo h k).le_magnitude hne)
  have hround := Decimal.magnitude_roundTo h.digits_lt k
  rcases Nat.eq_zero_or_pos k with rfl | hk
  · -- without a digit kept, what is left is one unit
    have hpart : d.magnitude * 10 ^ ((0 : ℕ) - d.scale) < 1 := by
      calc d.magnitude * 10 ^ ((0 : ℕ) - d.scale) < 10 ^ d.scale * 10 ^ ((0 : ℕ) - d.scale) :=
            mul_lt_mul_of_pos_right (magnitude_lt h.digits_lt) (by positivity)
        _ = 1 := by rw [ten_zpow_mul (c := 0) (by push_cast; ring), zpow_zero]
    have hhalf := roundHalf_add (n := 0)
      (mul_nonneg (magnitude_nonneg d) (by positivity : (0 : ℚ) ≤ 10 ^ ((0 : ℕ) - d.scale))) hpart
    rw [Nat.cast_zero, zero_add] at hhalf
    have hunit : (d.roundTo (0 : ℕ)).magnitude = 10 ^ d.scale := by
      split at hhalf
      · rw [hround, hhalf, Nat.cast_zero, zero_mul] at hpos
        exact absurd hpos (lt_irrefl _)
      · rw [hround, hhalf, zero_add, Nat.cast_one, one_mul, Nat.cast_zero, sub_zero]
    rw [hunit]
    exact ⟨zpow_le_zpow_right₀ (by norm_num) (by omega), le_rfl⟩
  · have hlog := h.log_magnitude hd
    have hmagnitude : 0 < d.magnitude := (by positivity : (0 : ℚ) < _).trans_le (h.le_magnitude hd)
    obtain ⟨hlow, hhigh⟩ := roundHalf_bounds hmagnitude hk
    rw [hlog, sub_sub_sub_cancel_right] at hlow hhigh
    rw [hround]
    constructor
    · calc (10 : ℚ) ^ (d.scale - 1) = 10 ^ (k - 1) * 10 ^ (d.scale - k) :=
            (ten_pow_mul (by omega)).symm
        _ ≤ _ := mul_le_mul_of_nonneg_right (by exact_mod_cast hlow) (by positivity)
    · calc _ ≤ (10 : ℚ) ^ k * 10 ^ (d.scale - k) :=
            mul_le_mul_of_nonneg_right (by exact_mod_cast hhigh) (by positivity)
        _ = 10 ^ d.scale := ten_pow_mul (by ring)

omit h in
theorem keep_nonneg {keep : ℤ} (hne : (d.roundTo keep).digits ≠ []) : 0 ≤ keep := by
  by_contra hneg
  exact hne (by rw [roundTo_of_neg (not_le.mp hneg)])

/-- Rounding moves the point by one place at most, if it leaves any digits. -/
theorem scale_roundTo (hne : (d.roundTo keep).digits ≠ []) :
    d.scale ≤ (d.roundTo keep).scale ∧ (d.roundTo keep).scale ≤ d.scale + 1 := by
  obtain ⟨k, rfl⟩ := Int.eq_ofNat_of_zero_le (keep_nonneg hne)
  have hr := normal_roundTo h k
  obtain ⟨hlow, hhigh⟩ := magnitude_roundTo_bounds h hne
  have hten : (1 : ℚ) < 10 := by norm_num
  have hless := (zpow_lt_zpow_iff_right₀ hten).mp (hlow.trans_lt (magnitude_lt hr.digits_lt))
  have hmore := (zpow_le_zpow_iff_right₀ hten).mp ((hr.le_magnitude hne).trans hhigh)
  omega

/-- No digit is left behind the place that is rounded to. -/
theorem roundTo_fits (hne : (d.roundTo keep).digits ≠ []) :
    ((d.roundTo keep).digits.length : ℤ) ≤ (d.roundTo keep).scale + (keep - d.scale) := by
  obtain ⟨k, rfl⟩ := Int.eq_ofNat_of_zero_le (keep_nonneg hne)
  rcases le_or_gt d.digits.length k with hlen | hlen
  · rw [roundTo_of_length_le hlen]
    omega
  · obtain ⟨r, hr, -, hplaces, -⟩ := roundTo_cut h.digits_lt hlen
    rw [hr] at hne ⊢
    obtain ⟨m, n, hdigits, hscale⟩ := normalize_split r
    have hlength := congrArg List.length hdigits
    simp only [List.length_append, List.length_replicate] at hlength
    rw [if_neg hne] at hscale
    omega

theorem length_roundTo_le_self : (d.roundTo keep).digits.length ≤ d.digits.length := by
  by_cases hne : (d.roundTo keep).digits = []
  · simp [hne]
  have hfits := roundTo_fits h keep hne
  have hscale := (scale_roundTo h keep hne).2
  rcases le_or_gt (d.digits.length : ℤ) keep with hlen | hlen
  · obtain ⟨k, rfl⟩ := Int.eq_ofNat_of_zero_le ((Int.natCast_nonneg _).trans hlen)
    rw [roundTo_of_length_le (by exact_mod_cast hlen)]
  · omega

/-- Rounding once more to the same place changes nothing, also where a carry has moved the point. -/
theorem roundTo_roundTo :
    (d.roundTo keep).roundTo ((d.roundTo keep).scale + (keep - d.scale)) = d.roundTo keep := by
  set r := d.roundTo keep
  have hr : r.Normal := normal_roundTo h keep
  by_cases hne : r.digits = []
  · have hzero : (⟨r.negative, [], 0⟩ : Decimal) = r := by
      rw [← hr.scale_eq hne, ← hne]
    rcases lt_or_ge (r.scale + (keep - d.scale)) 0 with hneg | hpos
    · rw [roundTo_of_neg hneg, hzero]
    · obtain ⟨k, hk⟩ := Int.eq_ofNat_of_zero_le hpos
      rw [hk, roundTo_of_length_le (by simp [hne])]
  · have hfits := roundTo_fits h keep hne
    obtain ⟨k, hk⟩ := Int.eq_ofNat_of_zero_le ((Int.natCast_nonneg _).trans hfits)
    rw [hk] at hfits ⊢
    exact roundTo_of_length_le (by exact_mod_cast hfits)

end Rounding

/-- A number in normal form and with its sign, of which a zero has nothing else. -/
structure Represents (d : Decimal) (negative : Bool) (x : ℚ) : Prop where
  normal : d.Normal
  negative_eq : d.negative = negative
  magnitude_eq : d.magnitude = x
  zero_iff : d.digits = [] ∧ d.scale = 0 ↔ x = 0

theorem Normal.represents {d : Decimal} (h : d.Normal) : d.Represents d.negative d.magnitude :=
  ⟨h, rfl, rfl, by rw [h.magnitude_eq_zero_iff, and_iff_left_of_imp h.scale_eq]⟩

/-! ## Ranges -/

/-- A number in normal form with at most `count` digits and its point in a range. -/
structure Within (count : ℕ) (low high : ℤ) (d : Decimal) : Prop where
  normal : d.Normal
  length_le : d.digits.length ≤ count
  low_le : low ≤ d.scale
  le_high : d.scale ≤ high

namespace Within
variable {count : ℕ} {low high : ℤ} {d : Decimal} (h : d.Within count low high)
include h

theorem percent : d.percent.Within count low (high + 2) := by
  have hscale : d.percent.scale = d.scale ∨ d.percent.scale = d.scale + 2 := by
    unfold Decimal.percent
    split
    · exact .inl rfl
    · exact .inr rfl
  have hdigits : d.percent.digits = d.digits := by
    unfold Decimal.percent
    split <;> rfl
  have hlow := h.low_le
  have hhigh := h.le_high
  exact ⟨normal_percent h.normal, hdigits ▸ h.length_le, by omega, by omega⟩

theorem roundTo (hlow : low ≤ 0) (hhigh : 0 ≤ high) (keep : ℤ) :
    (d.roundTo keep).Within count low (high + 1) := by
  have hr := normal_roundTo h.normal keep
  have hlength := (length_roundTo_le_self h.normal keep).trans h.length_le
  by_cases hne : (d.roundTo keep).digits = []
  · have hzero := hr.scale_eq hne
    exact ⟨hr, hlength, by omega, by omega⟩
  · obtain ⟨hle, hge⟩ := scale_roundTo h.normal keep hne
    exact ⟨hr, hlength, h.low_le.trans hle, hge.trans (Int.add_le_add_right h.le_high 1)⟩

theorem mono {count' : ℕ} {low' high' : ℤ} (hcount : count ≤ count') (hlow : low' ≤ low)
    (hhigh : high ≤ high') : d.Within count' low' high' :=
  ⟨h.normal, h.length_le.trans hcount, hlow.trans h.low_le, h.le_high.trans hhigh⟩

end Within

/-! ## Digits of a search -/

theorem digits_pow (k : ℕ) : Numeral.digits 10 (10 ^ k) = 1 :: List.replicate k 0 := by
  induction k with
  | zero => exact digits_of_lt (by norm_num)
  | succ k ih =>
    have hpos : 0 < 10 ^ k := by positivity
    rw [digits_of_le (by norm_num) (by rw [pow_succ]; omega), pow_succ,
      Nat.mul_div_cancel _ (by norm_num), Nat.mul_mod_left, ih, List.cons_append,
      List.replicate_succ']

/-- A number that `k` digits do not exceed by more than one unit has no more digits that count. -/
theorem length_scaled_le {n k : ℕ} (hk : 0 < k) (h : n ≤ 10 ^ k) (negative : Bool) (exponent : ℤ) :
    (scaled negative n exponent).digits.length ≤ k := by
  rcases h.lt_or_eq with hlt | rfl
  · exact (length_normalize_le_self _).trans ((length_digits_le_iff (by norm_num) hk).mpr hlt)
  · have hkept : dropTrailingZeros (1 :: List.replicate k 0) = [1] := by
      rw [dropTrailingZeros, List.reverse_cons, List.reverse_replicate,
        List.dropWhile_append_of_pos fun x hx => by simpa using List.eq_of_mem_replicate hx]
      rfl
    have hone : (scaled negative (10 ^ k) exponent).digits = [1] := by
      simp [scaled, normalize, digits_pow, hkept]
    rw [hone]
    exact hk

namespace Neighbourhood
open Ieee
variable (r : Neighbourhood)

theorem spacing_add (t : ℤ) (k : ℕ) : r.spacing (t + k) = 10 ^ k * r.spacing t := by
  rw [spacing, spacing, zpow_add₀ (by norm_num), zpow_natCast]
  ring

/-- The centre has one digit on the coarsest grid of the search. -/
theorem centre_lt_spacing (hden : 0 < r.denominator) (hcentre : 0 < r.centre) :
    (r.centre : ℚ) < r.spacing (r.exponent + 1) := by
  unfold spacing exponent
  split
  next hle =>
    have hquot : 0 < r.centre / r.denominator := Nat.div_pos hle hden
    have hpow := (Nat.div_lt_iff_lt_mul hden).mp (lt_pow_length (r.centre / r.denominator))
    rw [length10, if_neg hquot.ne', sub_add_cancel, zpow_natCast]
    exact_mod_cast hpow
  next hlt =>
    -- the denominator exceeds the centre by a factor above a power of ten
    set q := (r.denominator + r.centre - 1) / r.centre - 1 with hq
    have hceil : q * r.centre < r.denominator := by
      have hle := Nat.div_mul_le_self (r.denominator + r.centre - 1) r.centre
      rw [hq, Nat.sub_mul, Nat.one_mul]
      omega
    have hone : 1 ≤ q := by
      have htwo : 2 ≤ (r.denominator + r.centre - 1) / r.centre := by
        rw [Nat.le_div_iff_mul_le hcentre]
        omega
      omega
    have hlength : 0 < (Numeral.digits 10 q).length := List.length_pos_iff.mpr (digits_ne_nil _ _)
    have hpow : 10 ^ ((Numeral.digits 10 q).length - 1) * r.centre < r.denominator :=
      (Nat.mul_le_mul_right _ (pow_length_le hone)).trans_lt hceil
    have hcast : (10 : ℚ) ^ ((Numeral.digits 10 q).length - 1) * r.centre < r.denominator := by
      exact_mod_cast hpow
    rw [length10, if_neg (by omega),
      show -((Numeral.digits 10 q).length : ℤ) + 1 = -((Numeral.digits 10 q).length - 1 : ℕ) by omega,
      zpow_neg, zpow_natCast, lt_inv_mul_iff₀ (by positivity)]
    exact hcast

theorem floor_lt (hden : 0 < r.denominator) {t : ℤ} {k : ℕ}
    (h : (r.centre : ℚ) < r.spacing (t + k)) : r.floor t < 10 ^ k := by
  have hunit : 0 < r.gridUnit t := by unfold gridUnit; positivity
  rw [floor, Nat.div_lt_iff_lt_mul hunit]
  have hscaled := mul_lt_mul_of_pos_right h (gridScale_pos t)
  rw [spacing_add, mul_assoc, ← gridUnit_eq] at hscaled
  exact_mod_cast hscaled

/-- Each grid that the search goes through adds a digit. -/
theorem search_le (hden : 0 < r.denominator) (n : ℕ) {t : ℤ} {k : ℕ}
    (h : (r.centre : ℚ) < r.spacing (t + k)) : (r.search t n).1 ≤ 10 ^ (k + n) := by
  have hnear (t : ℤ) : r.nearest t ≤ r.floor t + 1 := by
    unfold nearest
    dsimp only
    split <;> omega
  induction n generalizing t k with
  | zero =>
    have hfloor := r.floor_lt hden h
    exact (hnear t).trans hfloor
  | succ n ih =>
    unfold search
    cases hhit : r.hit? t with
    | some c =>
      have hc : c ≤ r.floor t + 1 := by
        unfold hit? at hhit
        dsimp only at hhit
        have hclose := hnear t
        split_ifs at hhit <;> cases hhit <;> omega
      have hfloor := r.floor_lt hden h
      have hpow : 10 ^ k ≤ 10 ^ (k + (n + 1)) := Nat.pow_le_pow_right (by norm_num) (by omega)
      dsimp only
      omega
    | none =>
      have hnext := ih (t := t - 1) (k := k + 1) (by rwa [Nat.cast_succ, sub_add_add_cancel])
      rwa [show k + (n + 1) = k + 1 + n by omega]

end Neighbourhood

section Shortest
open Ieee
variable {f : Format}

/-- The shortest decimal has no more digits than always suffice. -/
theorem length_shortest_le (h : Resolved f) (bits : ℕ) :
    (shortest f bits).digits.length ≤ enoughDigits f := by
  rcases Nat.eq_zero_or_pos (f.magnitudeBits bits) with hz | hpos
  · simp [shortest, Format.isZero, hz]
  have heq := Neighbourhood.ofBits_eq f h.fraction_pos hpos
  have hsteps : 0 < f.stepsAt (f.magnitudeBits bits) :=
    (Nat.zero_le _).trans_lt (f.stepsAt_strictMono hpos)
  set r := Neighbourhood.ofBits f bits with hr
  have hden : 0 < r.denominator := by rw [heq]; positivity
  have hcentre : 0 < r.centre := by rw [heq]; positivity
  have henough : 1 + (enoughDigits f - 1) = enoughDigits f := by unfold enoughDigits; split <;> rfl
  have hc := r.search_le hden (enoughDigits f - 1) (k := 1) (r.centre_lt_spacing hden hcentre)
  rw [henough] at hc
  have hzero : f.isZero bits = false := by simpa [Format.isZero] using hpos.ne'
  have hshort : shortest f bits = scaled false (r.search r.exponent (enoughDigits f - 1)).1
      (r.search r.exponent (enoughDigits f - 1)).2 := by
    simp only [shortest, hzero, Bool.false_eq_true, if_false]
    rfl
  rw [hshort]
  exact length_scaled_le (by omega) hc _ _

/-- Where the least and the greatest numbers of a format lie among the powers of ten. -/
structure Spans (f : Format) (low high : ℕ) : Prop where
  least : 2 ^ (f.unit + 1) ≤ 10 ^ low
  greatest : 2 ^ (f.fraction + 2 ^ f.exponent) < 10 ^ high * 2 ^ f.unit

theorem spans_single : Spans single 324 309 := ⟨by decide +kernel, by decide +kernel⟩

theorem spans_double : Spans double 324 309 := ⟨by decide +kernel, by decide +kernel⟩

theorem scale_shortest_of_spans (h : Resolved f) {low high : ℕ} (hspans : Spans f low high) {bits : ℕ}
    (hfinite : f.isFinite bits = true) (hne : (shortest f bits).digits ≠ []) :
    -(low : ℤ) < (shortest f bits).scale ∧ (shortest f bits).scale ≤ high := by
  have hlt : f.magnitudeBits bits < f.infinityBits := by simpa [Format.isFinite] using hfinite
  have hpos := magnitudeBits_pos hne
  have hnormal := normal_shortest f bits
  constructor
  · have hleast : (2 : ℚ) ^ (f.unit + 1) ≤ 10 ^ low := by exact_mod_cast hspans.least
    exact neg_lt_scale hnormal.digits_lt ((one_le_shortest h hpos).trans
      (mul_le_mul_of_nonneg_left hleast (magnitude_nonneg _)))
  · have hgreatest : (2 : ℚ) ^ (f.fraction + 2 ^ f.exponent) < 10 ^ high * 2 ^ f.unit := by
      exact_mod_cast hspans.greatest
    have hless : (shortest f bits).magnitude < 10 ^ (high : ℤ) := by
      rw [zpow_natCast]
      exact lt_of_mul_lt_mul_right ((shortest_mul_le h hpos hlt).trans_lt hgreatest) (by positivity)
    have hdecade := (hnormal.le_magnitude hne).trans_lt hless
    have hexp := (zpow_lt_zpow_iff_right₀ (by norm_num : (1 : ℚ) < 10)).mp hdecade
    omega

/-- What a float is taken apart from: a digit, perhaps a point and more digits, seventeen in all, and
the exponent of the first digit. -/
structure IsExponentText (text : List Char) (first : ℕ) (rest : List ℕ) (exponent : ℤ) : Prop where
  text_eq : text = lowerChar first :: (pointChars rest ++ 'e' :: intChars exponent)
  digits_lt : ∀ d ∈ first :: rest, d < 10
  length_le : (first :: rest).length ≤ 17
  low_le : -324 ≤ exponent
  le_high : exponent ≤ 308

theorem spans_cases (f : Format) (h : f = single ∨ f = double) :
    Resolved f ∧ Spans f 324 309 ∧ enoughDigits f ≤ 17 := by
  rcases h with rfl | rfl
  · exact ⟨resolved_single, spans_single, by decide⟩
  · exact ⟨resolved_double, spans_double, by decide⟩

/-- The text of a finite pattern begins with 0 only for a zero. -/
theorem isExponentText_shortestChars (h : f = single ∨ f = double) {bits : ℕ}
    (hfinite : f.isFinite bits = true) :
    ∃ first rest exponent, IsExponentText (shortestChars f bits) first rest exponent ∧
      (first = 0 → rest = []) := by
  obtain ⟨hresolved, hspans, henough⟩ := spans_cases f h
  have hnormal := normal_shortest f bits
  have hlength := (length_shortest_le hresolved bits).trans henough
  cases hd : (shortest f bits).digits with
  | nil =>
    refine ⟨0, [], 0, ⟨?_, by simp, by simp, by norm_num, by norm_num⟩, fun _ => rfl⟩
    rw [shortestChars, exponentChars, hd, intChars_zero]
    rfl
  | cons x rest =>
    have hscale := scale_shortest_of_spans hresolved hspans hfinite (by simp [hd])
    have hhead := hnormal.head_ne
    rw [hd] at hlength hhead
    exact ⟨x, rest, _, ⟨exponentChars_eq hd, hd ▸ hnormal.digits_lt, hlength, by omega, by omega⟩,
      fun hzero => absurd (congrArg some hzero) hhead⟩

/-- Reading exponent text loses nothing of the number that it denotes. -/
theorem represents_ofExponentChars (negative : Bool) {text : List Char} {first : ℕ} {rest : List ℕ}
    {exponent : ℤ} (h : IsExponentText text first rest exponent) :
    ∃ x, readMagnitude? 'e' text = some x ∧ (ofExponentChars negative text).Represents negative x := by
  have hlow := h.low_le
  have hhigh := h.le_high
  have hrest : ∀ d ∈ rest, d < 10 := fun d hd => h.digits_lt d (List.mem_cons_of_mem _ hd)
  have hfirst : ∀ d ∈ [first], d < 10 := fun d hd => h.digits_lt d (by simp_all)
  have hsuffix : readExponent? 'e' ('e' :: intChars exponent) = some exponent := by
    rw [readExponent?_mark, readInt?_intChars]
  have hread := readMagnitude?_eq ⟨by decide, by decide⟩ [first] rest (by simp) hfirst hrest hsuffix
  have hparsed := ofExponentChars_eq first rest h.digits_lt (by omega : -2 ^ 31 ≤ exponent) (by omega)
    negative
  have hnormal : (normalize ⟨negative, first :: rest, exponent + 1⟩).Normal :=
    normal_normalize h.digits_lt
  rw [← h.text_eq] at hparsed
  refine ⟨(ofExponentChars negative text).magnitude, ?_, hparsed ▸ hnormal.represents⟩
  rw [hparsed, magnitude_normalize, magnitude, h.text_eq]
  refine hread.trans ?_
  rw [List.singleton_append, List.length_cons, Nat.cast_succ, add_sub_add_right_eq_sub]

theorem within_ofFinite (h : f = single ∨ f = double) {bits : ℕ} (hfinite : f.isFinite bits = true) :
    (ofFinite f bits).Within 17 (-323) 309 := by
  obtain ⟨hresolved, hspans, henough⟩ := spans_cases f h
  have hnormal := normal_ofFinite hresolved hfinite
  have hlength := (length_shortest_le hresolved bits).trans henough
  rw [ofFinite_eq hresolved hfinite] at hnormal ⊢
  rcases eq_or_ne (shortest f bits).digits [] with hnil | hne
  · have hzero := hnormal.scale_eq hnil
    exact ⟨hnormal, hlength, by omega, by omega⟩
  · obtain ⟨hlow, hhigh⟩ := scale_shortest_of_spans hresolved hspans hfinite hne
    exact ⟨hnormal, hlength, Int.add_one_le_iff.mpr hlow, hhigh⟩

end Shortest

theorem within_ofInt {v : ℤ} {k : ℕ} (hk : 0 < k) (h : v.natAbs < 10 ^ k) :
    (ofInt v).Within k 0 k := by
  have hlength := (length_digits_le_iff (by norm_num) hk).mpr h
  have hdigits : (ofInt v).digits.length ≤ k := (length_normalize_le_self _).trans hlength
  obtain ⟨m, n, hsplit, hscale⟩ := normalize_split
    ⟨decide (v < 0), Numeral.digits 10 v.natAbs, (Numeral.digits 10 v.natAbs).length + 0⟩
  have hnumeral := congrArg List.length hsplit
  simp only [List.length_append, List.length_replicate] at hnumeral
  dsimp only at hscale
  have hrange : 0 ≤ (ofInt v).scale ∧ (ofInt v).scale ≤ k := by
    rw [show (ofInt v).scale = _ from hscale]
    split <;> omega
  exact ⟨normal_ofInt v, hdigits, hrange.1, hrange.2⟩

end Decimal

namespace Payload

/-- How many digits the decimal of a payload has at most. -/
def digitCount (p : Payload) : ℕ := if p.integer?.isSome then 20 else 17

theorem natAbs_lt_of_content {p : Payload} {v : ℤ} (h : p.content = .integer v) :
    p.digitCount = 20 ∧ v.natAbs < 10 ^ 20 := by
  have hv : p.integer? = some v := by rw [integer?, h]
  obtain ⟨hle, hge⟩ := IntRange.contains_iff.mp (contains_of_integer? hv)
  have hlow : -10 ^ 20 < p.type.range.low := by cases p.type <;> decide
  have hhigh : p.type.range.high < 10 ^ 20 := by cases p.type <;> decide
  exact ⟨by rw [digitCount, hv]; rfl, by omega⟩

/-- The decimal of a payload, with as many digits as the greatest 64-bit numeral or as many as tell all
doubles apart. -/
theorem within_numeric {p : Payload} {d : Decimal} (h : p.numeric = .decimal d) :
    d.Within p.digitCount (-323) 309 := by
  cases hc : p.content with
  | integer v =>
    obtain ⟨hcount, hsmall⟩ := natAbs_lt_of_content hc
    rw [numeric, hc] at h
    rw [hcount, ← Numeric.decimal.inj h]
    exact (Decimal.within_ofInt (by norm_num) hsmall).mono le_rfl (by norm_num) (by norm_num)
  | float f pattern =>
    have hcount : p.digitCount = 17 := by rw [digitCount, integer?, hc]; rfl
    simp only [numeric, hc, Numeric.ofBits] at h
    cases hdecode : f.decode pattern with
    | nan => rw [hdecode] at h; cases h
    | infinite negative => rw [hdecode] at h; cases h
    | finite negative magnitude =>
      have hfinite := (Ieee.Format.decode_eq_finite_iff.mp hdecode).1
      rw [hdecode] at h
      rw [hcount, ← Numeric.decimal.inj h]
      exact Decimal.within_ofFinite (ieee_cases hc) hfinite

end Payload

end ManagedTypes
