import Mathlib
import ManagedTypes.Decimal.Basic

/-! The number that a digit list stands for, its normal form, and rounding as exact arithmetic. -/
namespace ManagedTypes

namespace Numeral

theorem value_append (base : ℕ) (xs ys : List ℕ) :
    value base (xs ++ ys) = value base xs * base ^ ys.length + value base ys := by
  induction ys using List.reverseRecOn with
  | nil => simp [value]
  | append_singleton ys y ih =>
    rw [← List.append_assoc, value_append_one, ih, value_append_one, List.length_append,
      List.length_singleton, pow_succ]
    ring

theorem value_cons (base d : ℕ) (ds : List ℕ) :
    value base (d :: ds) = d * base ^ ds.length + value base ds := by
  have h := value_append base [d] ds
  simpa [value] using h

theorem value_lt {base : ℕ} {ds : List ℕ} (h : ∀ d ∈ ds, d < base) :
    value base ds < base ^ ds.length := by
  induction ds using List.reverseRecOn with
  | nil => simp [value]
  | append_singleton ds d ih =>
    have hd : d < base := h d (by simp)
    have hi := ih fun x hx => h x (by simp [hx])
    rw [value_append_one, List.length_append, List.length_singleton, pow_succ]
    calc value base ds * base + d < value base ds * base + base := by omega
      _ = (value base ds + 1) * base := by ring
      _ ≤ base ^ ds.length * base := Nat.mul_le_mul_right base hi

@[simp] theorem value_replicate_zero (base n : ℕ) : value base (List.replicate n 0) = 0 := by
  induction n with
  | zero => rfl
  | succ n ih => rw [List.replicate_succ', value_append_one, ih, Nat.zero_mul]

theorem value_append_zeros (base n : ℕ) (ds : List ℕ) :
    value base (ds ++ List.replicate n 0) = value base ds * base ^ n := by
  simp [value_append]

theorem value_zeros_append (base n : ℕ) (ds : List ℕ) :
    value base (List.replicate n 0 ++ ds) = value base ds := by
  simp [value_append]

end Numeral

namespace Decimal
open Numeral

/-- The number without its sign. -/
def magnitude (d : Decimal) : ℚ := value 10 d.digits * 10 ^ (d.scale - d.digits.length)

/-- No zero at either end, and scale 0 for zero. -/
structure Normal (d : Decimal) : Prop where
  digits_lt : ∀ x ∈ d.digits, x < 10
  head_ne : d.digits.head? ≠ some 0
  last_ne : d.digits.getLast? ≠ some 0
  scale_eq : d.digits = [] → d.scale = 0

theorem magnitude_nonneg (d : Decimal) : 0 ≤ d.magnitude := by
  unfold magnitude
  positivity

theorem magnitude_lt {d : Decimal} (h : ∀ x ∈ d.digits, x < 10) : d.magnitude < 10 ^ d.scale := by
  have hv : (value 10 d.digits : ℚ) < 10 ^ d.digits.length := by exact_mod_cast value_lt h
  have hp : (0 : ℚ) < 10 ^ (d.scale - d.digits.length) := by positivity
  calc d.magnitude < 10 ^ d.digits.length * 10 ^ (d.scale - d.digits.length) :=
        mul_lt_mul_of_pos_right hv hp
    _ = 10 ^ d.scale := by rw [← zpow_natCast, ← zpow_add₀ (by norm_num)]; congr 1; ring

/-- A list of zeros and a list that does not begin with one. -/
theorem takeWhile_zero (ds : List ℕ) :
    ds.takeWhile (· == 0) = List.replicate (ds.takeWhile (· == 0)).length 0 := by
  apply List.eq_replicate_of_mem
  intro d hd
  simpa using List.mem_takeWhile_imp hd

theorem eq_zeros_append (ds : List ℕ) :
    List.replicate (ds.takeWhile (· == 0)).length 0 ++ ds.dropWhile (· == 0) = ds := by
  rw [← takeWhile_zero]
  exact List.takeWhile_append_dropWhile

theorem head?_dropWhile_zero (ds : List ℕ) : (ds.dropWhile (· == 0)).head? ≠ some 0 := by
  intro h
  have hnot := List.head?_dropWhile_not (· == 0) ds
  simp [h] at hnot

theorem dropTrailingZeros_append (ds : List ℕ) :
    ∃ n, ds = dropTrailingZeros ds ++ List.replicate n 0 := by
  refine ⟨(ds.reverse.takeWhile (· == 0)).length, ?_⟩
  have h := congrArg List.reverse (eq_zeros_append ds.reverse)
  rw [List.reverse_append, List.reverse_replicate, List.reverse_reverse] at h
  exact h.symm

theorem getLast?_dropTrailingZeros (ds : List ℕ) : (dropTrailingZeros ds).getLast? ≠ some 0 := by
  rw [dropTrailingZeros, List.getLast?_reverse]
  exact head?_dropWhile_zero ds.reverse

theorem normalize_split (d : Decimal) :
    ∃ m n, d.digits = List.replicate m 0 ++ d.normalize.digits ++ List.replicate n 0 ∧
      d.normalize.scale = if d.normalize.digits = [] then 0 else d.scale - m := by
  obtain ⟨n, hn⟩ := dropTrailingZeros_append d.digits
  refine ⟨((dropTrailingZeros d.digits).takeWhile (· == 0)).length, n, ?_, ?_⟩
  · show d.digits = _ ++ (dropTrailingZeros d.digits).dropWhile (· == 0) ++ _
    rw [eq_zeros_append]
    exact hn
  · simp [normalize]

theorem magnitude_normalize (d : Decimal) : d.normalize.magnitude = d.magnitude := by
  obtain ⟨m, n, hdigits, hscale⟩ := normalize_split d
  by_cases hz : d.normalize.digits = []
  · rw [hz, List.append_nil] at hdigits
    have hvalue : value 10 d.digits = 0 := by
      rw [hdigits, value_append_zeros, value_replicate_zero, Nat.zero_mul]
    rw [magnitude, magnitude, hvalue, hz]
    simp [value]
  · rw [if_neg hz] at hscale
    have hvalue : value 10 d.digits = value 10 d.normalize.digits * 10 ^ n := by
      rw [hdigits, value_append_zeros, value_zeros_append]
    have hlength : d.digits.length = m + d.normalize.digits.length + n := by
      simpa [Nat.add_assoc] using congrArg List.length hdigits
    have hsplit : (10 : ℚ) ^ (d.scale - m - d.normalize.digits.length) =
        10 ^ n * 10 ^ (d.scale - d.digits.length) := by
      rw [← zpow_natCast, ← zpow_add₀ (by norm_num), hlength]
      congr 1
      push_cast
      ring
    simp only [magnitude, hscale, hvalue, hsplit]
    push_cast
    ring

theorem normal_normalize {d : Decimal} (h : ∀ x ∈ d.digits, x < 10) : d.normalize.Normal where
  digits_lt x hx := by
    obtain ⟨m, n, hdigits, _⟩ := normalize_split d
    exact h x (by rw [hdigits]; simp [hx])
  head_ne := head?_dropWhile_zero _
  last_ne := by
    intro hlast
    have hkept := List.takeWhile_append_dropWhile (p := (· == 0)) (l := dropTrailingZeros d.digits)
    apply getLast?_dropTrailingZeros d.digits
    rw [← hkept, List.getLast?_append]
    change ((dropTrailingZeros d.digits).dropWhile (· == 0)).getLast? = some 0 at hlast
    simp [hlast]
  scale_eq hz := by
    obtain ⟨m, n, _, hscale⟩ := normalize_split d
    simpa [hz] using hscale

/-- Normalizing moves no digit past the places that there are. -/
theorem length_normalize_le {d : Decimal} {places : ℕ}
    (h : (d.digits.length : ℤ) ≤ d.scale + places) :
    (d.normalize.digits.length : ℤ) ≤ d.normalize.scale + places := by
  obtain ⟨m, n, hdigits, hscale⟩ := normalize_split d
  have hlength : d.digits.length = m + d.normalize.digits.length + n := by
    simpa [Nat.add_assoc] using congrArg List.length hdigits
  by_cases hz : d.normalize.digits = []
  · simp [hz, hscale]
  · rw [hscale, if_neg hz]
    omega

theorem increment_spec (ds : List ℕ) (h : ∀ d ∈ ds, d < 10) :
    (increment ds).2.length = ds.length ∧ (∀ d ∈ (increment ds).2, d < 10) ∧
      value 10 (increment ds).2 + (if (increment ds).1 then 10 ^ ds.length else 0) =
        value 10 ds + 1 := by
  induction ds with
  | nil => simp [increment, value]
  | cons d ds ih =>
    obtain ⟨hlength, hlt, hvalue⟩ := ih fun x hx => h x (by simp [hx])
    have hd : d < 10 := h d (by simp)
    cases hcarry : (increment ds).1 with
    | false =>
      simp only [hcarry, Bool.false_eq_true, if_false] at hvalue
      refine ⟨by simp [increment, hcarry, hlength], ?_, ?_⟩
      · simpa [increment, hcarry, hd] using hlt
      · simp only [increment, hcarry, Bool.false_eq_true, if_false, value_cons, hlength]
        omega
    | true =>
      simp only [hcarry, if_true] at hvalue
      by_cases h9 : d = 9
      · refine ⟨by simp [increment, hcarry, h9, hlength], ?_, ?_⟩
        · simpa [increment, hcarry, h9] using hlt
        · simp only [increment, hcarry, h9, if_true, value_cons, hlength, List.length_cons,
            pow_succ]
          omega
      · refine ⟨by simp [increment, hcarry, h9, hlength], ?_, ?_⟩
        · have hd' : d + 1 < 10 := by omega
          simpa [increment, hcarry, h9, hd'] using hlt
        · simp only [increment, hcarry, h9, if_true, if_false, Bool.false_eq_true, value_cons,
            hlength]
          have hone : (d + 1) * 10 ^ ds.length = d * 10 ^ ds.length + 10 ^ ds.length := by ring
          omega

/-- A nonnegative number rounded to an integer, a half going up. -/
def roundHalf (x : ℚ) : ℕ := ⌊x + 1 / 2⌋₊

theorem roundHalf_natCast (n : ℕ) : roundHalf n = n := by
  unfold roundHalf
  rw [Nat.floor_eq_iff (by positivity)]
  constructor <;> linarith

/-- A number `n` and a part of a unit. -/
theorem roundHalf_add {n : ℕ} {x : ℚ} (h0 : 0 ≤ x) (h1 : x < 1) :
    roundHalf (n + x) = if x < 1 / 2 then n else n + 1 := by
  unfold roundHalf
  rw [Nat.floor_eq_iff (by positivity)]
  split
  next hx => constructor <;> linarith
  next hx =>
    push_cast
    constructor <;> linarith

/-- The digits that rounding cuts off are a part of a unit of the last digit kept, and their first one
tells whether it is less than a half. -/
theorem cut_fraction {x : ℕ} {tail : List ℕ} (h : ∀ d ∈ x :: tail, d < 10) :
    let part : ℚ := value 10 (x :: tail) / 10 ^ (tail.length + 1)
    0 ≤ part ∧ part < 1 ∧ (part < 1 / 2 ↔ x < 5) := by
  intro part
  have hp : (0 : ℚ) < 10 ^ (tail.length + 1) := by positivity
  have hall := value_lt h
  have htail : value 10 tail < 10 ^ tail.length := value_lt fun d hd => h d (by simp [hd])
  rw [List.length_cons] at hall
  refine ⟨by positivity, ?_, ?_⟩
  · rw [div_lt_one hp]
    exact_mod_cast hall
  · rw [div_lt_div_iff₀ hp (by norm_num), one_mul]
    have hcast : ((value 10 (x :: tail) : ℚ) * 2 < 10 ^ (tail.length + 1)) ↔
        value 10 (x :: tail) * 2 < 10 ^ (tail.length + 1) := by exact_mod_cast Iff.rfl
    rw [hcast, value_cons, pow_succ]
    constructor
    · intro hlt
      by_contra hx
      have : 5 * 10 ^ tail.length ≤ x * 10 ^ tail.length := Nat.mul_le_mul_right _ (by omega)
      omega
    · intro hx
      have : (x + 1) * 10 ^ tail.length ≤ 5 * 10 ^ tail.length := Nat.mul_le_mul_right _ (by omega)
      rw [Nat.add_mul, Nat.one_mul] at this
      omega

/-- What rounding leaves when it cuts digits off, before zeros are dropped: one digit is kept more if a
carry leaves the front. -/
theorem roundTo_cut {d : Decimal} {keep : ℕ} (h : ∀ x ∈ d.digits, x < 10)
    (hkeep : keep < d.digits.length) :
    ∃ r : Decimal, d.roundTo keep = r.normalize ∧ (∀ x ∈ r.digits, x < 10) ∧
      (r.digits.length : ℤ) - r.scale = keep - d.scale ∧
      value 10 r.digits = roundHalf (value 10 d.digits / 10 ^ (d.digits.length - keep)) := by
  have hne : d.digits.drop keep ≠ [] := by simpa using hkeep
  obtain ⟨x, tail, hdrop⟩ := List.exists_cons_of_ne_nil hne
  have hx : d.digitAt keep = x := by
    have hget := congrArg (·[0]?) hdrop
    simp only [List.getElem?_drop, Nat.add_zero, List.getElem?_cons_zero] at hget
    simp [digitAt, hget]
  have hhead : ∀ y ∈ d.digits.take keep, y < 10 := fun y hy => h y (List.mem_of_mem_take hy)
  have htail : ∀ y ∈ x :: tail, y < 10 := fun y hy => h y (List.mem_of_mem_drop (hdrop ▸ hy))
  have hlength : d.digits.length - keep = tail.length + 1 := by
    simpa using congrArg List.length hdrop
  have hquotient : (value 10 d.digits : ℚ) / 10 ^ (d.digits.length - keep) =
      value 10 (d.digits.take keep) + value 10 (x :: tail) / 10 ^ (tail.length + 1) := by
    have hsplit := value_append 10 (d.digits.take keep) (d.digits.drop keep)
    rw [List.take_append_drop, hdrop, List.length_cons] at hsplit
    rw [hlength, hsplit]
    push_cast
    field_simp
  obtain ⟨hpart0, hpart1, hpart⟩ := cut_fraction htail
  simp only [hquotient, roundHalf_add hpart0 hpart1, hpart]
  have htake : (d.digits.take keep).length = keep := List.length_take_of_le hkeep.le
  simp only [roundTo, hx, Int.toNat_natCast, not_lt.mpr (Int.natCast_nonneg keep), if_false,
    not_le.mpr hkeep]
  split
  next hlt => exact ⟨_, rfl, hhead, by simp [htake], rfl⟩
  next hge =>
    obtain ⟨hlen, hdigits, hvalue⟩ := increment_spec (d.digits.take keep) hhead
    rw [htake] at hlen hvalue
    split
    next hcarry =>
      refine ⟨_, rfl, ?_, ?_, ?_⟩
      · simpa using hdigits
      · simp [hlen]
      · rw [value_cons, hlen]
        simp only [hcarry, if_true] at hvalue
        omega
    next hcarry =>
      refine ⟨_, rfl, hdigits, by simp [hlen], ?_⟩
      simpa [hcarry] using hvalue

theorem roundTo_of_neg {d : Decimal} {keep : ℤ} (hkeep : keep < 0) :
    d.roundTo keep = ⟨d.negative, [], 0⟩ := by
  simp [roundTo, hkeep]

theorem roundTo_of_length_le {d : Decimal} {keep : ℕ} (hkeep : d.digits.length ≤ keep) :
    d.roundTo keep = d := by
  simp [roundTo, hkeep]

theorem normal_zero (negative : Bool) : Normal ⟨negative, [], 0⟩ where
  digits_lt := by simp
  head_ne := by simp
  last_ne := by simp
  scale_eq _ := rfl

theorem normal_roundTo {d : Decimal} (h : d.Normal) (keep : ℤ) : (d.roundTo keep).Normal := by
  rcases lt_or_ge keep 0 with hneg | hpos
  · rw [roundTo_of_neg hneg]
    exact normal_zero d.negative
  obtain ⟨k, rfl⟩ := Int.eq_ofNat_of_zero_le hpos
  rcases le_or_gt d.digits.length k with hlen | hlen
  · rw [roundTo_of_length_le hlen]
    exact h
  · obtain ⟨r, hr, hdigits, _, _⟩ := roundTo_cut h.digits_lt hlen
    rw [hr]
    exact normal_normalize hdigits

/-- Rounding to digits is rounding to a multiple of a power of ten. -/
theorem magnitude_roundTo {d : Decimal} (h : ∀ x ∈ d.digits, x < 10) (keep : ℤ) :
    (d.roundTo keep).magnitude =
      roundHalf (d.magnitude * 10 ^ (keep - d.scale)) * 10 ^ (d.scale - keep) := by
  rcases lt_or_ge keep 0 with hneg | hpos
  · -- the number is below a tenth of the last place
    have hsmall : d.magnitude * 10 ^ (keep - d.scale) < 1 / 2 := by
      calc d.magnitude * 10 ^ (keep - d.scale) < 10 ^ d.scale * 10 ^ (keep - d.scale) :=
            mul_lt_mul_of_pos_right (magnitude_lt h) (by positivity)
        _ = 10 ^ keep := by rw [← zpow_add₀ (by norm_num)]; congr 1; ring
        _ ≤ 10 ^ (-1 : ℤ) := zpow_le_zpow_right₀ (by norm_num) (by omega)
        _ < 1 / 2 := by norm_num
    have hnonneg : 0 ≤ d.magnitude * 10 ^ (keep - d.scale) :=
      mul_nonneg (magnitude_nonneg d) (by positivity)
    have hround := roundHalf_add (n := 0) hnonneg (by linarith)
    rw [Nat.cast_zero, zero_add, if_pos hsmall] at hround
    rw [roundTo_of_neg hneg, hround]
    simp [magnitude, value]
  obtain ⟨k, rfl⟩ := Int.eq_ofNat_of_zero_le hpos
  rcases le_or_gt d.digits.length k with hlen | hlen
  · have hinteger : d.magnitude * 10 ^ ((k : ℤ) - d.scale) =
        ((value 10 d.digits * 10 ^ (k - d.digits.length) : ℕ) : ℚ) := by
      rw [magnitude, mul_assoc, ← zpow_add₀ (by norm_num)]
      push_cast
      rw [← zpow_natCast]
      congr 2
      push_cast [hlen]
      ring
    rw [roundTo_of_length_le hlen, hinteger, roundHalf_natCast, ← hinteger, mul_assoc,
      ← zpow_add₀ (by norm_num)]
    simp
  · obtain ⟨r, hr, _, hplaces, hvalue⟩ := roundTo_cut h hlen
    have hquotient : d.magnitude * 10 ^ ((k : ℤ) - d.scale) =
        value 10 d.digits / 10 ^ (d.digits.length - k) := by
      rw [magnitude, mul_assoc, ← zpow_add₀ (by norm_num), div_eq_mul_inv, ← zpow_natCast,
        ← zpow_neg]
      congr 2
      push_cast [hlen.le]
      ring
    rw [hr, magnitude_normalize, hquotient, ← hvalue, magnitude]
    congr 2
    omega

/-- Rounded to `places` decimals, a number has no further digits. -/
theorem length_roundTo_le (d : Decimal) (h : ∀ x ∈ d.digits, x < 10) (places : ℕ) :
    ((d.roundTo (d.scale + places)).digits.length : ℤ) ≤
      (d.roundTo (d.scale + places)).scale + places := by
  rcases lt_or_ge (d.scale + places) 0 with hneg | hpos
  · rw [roundTo_of_neg hneg]
    simp
  obtain ⟨k, hk⟩ := Int.eq_ofNat_of_zero_le hpos
  rw [hk]
  rcases le_or_gt d.digits.length k with hlen | hlen
  · rw [roundTo_of_length_le hlen]
    omega
  · obtain ⟨r, hr, _, hplaces, _⟩ := roundTo_cut h hlen
    rw [hr]
    apply length_normalize_le
    omega

theorem normal_scaled (negative : Bool) (n : ℕ) (exponent : ℤ) :
    (scaled negative n exponent).Normal :=
  normal_normalize (digits_lt (by norm_num))

theorem magnitude_scaled (negative : Bool) (n : ℕ) (exponent : ℤ) :
    (scaled negative n exponent).magnitude = n * 10 ^ exponent := by
  rw [scaled, magnitude_normalize, magnitude, value_digits]
  congr 2
  ring

theorem normal_ofInt (v : ℤ) : (ofInt v).Normal := normal_scaled _ _ _

theorem magnitude_ofInt (v : ℤ) : (ofInt v).magnitude = |v| := by
  rw [ofInt, magnitude_scaled, zpow_zero, mul_one, Nat.cast_natAbs]

theorem normal_percent {d : Decimal} (h : d.Normal) : d.percent.Normal := by
  unfold percent
  split
  · exact h
  next hz => exact ⟨h.digits_lt, h.head_ne, h.last_ne, fun he => absurd he (by simpa [isZero] using hz)⟩

theorem magnitude_percent (d : Decimal) : d.percent.magnitude = 100 * d.magnitude := by
  unfold percent
  split
  next hz =>
    have hdigits : d.digits = [] := by simpa [isZero] using hz
    simp [magnitude, hdigits, value]
  next hz =>
    have hsplit : (10 : ℚ) ^ (d.scale + 2 - d.digits.length) =
        100 * 10 ^ (d.scale - d.digits.length) := by
      rw [show d.scale + 2 - (d.digits.length : ℤ) = 2 + (d.scale - d.digits.length) by ring,
        zpow_add₀ (by norm_num)]
      norm_num
    simp only [magnitude, hsplit]
    ring

/-- A first digit that is not zero puts the number in its decade. -/
theorem Normal.le_magnitude {d : Decimal} (h : d.Normal) (hne : d.digits ≠ []) :
    (10 : ℚ) ^ (d.scale - 1) ≤ d.magnitude := by
  obtain ⟨x, rest, hd⟩ := List.exists_cons_of_ne_nil hne
  have hx : 1 ≤ x := by
    have hhead := h.head_ne
    rw [hd, List.head?_cons] at hhead
    exact Nat.one_le_iff_ne_zero.mpr fun hz => hhead (by rw [hz])
  have hvalue : 10 ^ rest.length ≤ value 10 (x :: rest) := by
    rw [value_cons]
    exact Nat.le_add_right_of_le (Nat.le_mul_of_pos_left _ hx)
  have hcast : (10 : ℚ) ^ rest.length ≤ value 10 (x :: rest) := by exact_mod_cast hvalue
  calc (10 : ℚ) ^ (d.scale - 1)
      = 10 ^ rest.length * 10 ^ (d.scale - (x :: rest).length) := by
        rw [← zpow_natCast, ← zpow_add₀ (by norm_num), List.length_cons]
        congr 1
        push_cast
        ring
    _ ≤ value 10 (x :: rest) * 10 ^ (d.scale - (x :: rest).length) := by gcongr
    _ = d.magnitude := by rw [magnitude, hd]

theorem neg_lt_scale {d : Decimal} (h : ∀ x ∈ d.digits, x < 10) {n : ℕ}
    (hle : 1 ≤ d.magnitude * 10 ^ n) : -(n : ℤ) < d.scale := by
  by_contra hscale
  have hexp : (10 : ℚ) ^ d.scale ≤ 10 ^ (-(n : ℤ)) :=
    zpow_le_zpow_right₀ (by norm_num) (by omega)
  have hless : d.magnitude * 10 ^ n < 1 := by
    calc d.magnitude * 10 ^ n < 10 ^ (-(n : ℤ)) * 10 ^ n := by
          gcongr
          exact (magnitude_lt h).trans_le hexp
      _ = 1 := by rw [← zpow_natCast, ← zpow_add₀ (by norm_num), neg_add_cancel, zpow_zero]
  linarith

theorem Normal.scale_le {d : Decimal} (h : d.Normal) (hne : d.digits ≠ []) {n : ℕ}
    (hle : d.magnitude ≤ 10 ^ n) : d.scale ≤ n + 1 := by
  by_contra hscale
  have hexp : (10 : ℚ) ^ (n : ℤ) < 10 ^ (d.scale - 1) :=
    zpow_lt_zpow_right₀ (by norm_num) (by omega)
  have hdecade := h.le_magnitude hne
  rw [zpow_natCast] at hexp
  linarith

/-- A number in normal form is left as it is. -/
theorem normalize_of_normal {d : Decimal} (h : d.Normal) : d.normalize = d := by
  have hlast : dropTrailingZeros d.digits = d.digits := by
    obtain ⟨n, hn⟩ := dropTrailingZeros_append d.digits
    cases n with
    | zero => simpa using hn.symm
    | succ n =>
      exfalso
      apply h.last_ne
      rw [hn, List.replicate_succ', ← List.append_assoc, List.getLast?_concat]
  have hfront : d.digits.takeWhile (· == 0) = [] := by
    cases hd : d.digits with
    | nil => rfl
    | cons x rest =>
      have hx : x ≠ 0 := by simpa [hd] using h.head_ne
      simp [hx]
  have hback : d.digits.dropWhile (· == 0) = d.digits := by
    have hall := List.takeWhile_append_dropWhile (p := (· == 0)) (l := d.digits)
    rwa [hfront, List.nil_append] at hall
  obtain ⟨negative, digits, scale⟩ := d
  simp only [normalize, hlast, hfront, hback, List.length_nil, Nat.cast_zero, sub_zero]
  split
  next hz => rw [← h.scale_eq (by simpa using hz)]
  · rfl

end Decimal

end ManagedTypes
