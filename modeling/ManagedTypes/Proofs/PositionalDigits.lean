import ManagedTypes.Proofs.DecimalText
import ManagedTypes.Proofs.Template

/-! The digits that a layout puts on both sides of the decimal separator, and their characters. -/
namespace ManagedTypes

theorem groups_of_lt {α : Type} {size : ℕ} {xs : List α} (hsize : 0 < size)
    (h : size < xs.length) :
    groups size xs =
      groups size (xs.take (xs.length - size)) ++ [xs.drop (xs.length - size)] := by
  rw [groups, dif_pos ⟨hsize, h⟩]

theorem groups_of_not {α : Type} {size : ℕ} {xs : List α} (h : ¬(0 < size ∧ size < xs.length)) :
    groups size xs = [xs] := by
  rw [groups, dif_neg h]

theorem groups_map {α β : Type} (f : α → β) (size : ℕ) (xs : List α) :
    groups size (xs.map f) = (groups size xs).map (List.map f) := by
  induction hn : xs.length using Nat.strong_induction_on generalizing xs with
  | _ n ih =>
    by_cases h : 0 < size ∧ size < xs.length
    · have hrest := ih (xs.length - size) (by omega) (xs.take (xs.length - size)) (by simp)
      rw [groups_of_lt h.1 h.2, groups_of_lt h.1 (by rw [List.length_map]; exact h.2),
        List.length_map, ← List.map_take, ← List.map_drop, hrest, List.map_append, List.map_singleton]
    · rw [groups_of_not h, groups_of_not (by rwa [List.length_map]), List.map_singleton]

namespace Layout
open Numeral

/-- The digits of `digitsFrom`. -/
def window (d : Decimal) (start : ℤ) (count : ℕ) : List ℕ :=
  (List.range count).map fun (k : ℕ) => d.digitAt (start + k)

/-- The digits of `whole`. -/
def wholeDigits (d : Decimal) : List ℕ :=
  if d.scale ≤ 0 then [0] else window d 0 d.scale.toNat

theorem digitsFrom_eq (d : Decimal) (start : ℤ) (count : ℕ) :
    digitsFrom d start count = (window d start count).map digit := by
  simp [digitsFrom, window]

theorem whole_eq (d : Decimal) : whole d = (wholeDigits d).map digit := by
  unfold whole wholeDigits
  split
  · rfl
  · exact digitsFrom_eq d 0 _

variable {d : Decimal}

@[simp] theorem length_window (start : ℤ) (count : ℕ) : (window d start count).length = count := by
  simp [window]

theorem window_add (start : ℤ) (m n : ℕ) :
    window d start (m + n) = window d start m ++ window d (start + m) n := by
  simp only [window, List.range_add, List.map_append, List.map_map]
  congr 1
  apply List.map_congr_left
  intro k _
  simp [add_assoc]

/-- Before the first digit there are zeros. -/
theorem window_neg (n : ℕ) : window d (-n) n = List.replicate n 0 := by
  refine List.eq_replicate_iff.mpr ⟨length_window _ n, fun x hx => ?_⟩
  obtain ⟨k, hk, rfl⟩ := List.mem_map.mp hx
  have hlt := List.mem_range.mp hk
  rw [Decimal.digitAt, if_pos (by omega)]

/-- From the first digit on, the digits and then zeros. -/
theorem window_zero {count : ℕ} (h : d.digits.length ≤ count) :
    window d 0 count = d.digits ++ List.replicate (count - d.digits.length) 0 := by
  apply List.ext_getElem
  · simp only [length_window, List.length_append, List.length_replicate]
    omega
  intro k hleft hright
  rw [length_window] at hleft
  simp only [window, List.getElem_map, List.getElem_range, zero_add, Decimal.digitAt,
    Int.toNat_natCast]
  rw [if_neg (by omega), List.getD_eq_getElem?_getD, List.getElem_append]
  split
  next hlt => rw [List.getElem?_eq_getElem hlt, Option.getD_some]
  next hge => rw [List.getElem?_eq_none (by omega), List.getElem_replicate, Option.getD_none]

theorem window_one (start : ℤ) : window d start 1 = [d.digitAt start] := by simp [window]

/-- The first digit and what comes after it, with room for all digits. -/
theorem window_lead {places : ℕ} (hfit : d.digits.length ≤ places + 1) :
    d.digitAt 0 :: window d 1 places =
      d.digits ++ List.replicate (places + 1 - d.digits.length) 0 := by
  rw [← window_zero hfit, Nat.add_comm, window_add, window_one, List.singleton_append, zero_add,
    Nat.cast_one]

theorem window_lt (h : ∀ x ∈ d.digits, x < 10) (start : ℤ) (count : ℕ) :
    ∀ x ∈ window d start count, x < 10 := by
  intro x hx
  obtain ⟨k, _, rfl⟩ := List.mem_map.mp hx
  unfold Decimal.digitAt
  split
  · norm_num
  · rw [List.getD_eq_getElem?_getD]
    cases hget : d.digits[(start + k).toNat]? with
    | none => simp
    | some x => exact h x (List.mem_of_getElem? hget)

theorem digitAt_lt (h : ∀ x ∈ d.digits, x < 10) (i : ℤ) : d.digitAt i < 10 :=
  window_lt h i 1 _ (by simp [window_one])

theorem wholeDigits_lt (h : ∀ x ∈ d.digits, x < 10) : ∀ x ∈ wholeDigits d, x < 10 := by
  unfold wholeDigits
  split
  · simp
  · exact window_lt h 0 _

theorem wholeDigits_ne_nil (d : Decimal) : wholeDigits d ≠ [] := by
  unfold wholeDigits
  split
  · simp
  · intro hnil
    have hlength := congrArg List.length hnil
    rw [length_window, List.length_nil] at hlength
    omega

/-- No leading zero, except before the separator of a number below one. -/
theorem wholeDigits_head (h : d.Normal) (hzero : (wholeDigits d).head? = some 0) :
    wholeDigits d = [0] := by
  by_contra hne
  have hscale : ¬ d.scale ≤ 0 := fun hle => hne (by rw [wholeDigits, if_pos hle])
  obtain ⟨x, rest, hd⟩ := List.exists_cons_of_ne_nil fun hnil => hscale (h.scale_eq hnil).le
  obtain ⟨n, hn⟩ := Nat.exists_eq_succ_of_ne_zero (by omega : d.scale.toNat ≠ 0)
  have hx : (wholeDigits d).head? = some x := by
    rw [wholeDigits, if_neg hscale, hn, window, List.range_succ_eq_map]
    simp [Decimal.digitAt, hd]
  rw [hx] at hzero
  exact h.head_ne (by rw [hd, List.head?_cons, hzero])

/-- The digits on both sides, with enough places to hold them all. -/
theorem positional_digits {places : ℕ}
    (hfit : (d.digits.length : ℤ) ≤ d.scale + places) :
    ∃ zeros, wholeDigits d ++ window d d.scale places =
      List.replicate zeros 0 ++ (d.digits ++
        List.replicate (d.scale + places - d.digits.length).toNat 0) := by
  unfold wholeDigits
  split
  next hle =>
    obtain ⟨n, hn⟩ := Int.eq_ofNat_of_zero_le (neg_nonneg.mpr hle)
    have hscale : d.scale = -(n : ℤ) := by omega
    have hfits : n ≤ places := by omega
    refine ⟨1 + n, ?_⟩
    rw [hscale, show places = n + (places - n) by omega, window_add, window_neg, neg_add_cancel,
      window_zero (by omega), List.replicate_add]
    simp only [List.append_assoc, List.replicate_one]
    congr 4
    omega
  next hgt =>
    obtain ⟨n, hn⟩ := Int.eq_ofNat_of_zero_le (le_of_not_ge hgt)
    refine ⟨0, ?_⟩
    have hjoin := window_add (d := d) 0 n places
    rw [zero_add] at hjoin
    rw [hn, Int.toNat_natCast, ← hjoin, window_zero (by omega), List.replicate_zero,
      List.nil_append]
    congr 2
    omega

theorem value_positional {places : ℕ}
    (hfit : (d.digits.length : ℤ) ≤ d.scale + places) :
    (value 10 (wholeDigits d ++ window d d.scale places) : ℚ) = d.magnitude * 10 ^ places := by
  obtain ⟨zeros, hdigits⟩ := positional_digits hfit
  rw [hdigits, value_zeros_append, value_append_zeros, Decimal.magnitude, mul_assoc, ← zpow_natCast,
    ← zpow_add₀ (by norm_num)]
  push_cast
  rw [← zpow_natCast, Int.toNat_of_nonneg (by omega)]
  congr 2
  ring

/-- What stands before the separator and what stands behind it make the number. -/
theorem whole_add_places {places : ℕ} (hfit : (d.digits.length : ℤ) ≤ d.scale + places) :
    (value 10 (wholeDigits d) : ℚ) + value 10 (window d d.scale places) / 10 ^ places =
      d.magnitude := by
  have hpow : (10 : ℚ) ^ places ≠ 0 := by positivity
  have hvalue := value_positional hfit
  rw [value_append, length_window] at hvalue
  push_cast at hvalue
  rw [← mul_div_cancel_right₀ d.magnitude hpow, ← hvalue, add_div, mul_div_cancel_right₀ _ hpow]

theorem whole_chars_head (h : d.Normal) (hzero : ((wholeDigits d).map lowerChar).head? = some '0') :
    (wholeDigits d).map lowerChar = ['0'] := by
  rw [List.head?_map] at hzero
  have hhead := eq_zero_of_map_lowerChar
    (fun x hx => wholeDigits_lt h.digits_lt x (List.mem_of_mem_head? hx)) hzero
  rw [wholeDigits_head h hhead]
  rfl

/-! Characters of templates. -/

variable (symbols : NumberSymbols)

theorem chars_digits (ds : List ℕ) :
    (ds.map digit).flatMap (Piece.chars symbols) = ds.map lowerChar := by
  induction ds with
  | nil => rfl
  | cons d ds ih => simp [digit, Piece.chars, ih]

theorem chars_sign (negative : Bool) :
    (sign negative).flatMap (Piece.chars symbols) =
      if negative then symbols.negativeSign.toList else [] := by
  cases negative <;> simp [sign, Piece.chars, NumberSymbols.text]

theorem chars_fraction (ds : List ℕ) :
    (fraction (ds.map digit)).flatMap (Piece.chars symbols) =
      if ds = [] then [] else symbols.decimalSeparator.toList ++ ds.map lowerChar := by
  unfold fraction
  by_cases h : ds = []
  · simp [h]
  · rw [if_neg (by simpa using h), if_neg h, List.flatMap_cons, chars_digits]
    rfl

theorem chars_intercalate (separator : Template) (parts : List Template) :
    (separator.intercalate parts).flatMap (Piece.chars symbols) =
      (separator.flatMap (Piece.chars symbols)).intercalate
        (parts.map (List.flatMap (Piece.chars symbols))) := by
  induction parts with
  | nil => rfl
  | cons part parts ih =>
    cases parts with
    | nil => simp
    | cons next parts =>
      rw [List.intercalate_cons_cons, List.map_cons, List.map_cons, List.intercalate_cons_cons,
        List.flatMap_append, List.flatMap_append, ih, List.map_cons]

theorem chars_grouped (size : ℕ) (ds : List ℕ) :
    (grouped size (ds.map digit)).flatMap (Piece.chars symbols) =
      symbols.groupSeparator.toList.intercalate (groups size (ds.map lowerChar)) := by
  rw [grouped, chars_intercalate, groups_map, groups_map, List.map_map]
  congr 1
  · simp [Piece.chars, NumberSymbols.text]
  · apply List.map_congr_left
    intro part _
    exact chars_digits symbols part

/-- A sign, integral digits, and a separator in front of the decimals if there are any. -/
def fixedText (symbols : NumberSymbols) (negative : Bool) (integral tail : List Char) : List Char :=
  (if negative then symbols.negativeSign.toList else []) ++ integral ++
    (if tail = [] then [] else symbols.decimalSeparator.toList ++ tail)

theorem chars_positional (d : Decimal) (negative : Bool) (places : ℕ) :
    (sign negative ++ whole d ++ fraction (digitsFrom d d.scale places)).flatMap (Piece.chars symbols) =
      fixedText symbols negative ((wholeDigits d).map lowerChar)
        ((window d d.scale places).map lowerChar) := by
  rw [digitsFrom_eq, whole_eq]
  simp only [List.flatMap_append, chars_sign, chars_digits, chars_fraction, fixedText,
    List.map_eq_nil_iff]

/-- A marker, the sign of an exponent and its digits. -/
def exponentText (symbols : NumberSymbols) (marker : Char) (e : ℤ) (digits : List Char) : List Char :=
  marker :: ((if e < 0 then symbols.negativeSign else symbols.positiveSign).toList ++ digits)

theorem chars_exponent (marker : Char) (e : ℤ) (width : ℕ) :
    (Piece.char marker :: exponent e width).flatMap (Piece.chars symbols) =
      exponentText symbols marker e ((padded width (digits 10 e.natAbs)).map lowerChar) := by
  rw [exponent, List.flatMap_cons, List.flatMap_cons, chars_digits, exponentText]
  by_cases he : e < 0
  · simp [Piece.chars, NumberSymbols.text, he]
  · simp [Piece.chars, NumberSymbols.text, he]

/-- One digit, the places behind it, and an exponent of some width. -/
theorem chars_lead (negative : Bool) (places : ℕ) (marker : Char) (e : ℤ) (width : ℕ) :
    (sign negative ++ digitsFrom d 0 1 ++ fraction (digitsFrom d 1 places) ++
        Piece.char marker :: exponent e width).flatMap (Piece.chars symbols) =
      fixedText symbols negative [lowerChar (d.digitAt 0)] ((window d 1 places).map lowerChar) ++
        exponentText symbols marker e ((padded width (digits 10 e.natAbs)).map lowerChar) := by
  rw [List.flatMap_append, chars_exponent, digitsFrom_eq, digitsFrom_eq]
  simp only [List.flatMap_append, chars_sign, chars_digits, chars_fraction]
  simp only [window_one, fixedText, List.map_cons, List.map_nil, List.map_eq_nil_iff]

/-- The numbers whose general text has an exponent. Zero is not one of them. -/
def IsFar (d : Decimal) (limit : Option ℕ) : Prop :=
  d.digits ≠ [] ∧ (d.scale < -3 ∨ ∃ n ∈ limit, (n : ℤ) < d.scale)

/-- The two forms of general text. A zero is laid out as a near number is. -/
theorem chars_general (h : d.Normal) (limit : Option ℕ) :
    let text := (general d limit).flatMap (Piece.chars symbols)
    let count := d.digits.length
    IsFar d limit ∧ text = fixedText symbols d.negative [lowerChar (d.digitAt 0)]
          ((window d 1 (count - 1)).map lowerChar) ++
        exponentText symbols 'E' (d.scale - 1)
          ((padded 2 (digits 10 (d.scale - 1).natAbs)).map lowerChar) ∨
      ¬IsFar d limit ∧ text = fixedText symbols d.negative ((wholeDigits d).map lowerChar)
        ((window d d.scale ((count : ℤ) - d.scale).toNat).map lowerChar) := by
  intro text count
  simp only [text]
  rw [← chars_lead, ← chars_positional]
  unfold general
  dsimp only
  split_ifs with hzero hfar
  · have hnil : d.digits = [] := by simpa [Decimal.isZero] using hzero
    refine .inr ⟨fun hfar => hfar.1 hnil, ?_⟩
    simp [whole, h.scale_eq hnil, hnil, digitsFrom, fraction, count]
  · refine .inl ⟨⟨by simpa [Decimal.isZero] using hzero, ?_⟩, rfl⟩
    cases limit with
    | none => simpa using hfar
    | some n => simpa using hfar
  · refine .inr ⟨fun hneed => hfar ?_, rfl⟩
    have hlimit := hneed.2
    cases limit with
    | none => simpa using hlimit
    | some n => simpa using hlimit

end Layout

end ManagedTypes
