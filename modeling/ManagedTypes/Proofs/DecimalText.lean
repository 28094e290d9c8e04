import ManagedTypes.Decimal.ExponentText
import ManagedTypes.Proofs.DecimalValue

/-! The number that a decimal text denotes: a minus sign or none, digits, perhaps a point and digits,
perhaps a mark and an exponent. Exponent text is one spelling of it. -/
namespace ManagedTypes

namespace Numeral

/-- Digits and nothing else. -/
def readNat? (text : List Char) : Option ℕ :=
  if !text.isEmpty && text.all Char.isDigit then some (value 10 (text.map digitValue)) else none

def readInt? (text : List Char) : Option ℤ :=
  let (negative, digits) := splitSign text
  (readNat? digits).map fun (n : ℕ) => if negative then -(n : ℤ) else n

/-- What may follow the digits of a decimal text. -/
def readExponent? (mark : Char) : List Char → Option ℤ
  | [] => some 0
  | c :: rest => if c = mark then readInt? rest else none

/-- The digits after a point, and what follows them. A point without digits is not one. -/
def splitPoint : List Char → List Char × List Char
  | '.' :: tail =>
    let places := tail.takeWhile Char.isDigit
    if places.isEmpty then ([], '.' :: tail) else (places, tail.dropWhile Char.isDigit)
  | rest => ([], rest)

/-- A decimal text without a sign; its exponent comes after the mark. -/
def readMagnitude? (mark : Char) (text : List Char) : Option ℚ :=
  let whole := text.takeWhile Char.isDigit
  let (places, suffix) := splitPoint (text.dropWhile Char.isDigit)
  if whole.isEmpty then none
  else (readExponent? mark suffix).map fun (e : ℤ) =>
    value 10 ((whole ++ places).map digitValue) * (10 : ℚ) ^ (e - places.length)

/-- The sign is kept apart, since a zero has one too. -/
def readDecimal? (mark : Char) : List Char → Option (Bool × ℚ)
  | '-' :: rest => (readMagnitude? mark rest).map (true, ·)
  | text => (readMagnitude? mark text).map (false, ·)

theorem isDigit_lowerChar {d : ℕ} (h : d < 10) : (lowerChar d).isDigit = true := by
  revert d
  decide

theorem digitValue_lowerChar {d : ℕ} (h : d < 10) : digitValue (lowerChar d) = d := by
  revert d
  decide

theorem eq_zero_of_lowerChar {d : ℕ} (h : d < 10) (hzero : lowerChar d = '0') : d = 0 := by
  have hvalue := digitValue_lowerChar h
  rw [hzero] at hvalue
  exact hvalue.symm

theorem eq_zero_of_map_lowerChar {o : Option ℕ} (h : ∀ d ∈ o, d < 10)
    (hzero : o.map lowerChar = some '0') : o = some 0 := by
  obtain ⟨d, hd, hchar⟩ := Option.map_eq_some_iff.mp hzero
  rw [hd, eq_zero_of_lowerChar (h d hd) hchar]

theorem map_digitValue {ds : List ℕ} (h : ∀ d ∈ ds, d < 10) :
    (ds.map lowerChar).map digitValue = ds := by
  rw [List.map_map]
  conv_rhs => rw [← List.map_id ds]
  exact List.map_congr_left fun d hd => digitValue_lowerChar (h d hd)

theorem all_isDigit {ds : List ℕ} (h : ∀ d ∈ ds, d < 10) :
    ∀ c ∈ ds.map lowerChar, c.isDigit = true := by
  intro c hc
  obtain ⟨d, hd, rfl⟩ := List.mem_map.mp hc
  exact isDigit_lowerChar (h d hd)

theorem readNat?_map {ds : List ℕ} (hne : ds ≠ []) (h : ∀ d ∈ ds, d < 10) :
    readNat? (ds.map lowerChar) = some (value 10 ds) := by
  have hall : (ds.map lowerChar).all Char.isDigit = true := List.all_eq_true.mpr (all_isDigit h)
  rw [readNat?, hall, map_digitValue h]
  simp [hne]

theorem splitSign_map {ds : List ℕ} (h : ∀ d ∈ ds, d < 10) :
    splitSign (ds.map lowerChar) = (false, ds.map lowerChar) := by
  unfold splitSign
  split
  next heq =>
    have hminus := all_isDigit h '-' (by simp [heq])
    exact absurd hminus (by decide)
  next heq =>
    have hplus := all_isDigit h '+' (by simp [heq])
    exact absurd hplus (by decide)
  · rfl

theorem splitSign_intChars (v : ℤ) : splitSign (intChars v) = (decide (v < 0), chars v.natAbs) := by
  unfold intChars
  split
  next hneg => simp [splitSign, hneg]
  next hpos => simp [chars, splitSign_map (digits_lt (by norm_num)), hpos]

theorem head_digits {n : ℕ} (h : 0 < n) : (digits 10 n).head? ≠ some 0 := by
  induction n using Nat.strongRecOn with
  | ind n ih =>
    by_cases hlt : n < 10
    · rw [digits_of_lt hlt]
      simpa using h.ne'
    · rw [digits_of_le (by norm_num) (by omega),
        List.head?_append_of_ne_nil _ (digits_ne_nil 10 _)]
      exact ih (n / 10) (by omega) (by omega)

theorem padded_lt {base : ℕ} (hb : 2 ≤ base) (width n : ℕ) :
    ∀ d ∈ padded width (digits base n), d < base := by
  intro d hd
  rcases List.mem_append.mp hd with hd | hd
  · rw [List.eq_of_mem_replicate hd]
    exact Nat.zero_lt_of_lt hb
  · exact digits_lt hb d hd

theorem value_padded (base width n : ℕ) : value base (padded width (digits base n)) = n := by
  rw [padded, value_zeros_append, value_digits]

theorem length_padded (width : ℕ) (ds : List ℕ) : (padded width ds).length = max width ds.length := by
  rw [padded, List.length_append, List.length_replicate]
  omega

/-- A number has no more digits than it needs. -/
theorem length_digits_le_iff {base : ℕ} (hb : 2 ≤ base) {k n : ℕ} (hk : 0 < k) :
    (digits base n).length ≤ k ↔ n < base ^ k := by
  induction n using Nat.strongRecOn generalizing k with
  | ind n ih =>
    rcases Nat.lt_or_ge n base with hlt | hge
    · rw [digits_of_lt hlt, List.length_singleton]
      exact iff_of_true hk (hlt.trans_le (Nat.le_self_pow hk.ne' base))
    · have hrest : n / base < n := Nat.div_lt_self (by omega) hb
      rw [digits_of_le hb hge, List.length_append, List.length_singleton]
      obtain ⟨j, rfl⟩ : ∃ j, k = j + 1 := ⟨k - 1, by omega⟩
      rcases Nat.eq_zero_or_pos j with rfl | hj
      · have hpos := List.length_pos_iff.mpr (digits_ne_nil base (n / base))
        rw [zero_add, pow_one]
        omega
      · rw [Nat.succ_le_succ_iff, ih _ hrest hj, pow_succ, Nat.div_lt_iff_lt_mul (by omega)]

theorem readNat?_chars (n : ℕ) : readNat? (chars n) = some n := by
  rw [chars, readNat?_map (digits_ne_nil 10 n) (digits_lt (by norm_num)), value_digits]

theorem readInt?_intChars (v : ℤ) : readInt? (intChars v) = some v := by
  simp only [readInt?, splitSign_intChars, readNat?_chars, Option.map_some, decide_eq_true_eq,
    Option.some.injEq]
  split <;> omega

theorem readExponent?_nil (mark : Char) : readExponent? mark [] = some 0 := rfl

theorem readExponent?_mark (mark : Char) (rest : List Char) :
    readExponent? mark (mark :: rest) = readInt? rest := by
  simp [readExponent?]

theorem intChars_zero : intChars 0 = ['0'] := by
  simp [intChars, chars, digits_of_lt, lowerChar]

theorem readInt32?_intChars {v : ℤ} (hlow : -2 ^ 31 ≤ v) (hhigh : v < 2 ^ 31) :
    readInt32? (intChars v) = some v := by
  have hdigits := digits_lt (n := v.natAbs) (by norm_num : 2 ≤ 10)
  have hne : (chars v.natAbs).isEmpty = false := by simp [chars, digits_ne_nil]
  have hall : (chars v.natAbs).all Char.isDigit = true := List.all_eq_true.mpr (all_isDigit hdigits)
  have hvalue : value 10 ((chars v.natAbs).map digitValue) = v.natAbs := by
    rw [chars, map_digitValue hdigits, value_digits]
  have hsign : (if v < 0 then -(v.natAbs : ℤ) else v.natAbs) = v := by split <;> omega
  have hfits : -0x80000000 ≤ v ∧ v ≤ 0x7FFFFFFF := by omega
  simp only [readInt32?, splitSign_intChars, hne, hall, hvalue, decide_eq_true_eq, hsign,
    Bool.not_true, Bool.or_self, Bool.false_eq_true, if_false, if_pos hfits]

/-- What a digit does not extend. -/
def Detached (rest : List Char) : Prop := ∀ c ∈ rest.head?, c.isDigit = false

theorem takeWhile_digits {ds : List ℕ} (h : ∀ d ∈ ds, d < 10) {rest : List Char}
    (hrest : Detached rest) :
    (ds.map lowerChar ++ rest).takeWhile Char.isDigit = ds.map lowerChar := by
  rw [List.takeWhile_append_of_pos (all_isDigit h)]
  cases rest with
  | nil => simp
  | cons c rest => simp [hrest c rfl]

theorem dropWhile_digits {ds : List ℕ} (h : ∀ d ∈ ds, d < 10) {rest : List Char}
    (hrest : Detached rest) :
    (ds.map lowerChar ++ rest).dropWhile Char.isDigit = rest := by
  rw [List.dropWhile_append_of_pos (all_isDigit h)]
  cases rest with
  | nil => simp
  | cons c rest => simp [hrest c rfl]

/-- The digits after the point, and the point if there are any. -/
def pointChars (places : List ℕ) : List Char :=
  if places.isEmpty then [] else '.' :: places.map lowerChar

/-- What separates the parts of a decimal text: neither a digit nor the point. -/
def IsMark (mark : Char) : Prop := mark.isDigit = false ∧ mark ≠ '.'

theorem eq_mark_of_readExponent? {mark : Char} {suffix : List Char} {e : ℤ}
    (h : readExponent? mark suffix = some e) : ∀ c ∈ suffix.head?, c = mark := by
  intro c hc
  cases suffix with
  | nil => simp at hc
  | cons d rest =>
    obtain rfl : d = c := by simpa using hc
    by_contra hne
    simp [readExponent?, hne] at h

theorem splitPoint_pointChars {places : List ℕ} (h : ∀ d ∈ places, d < 10) {suffix : List Char}
    (hdetached : Detached suffix) (hpoint : suffix.head? ≠ some '.') :
    splitPoint (pointChars places ++ suffix) = (places.map lowerChar, suffix) := by
  cases hp : places with
  | nil =>
    show splitPoint suffix = ([], suffix)
    unfold splitPoint
    split
    · simp at hpoint
    · rfl
  | cons d rest =>
    have hsome : ((d :: rest).map lowerChar).isEmpty = false := rfl
    rw [hp] at h
    simp only [pointChars, List.isEmpty_cons, Bool.false_eq_true, if_false, List.cons_append, splitPoint,
      takeWhile_digits h hdetached, dropWhile_digits h hdetached, hsome]

theorem readMagnitude?_eq {mark : Char} (hmark : IsMark mark) (whole places : List ℕ)
    {suffix : List Char} {e : ℤ} (hne : whole ≠ []) (hwhole : ∀ d ∈ whole, d < 10)
    (hplaces : ∀ d ∈ places, d < 10) (hsuffix : readExponent? mark suffix = some e) :
    readMagnitude? mark (whole.map lowerChar ++ (pointChars places ++ suffix)) =
      some (value 10 (whole ++ places) * (10 : ℚ) ^ (e - places.length)) := by
  have hhead := eq_mark_of_readExponent? hsuffix
  have hdetached : Detached suffix := fun c hc => hhead c hc ▸ hmark.1
  have hpoint : suffix.head? ≠ some '.' := fun hc => hmark.2 (hhead '.' hc).symm
  have hstop : Detached (pointChars places ++ suffix) := by
    unfold pointChars
    split
    · exact hdetached
    · simp [Detached]
  have hvalue : ((whole.map lowerChar ++ places.map lowerChar).map digitValue) = whole ++ places := by
    rw [List.map_append, map_digitValue hwhole, map_digitValue hplaces]
  have hstart : (whole.map lowerChar).isEmpty = false := by simpa using hne
  simp only [readMagnitude?, takeWhile_digits hwhole hstop, dropWhile_digits hwhole hstop,
    splitPoint_pointChars hplaces hdetached hpoint, hstart, Bool.false_eq_true, if_false, hsuffix,
    Option.map_some, hvalue, List.length_map]

/-- A minus sign in front of a text that begins with a digit. -/
theorem readDecimal?_sign (mark : Char) (negative : Bool) {text : List Char}
    (h : text.head? ≠ some '-') :
    readDecimal? mark ((if negative then ['-'] else []) ++ text) =
      (readMagnitude? mark text).map (negative, ·) := by
  cases negative with
  | true => rfl
  | false =>
    show readDecimal? mark text = _
    unfold readDecimal?
    split
    · simp at h
    · rfl

end Numeral

namespace Decimal
open Numeral

/-- The digits of a number that is not zero, the first apart. -/
theorem exponentChars_eq {d : Decimal} {x : ℕ} {rest : List ℕ} (h : d.digits = x :: rest) :
    exponentChars d =
      lowerChar x :: (pointChars rest ++ 'e' :: intChars (d.scale - 1)) := by
  simp [exponentChars, h, pointChars]

/-- Exponent text denotes the number. -/
theorem readMagnitude?_exponentChars {d : Decimal} (h : ∀ x ∈ d.digits, x < 10) :
    readMagnitude? 'e' (exponentChars d) = some d.magnitude := by
  have hmark : IsMark 'e' := ⟨by decide, by decide⟩
  cases hd : d.digits with
  | nil =>
    have hzero : readExponent? 'e' ['e', '0'] = some 0 := by
      rw [readExponent?_mark, ← intChars_zero, readInt?_intChars]
    have hread := readMagnitude?_eq hmark [0] [] (by simp) (by simp) (by simp) hzero
    simp only [exponentChars, magnitude, hd, List.map_nil, value, List.foldl_nil, Nat.cast_zero,
      zero_mul]
    exact hread.trans (by simp [value])
  | cons x rest =>
    rw [hd] at h
    have hexponent : readExponent? 'e' ('e' :: intChars (d.scale - 1)) = some (d.scale - 1) := by
      rw [readExponent?_mark, readInt?_intChars]
    have hread := readMagnitude?_eq hmark [x] rest (by simp) (fun y hy => h y (by simp_all))
      (fun y hy => h y (by simp [hy])) hexponent
    rw [exponentChars_eq hd, magnitude, hd]
    refine hread.trans ?_
    rw [List.singleton_append, List.length_cons]
    congr 3
    push_cast
    ring

theorem filter_pointChars {places : List ℕ} (h : ∀ d ∈ places, d < 10) :
    (pointChars places).filter Char.isDigit = places.map lowerChar := by
  unfold pointChars
  split
  next hp => simp_all
  next hp =>
    have hpoint : '.'.isDigit = false := by decide
    rw [List.filter_cons_of_neg (by simp [hpoint]), List.filter_eq_self.mpr (all_isDigit h)]

theorem ne_mark {c : Char} (h : c.isDigit = true) : (c != 'e') = true := by
  rw [bne_iff_ne]
  rintro rfl
  exact absurd h (by decide)

theorem ne_mark_of_mem_pointChars {places : List ℕ} (h : ∀ d ∈ places, d < 10) {c : Char}
    (hc : c ∈ pointChars places) : (c != 'e') = true := by
  unfold pointChars at hc
  split at hc
  · simp at hc
  · rcases List.mem_cons.mp hc with rfl | hc
    · decide
    · exact ne_mark (all_isDigit h c hc)

/-- What stands before the mark has the digits, and what comes after it is the exponent. -/
theorem exponentChars_parts (x : ℕ) (rest : List ℕ) (h : ∀ d ∈ x :: rest, d < 10) (suffix : List Char) :
    let text := lowerChar x :: (pointChars rest ++ 'e' :: suffix)
    (text.takeWhile (· != 'e')).filter Char.isDigit = (x :: rest).map lowerChar ∧
      (text.dropWhile (· != 'e')).drop 1 = suffix := by
  intro text
  have hrest : ∀ d ∈ rest, d < 10 := fun d hd => h d (by simp [hd])
  have hfront : ∀ c ∈ lowerChar x :: pointChars rest, (c != 'e') = true := by
    intro c hc
    rcases List.mem_cons.mp hc with rfl | hc
    · exact ne_mark (isDigit_lowerChar (h x (by simp)))
    · exact ne_mark_of_mem_pointChars hrest hc
  have hfilter : (lowerChar x :: pointChars rest).filter Char.isDigit = (x :: rest).map lowerChar := by
    rw [List.filter_cons_of_pos (isDigit_lowerChar (h x (by simp))), filter_pointChars hrest,
      List.map_cons]
  have htext : text = (lowerChar x :: pointChars rest) ++ 'e' :: suffix := rfl
  rw [htext, List.takeWhile_append_of_pos hfront, List.dropWhile_append_of_pos hfront]
  simp only [hfilter, bne_self_eq_false, Bool.false_eq_true, not_false_eq_true,
    List.takeWhile_cons_of_neg, List.dropWhile_cons_of_neg, List.append_nil, List.drop_succ_cons,
    List.drop_zero, and_self]

/-- Reading exponent text finds its digits and its scale. -/
theorem ofExponentChars_eq (x : ℕ) (rest : List ℕ) (h : ∀ d ∈ x :: rest, d < 10) {v : ℤ}
    (hlow : -2 ^ 31 ≤ v) (hhigh : v < 2 ^ 31) (negative : Bool) :
    ofExponentChars negative (lowerChar x :: (pointChars rest ++ 'e' :: intChars v)) =
      normalize ⟨negative, x :: rest, v + 1⟩ := by
  obtain ⟨hmantissa, hexponent⟩ := exponentChars_parts x rest h (intChars v)
  simp only [ofExponentChars, hmantissa, hexponent, map_digitValue h, readInt32?_intChars hlow hhigh,
    Option.getD_some]

theorem ofExponentChars_exponentChars {d : Decimal} (h : d.Normal) (hlow : -2 ^ 31 < d.scale)
    (hhigh : d.scale ≤ 2 ^ 31) (negative : Bool) :
    ofExponentChars negative (exponentChars d) = { d with negative } := by
  cases hd : d.digits with
  | nil =>
    have hread := ofExponentChars_eq 0 [] (by simp) (v := 0) (by norm_num)
      (by norm_num) negative
    have hscale := h.scale_eq hd
    obtain ⟨_, digits, scale⟩ := d
    subst hd hscale
    rw [intChars_zero] at hread
    exact hread
  | cons x rest =>
    have hdigits := h.digits_lt
    rw [hd] at hdigits
    rw [exponentChars_eq hd, ofExponentChars_eq x rest hdigits (by omega) (by omega)]
    have hnormal : Normal ⟨negative, d.digits, d.scale⟩ := ⟨h.1, h.2, h.3, h.4⟩
    have hfixed := normalize_of_normal hnormal
    rw [hd] at hfixed
    rw [sub_add_cancel, hfixed]

end Decimal

end ManagedTypes
