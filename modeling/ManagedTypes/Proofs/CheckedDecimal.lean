import ManagedTypes.Proofs.DecimalBounds

/-! The operations on decimals as a machine does them: digits are replaced in place, nothing is read
outside a list, no digit passes 9, and every decimal on the way is looked at. Where the decimals stay
in a range, all of them succeed with the results of the operations themselves. -/
namespace ManagedTypes.Checked
open Numeral Decimal

/-! ## The carry -/

/-- A carry on its way to the front of a list of digits, and how many of them are still ahead of it. -/
structure Carry where
  digits : List ℕ
  place : ℕ

namespace Carry

/-- A carry goes on, or it is over, having left the front of the list or not. There is no turn for a
digit outside the list or for one above 9. -/
def turn? (c : Carry) : Option (Carry ⊕ Bool × List ℕ) :=
  match c.place with
  | 0 => some (.inr (true, 1 :: c.digits))
  | i + 1 => do
    let d ← c.digits[i]?
    if d = 9 then some (.inl ⟨c.digits.set i 0, i⟩)
    else if d < 9 then some (.inr (false, c.digits.set i (d + 1)))
    else none

/-- Turns until the carry is over, if that takes no more than are allowed. -/
def run? : ℕ → Carry → Option (Bool × List ℕ)
  | 0, _ => none
  | turns + 1, c => c.turn?.bind fun
    | .inl next => run? turns next
    | .inr result => some result

theorem turn?_nine (front tail : List ℕ) :
    turn? ⟨front ++ 9 :: tail, front.length + 1⟩ = some (.inl ⟨front ++ 0 :: tail, front.length⟩) := by
  simp [turn?]

theorem turn?_of_lt (front tail : List ℕ) {d : ℕ} (h : d < 9) :
    turn? ⟨front ++ d :: tail, front.length + 1⟩ = some (.inr (false, front ++ (d + 1) :: tail)) := by
  simp [turn?, h, h.ne]

theorem increment_append_nine (front : List ℕ) :
    increment (front ++ [9]) = ((increment front).1, (increment front).2 ++ [0]) := by
  induction front with
  | nil => rfl
  | cons d front ih =>
    simp only [List.cons_append, increment, ih]
    split
    · split <;> rfl
    · rfl

theorem increment_append_of_ne (front : List ℕ) {d : ℕ} (h : d ≠ 9) :
    increment (front ++ [d]) = (false, front ++ [d + 1]) := by
  induction front with
  | nil => simp [increment, h]
  | cons x front ih => simp [increment, ih]

/-- A list of digits with one more in its last place, however many places that takes. -/
def carried (digits : List ℕ) : Bool × List ℕ :=
  let (carry, rest) := increment digits
  (carry, if carry then 1 :: rest else rest)

/-- The places that the carry has come through hold zeros, and what is behind them stays as it is. The
carry is over in one turn more than there are digits. -/
theorem run?_eq (front tail : List ℕ) (h : ∀ d ∈ front, d < 10) :
    run? (front.length + 1) ⟨front ++ tail, front.length⟩ =
      some ((carried front).1, (carried front).2 ++ tail) := by
  induction front using List.reverseRecOn generalizing tail with
  | nil => rfl
  | append_singleton front d ih =>
    have hfront : ∀ x ∈ front, x < 10 := fun x hx => h x (List.mem_append_left _ hx)
    have hd : d < 10 := h d (by simp)
    rw [List.length_append, List.length_singleton, List.append_assoc, List.singleton_append, run?]
    by_cases hnine : d = 9
    · subst hnine
      rw [turn?_nine, Option.bind_some]
      dsimp only
      rw [ih (0 :: tail) hfront, carried, carried, increment_append_nine]
      dsimp only
      split <;> simp
    · rw [turn?_of_lt front tail (by omega), Option.bind_some, carried,
        increment_append_of_ne front hnine]
      simp

theorem carried_fst (digits : List ℕ) : (carried digits).1 = (increment digits).1 := rfl

theorem carried_snd (digits : List ℕ) : (carried digits).2 =
    if (increment digits).1 then 1 :: (increment digits).2 else (increment digits).2 := rfl

theorem head?_carried {digits : List ℕ} (h : digits.head? ≠ some 0) :
    (carried digits).2.head? ≠ some 0 := by
  rw [carried_snd]
  split
  · simp
  next hcarry =>
    cases digits with
    | nil => simp [increment] at hcarry
    | cons d digits =>
      simp only [increment] at hcarry ⊢
      split
      · split
        · simp_all
        · simp
      · simpa using h

theorem length_carried_le {digits : List ℕ} (h : ∀ d ∈ digits, d < 10) :
    (carried digits).2.length ≤ digits.length + 1 := by
  have hlength := (increment_spec digits h).1
  rw [carried_snd]
  split
  · rw [List.length_cons, hlength]
  · omega

end Carry

/-! ## Decimals -/

/-- Lets every decimal pass that has no more digits than `count` and its point in the range. -/
def Admits (kept? : Decimal → Option Decimal) (count : ℕ) (low high : ℤ) : Prop :=
  ∀ d : Decimal, d.digits.length ≤ count → low ≤ d.scale → d.scale ≤ high → kept? d = some d

theorem admits_some (count : ℕ) (low high : ℤ) : Admits some count low high := fun _ _ _ _ => rfl

/-- Only the decimals of the range pass. -/
def inRange (count : ℕ) (low high : ℤ) (d : Decimal) : Option Decimal :=
  if d.digits.length ≤ count ∧ low ≤ d.scale ∧ d.scale ≤ high then some d else none

theorem admits_inRange (count : ℕ) (low high : ℤ) : Admits (inRange count low high) count low high :=
  fun _ hlength hlow hhigh => if_pos ⟨hlength, hlow, hhigh⟩

section
variable (kept? : Decimal → Option Decimal)

/-- The zeros in front take the point along, and a number without digits is put at scale 0 then. -/
def normalize? (d : Decimal) : Option Decimal := do
  let kept := dropTrailingZeros d.digits
  let leading := (kept.takeWhile (· == 0)).length
  let moved ← kept? ⟨d.negative, kept.drop leading, d.scale - leading⟩
  kept? { moved with scale := if moved.digits.isEmpty then 0 else moved.scale }

def roundTo? (d : Decimal) (keep : ℤ) : Option Decimal :=
  if keep < 0 then kept? ⟨d.negative, [], 0⟩
  else if d.digits.length ≤ keep.toNat then some d
  else do
    let cut ← d.digits[keep.toNat]?
    let head ← kept? { d with digits := d.digits.take keep.toNat }
    if cut < 5 then normalize? kept? head
    else
      let (carry, replaced) ← Carry.run? (keep.toNat + 1) ⟨head.digits, keep.toNat⟩
      let moved ← kept? ⟨d.negative, replaced, if carry then d.scale + 1 else d.scale⟩
      normalize? kept? moved

def percent? (d : Decimal) : Option Decimal :=
  if d.isZero then some d else kept? { d with scale := d.scale + 2 }

/-- The value of a digit character, which no character below the digits has. -/
def digitValue? (c : Char) : Option ℕ := if '0'.toNat ≤ c.toNat then some (digitValue c) else none

def ofDigits? (negative : Bool) (text : List Char) (scale : ℤ) : Option Decimal := do
  let digits ← text.mapM digitValue?
  normalize? kept? (← kept? ⟨negative, digits, scale⟩)

def ofInt? (v : ℤ) : Option Decimal :=
  ofDigits? kept? (v < 0) (chars v.natAbs) (chars v.natAbs).length

def ofExponentChars? (negative : Bool) (text : List Char) : Option Decimal :=
  let mantissa := (text.takeWhile (· != 'e')).filter Char.isDigit
  let exponent := (text.dropWhile (· != 'e')).drop 1
  ofDigits? kept? negative mantissa ((readInt32? exponent).getD 0 + 1)

end

theorem head?_dropTrailingZeros {ds : List ℕ} (h : ds.head? = some 0 → ds = [0]) :
    (dropTrailingZeros ds).head? ≠ some 0 := by
  obtain ⟨n, hn⟩ := dropTrailingZeros_append ds
  intro hzero
  have hhead : ds.head? = some 0 := by
    rw [hn, List.head?_append_of_ne_nil _ (by rintro hnil; simp [hnil] at hzero), hzero]
  rw [h hhead] at hzero
  exact absurd hzero (by decide)

section
variable {kept? : Decimal → Option Decimal} {count : ℕ} {low high : ℤ} {d : Decimal}

/-- A list that begins with no zero, or is a single one, moves no point. -/
theorem normalize?_eq (h : Admits kept? count low high) (hzero : low ≤ 0 ∧ 0 ≤ high)
    (hhead : d.digits.head? = some 0 → d.digits = [0]) (hlength : d.digits.length ≤ count)
    (hlow : low ≤ d.scale) (hhigh : d.scale ≤ high) :
    normalize? kept? d = some d.normalize := by
  set kept := dropTrailingZeros d.digits with hkept
  have hfront : kept.takeWhile (· == 0) = [] := by
    have hne := head?_dropTrailingZeros hhead
    rw [← hkept] at hne
    cases hk : kept with
    | nil => rfl
    | cons x rest => simpa [hk] using hne
  have hback : kept.dropWhile (· == 0) = kept := by
    have hall := List.takeWhile_append_dropWhile (p := (· == 0)) (l := kept)
    rwa [hfront, List.nil_append] at hall
  have hshort : kept.length ≤ count := by
    obtain ⟨n, hn⟩ := dropTrailingZeros_append d.digits
    have hsplit := congrArg List.length hn
    rw [List.length_append, ← hkept] at hsplit
    omega
  have hmoved : kept? ⟨d.negative, kept, d.scale⟩ = some ⟨d.negative, kept, d.scale⟩ :=
    h _ hshort hlow hhigh
  simp only [normalize?, Decimal.normalize, ← hkept, hfront, hback, List.length_nil, Nat.cast_zero, sub_zero,
    List.drop_zero, hmoved, Option.bind_eq_bind, Option.bind_some]
  have hscale : low ≤ (if kept.isEmpty then 0 else d.scale) ∧
      (if kept.isEmpty then 0 else d.scale) ≤ high := by
    split
    · exact hzero
    · exact ⟨hlow, hhigh⟩
  exact h _ hshort hscale.1 hscale.2

theorem percent?_eq (h : Admits kept? count low (high + 2)) (hd : d.Within count low high) :
    percent? kept? d = some d.percent := by
  have hlow := hd.low_le
  have hhigh := hd.le_high
  unfold percent? percent
  split
  · rfl
  · exact h _ hd.length_le (by dsimp only; omega) (by dsimp only; omega)

theorem roundTo?_eq (h : Admits kept? count low (high + 1)) (hzero : low ≤ 0 ∧ 0 ≤ high)
    (hd : d.Within count low high) (keep : ℤ) :
    roundTo? kept? d keep = some (d.roundTo keep) := by
  have hlow := hd.low_le
  have hhigh := hd.le_high
  have hlength := hd.length_le
  have hwide : low ≤ 0 ∧ 0 ≤ high + 1 := by omega
  rcases lt_or_ge keep 0 with hneg | hpos
  · rw [roundTo?, if_pos hneg, roundTo_of_neg hneg]
    exact h _ (Nat.zero_le _) hwide.1 hwide.2
  obtain ⟨k, rfl⟩ := Int.eq_ofNat_of_zero_le hpos
  rcases le_or_gt d.digits.length k with hlen | hlen
  · rw [roundTo_of_length_le hlen]
    simp [roundTo?, hlen]
  have hcut : d.digits[k]? = some (d.digitAt k) := by
    simp [digitAt, hlen]
  have htake : (d.digits.take k).length = k := List.length_take_of_le hlen.le
  have hlt : ∀ x ∈ d.digits.take k, x < 10 := fun x hx =>
    hd.normal.digits_lt x (List.mem_of_mem_take hx)
  have hfirst : (d.digits.take k).head? ≠ some 0 := by
    intro hz
    rw [List.head?_take] at hz
    split at hz
    · cases hz
    · exact hd.normal.head_ne hz
  have hhead : kept? { d with digits := d.digits.take k } =
      some { d with digits := d.digits.take k } := h _ (by dsimp only; omega) hlow (by dsimp only; omega)
  have hrun : Carry.run? (k + 1) ⟨d.digits.take k, k⟩ = some (Carry.carried (d.digits.take k)) := by
    have hrun := Carry.run?_eq (d.digits.take k) [] hlt
    rwa [htake, List.append_nil, List.append_nil] at hrun
  simp only [roundTo?, roundTo, Int.toNat_natCast, not_lt.mpr (Int.natCast_nonneg k), if_false,
    not_le.mpr hlen, hcut, hhead, hrun, Option.bind_eq_bind, Option.bind_some]
  split
  · exact normalize?_eq h hwide (fun hz => absurd hz hfirst) (by dsimp only; omega) hlow
      (by dsimp only; omega)
  · have hcarried := Carry.length_carried_le hlt
    have hscale : low ≤ (if (Carry.carried (d.digits.take k)).1 then d.scale + 1 else d.scale) ∧
        (if (Carry.carried (d.digits.take k)).1 then d.scale + 1 else d.scale) ≤ high + 1 := by
      split <;> omega
    rw [htake] at hcarried
    rw [h _ (by dsimp only; omega) hscale.1 hscale.2, Option.bind_some,
      normalize?_eq h hwide (fun hz => absurd hz (Carry.head?_carried hfirst))
        (by dsimp only; omega) hscale.1 hscale.2]
    rw [Carry.carried_fst, Carry.carried_snd]
    split <;> rfl

theorem mapM_eq_some {α β : Type} {f : α → Option β} {g : α → β} {xs : List α}
    (h : ∀ x ∈ xs, f x = some (g x)) : xs.mapM f = some (xs.map g) := by
  induction xs with
  | nil => rfl
  | cons x xs ih =>
    rw [List.mapM_cons, h x (by simp), ih fun y hy => h y (by simp [hy])]
    rfl

theorem digitValue?_lowerChar {x : ℕ} (h : x < 10) : digitValue? (lowerChar x) = some x := by
  revert x
  decide

theorem ofDigits?_eq (h : Admits kept? count low high) (hzero : low ≤ 0 ∧ 0 ≤ high) {ds : List ℕ}
    (hlt : ∀ x ∈ ds, x < 10) (hhead : ds.head? = some 0 → ds = [0]) (hlength : ds.length ≤ count)
    {scale : ℤ} (hlow : low ≤ scale) (hhigh : scale ≤ high) (negative : Bool) :
    ofDigits? kept? negative (ds.map lowerChar) scale =
      some (Decimal.normalize ⟨negative, ds, scale⟩) := by
  have hdigits : (ds.map lowerChar).mapM digitValue? = some ds := by
    rw [mapM_eq_some (g := digitValue), map_digitValue hlt]
    intro c hc
    obtain ⟨x, hx, rfl⟩ := List.mem_map.mp hc
    rw [digitValue?_lowerChar (hlt x hx), digitValue_lowerChar (hlt x hx)]
  simp only [ofDigits?, hdigits, Option.bind_eq_bind, Option.bind_some,
    h ⟨negative, ds, scale⟩ hlength hlow hhigh]
  exact normalize?_eq h hzero hhead hlength hlow hhigh

theorem ofInt?_eq (h : Admits kept? count low high) (hzero : low ≤ 0 ∧ 0 ≤ high) {v : ℤ}
    (hv : v.natAbs < 10 ^ count) (hcount : 0 < count) (hhigh : (count : ℤ) ≤ high) :
    ofInt? kept? v = some (Decimal.ofInt v) := by
  have hlength := (length_digits_le_iff (by norm_num) hcount).mpr hv
  have hhead : (Numeral.digits 10 v.natAbs).head? = some 0 → Numeral.digits 10 v.natAbs = [0] := by
    intro hz
    rcases Nat.eq_zero_or_pos v.natAbs with hnil | hpos
    · rw [hnil, digits_of_lt (by norm_num)]
    · exact absurd hz (head_digits hpos)
  rw [ofInt?, chars, List.length_map, ofDigits?_eq h hzero (digits_lt (by norm_num)) hhead hlength
    (by omega) (by omega), Decimal.ofInt, scaled]
  simp

/-- Text that begins with a zero has no other digit here. -/
theorem ofExponentChars?_eq (h : Admits kept? count low high) (hzero : low ≤ 0 ∧ 0 ≤ high)
    {text : List Char} {first : ℕ} {rest : List ℕ} {exponent : ℤ}
    (htext : IsExponentText text first rest exponent) (hfirst : first = 0 → rest = [])
    (hlength : (first :: rest).length ≤ count) (hlow : low ≤ exponent + 1)
    (hhigh : exponent + 1 ≤ high) (negative : Bool) :
    ofExponentChars? kept? negative text = some (ofExponentChars negative text) := by
  obtain ⟨hmantissa, hexponent⟩ := exponentChars_parts first rest htext.digits_lt (intChars exponent)
  have hleast := htext.low_le
  have hgreatest := htext.le_high
  have hread : readInt32? (intChars exponent) = some exponent :=
    readInt32?_intChars (by omega) (by omega)
  rw [htext.text_eq, ofExponentChars_eq first rest htext.digits_lt (by omega) (by omega)]
  simp only [ofExponentChars?, hmantissa, hexponent, hread, Option.getD_some]
  refine ofDigits?_eq h hzero htext.digits_lt (fun hz => ?_) hlength hlow hhigh negative
  obtain rfl : first = 0 := by simpa using hz
  rw [hfirst rfl]

end

end ManagedTypes.Checked
