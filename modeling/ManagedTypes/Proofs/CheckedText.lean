import ManagedTypes.Proofs.CheckedDecimal
import ManagedTypes.Proofs.FormatGrammar

/-! Every text of a payload is written without a number that its machine word cannot hold: the
decimals stay in one range from the payload to the last rounding, and positions, exponents and
character codes follow from them. -/
namespace ManagedTypes
open Numeral

namespace Checked

def int32? (v : ℤ) : Option ℤ := if -0x80000000 ≤ v ∧ v ≤ 0x7FFFFFFF then some v else none

/-- The character of a digit, if its code is a byte. -/
def char? (d : ℕ) : Option Char :=
  if '0'.toNat + d < 256 then some (Char.ofNat ('0'.toNat + d)) else none

/-- Every position is computed before the digit there is read. -/
def digitsFrom? (d : Decimal) (start : ℤ) (count : ℕ) : Option (List Char) :=
  (List.range count).mapM fun (k : ℕ) => do char? (d.digitAt (← int32? (start + k)))

def integral? (d : Decimal) : Option (List Char) :=
  if d.scale ≤ 0 then some ['0'] else digitsFrom? d 0 d.scale.toNat

section
variable (symbols : NumberSymbols) (kept? : Decimal → Option Decimal)

/-- Places behind the separator, which is left out with them. -/
def places? (d : Decimal) (start : ℤ) (count : ℕ) : Option (List Char) :=
  if count = 0 then some []
  else do return symbols.decimalSeparator.toList ++ (← digitsFrom? d start count)

def fixed? (d : Decimal) (decimals : ℕ) (grouped : Bool) : Option (List Char) := do
  let keep ← int32? (d.scale + (← int32? decimals))
  let r ← roundTo? kept? d keep
  let whole ← integral? r
  let tail ← places? symbols r r.scale decimals
  return Writer.sign symbols r.negative ++ (if grouped then Writer.group symbols whole else whole) ++ tail

/-- The exponent of the first digit, and 0 for a zero. -/
def exponent? (d : Decimal) : Option ℤ := if d.isZero then some 0 else int32? (d.scale - 1)

def scientific? (d : Decimal) (decimals : ℕ) (marker : Char) : Option (List Char) := do
  let keep ← int32? ((← int32? decimals) + 1)
  let r ← roundTo? kept? d keep
  let e ← exponent? r
  let lead ← digitsFrom? r 0 1
  let tail ← places? symbols r 1 decimals
  return Writer.sign symbols r.negative ++ lead ++ tail ++ marker :: Writer.exponent symbols e 3

def significant? (d : Decimal) (limit : Option ℕ) : Option (List Char) :=
  let tooLong := limit.any fun (n : ℕ) => (n : ℤ) < d.scale
  if d.isZero then some (Writer.sign symbols d.negative ++ ['0'])
  else if d.scale < -3 || tooLong then do
    let lead ← digitsFrom? d 0 1
    let tail ← (d.digits.drop 1).mapM char?
    let e ← int32? (d.scale - 1)
    return Writer.sign symbols d.negative ++
      (lead ++ (if d.digits.length ≤ 1 then [] else symbols.decimalSeparator.toList ++ tail) ++
        'E' :: Writer.exponent symbols e 2)
  else do
    let fractional ← int32? ((← int32? d.digits.length) - max d.scale 0)
    let whole ← integral? d
    let tail ← digitsFrom? d (max d.scale 0) fractional.toNat
    return Writer.sign symbols d.negative ++
      (whole ++ if fractional ≤ 0 then []
        else symbols.decimalSeparator.toList ++ List.replicate (-d.scale).toNat '0' ++ tail)

def general? (d : Decimal) (precision threshold : Option ℕ) : Option (List Char) :=
  match precision with
  | some n => do significant? symbols (← roundTo? kept? d (← int32? n)) (some n)
  | none => significant? symbols d (threshold.map (max d.digits.length))

def styled? (f : FormatString) (s : Style) (t : PayloadType) (d : Decimal) : Option (List Char) :=
  match s with
  | .fixed => fixed? symbols kept? d (f.precision.getD 2) false
  | .number => fixed? symbols kept? d (f.precision.getD 2) true
  | .percent => do
    let text ← fixed? symbols kept? (← percent? kept? d) (f.precision.getD 2) true
    return text ++ ' ' :: symbols.percentSymbol.toList
  | .scientific => scientific? symbols kept? d (f.precision.getD 6) (if f.letter = 'e' then 'e' else 'E')
  | .roundTrip => general? symbols kept? d none t.positionalDigits
  | .general => general? symbols kept? d (f.precision.filter (0 < ·)) t.positionalDigits

end

/-- Lets the decimals pass that a payload's texts are written from. -/
def kept? (p : Payload) : Decimal → Option Decimal := inRange p.digitCount (-323) 312

def numeric? (p : Payload) : Option Numeric :=
  match p.content with
  | .integer v => do return .decimal (← ofInt? (kept? p) v)
  | .float f pattern =>
    match f.decode pattern with
    | .nan => some (.special .nan)
    | .infinite negative => some (.special (if negative then .negativeInfinity else .positiveInfinity))
    | .finite _ _ => do
      return .decimal (← ofExponentChars? (kept? p) (f.isNegative pattern) (Decimal.shortestChars f pattern))

/-- Only the numeric styles look at a payload's decimal. -/
def write? (symbols : NumberSymbols) (f : FormatString) (p : Payload) :
    Option (Except FormatFault String) :=
  match Specifier.ofLetter? f.letter with
  | some (.numeric s) => do
    match ← numeric? p with
    | .special symbol => return .ok (symbols.text symbol)
    | .decimal d => return .ok (String.ofList (← styled? symbols (kept? p) f s p.type d))
  | _ => some (Standard.write symbols f p)

def format? (symbols : NumberSymbols) (text : String) (p : Payload) :
    Option (Except FormatFault String) :=
  match FormatString.parse text with
  | .error fault => some (.error fault)
  | .ok f => write? symbols f p

def canonical? (p : Payload) : Option String := do
  match ← numeric? p with
  | .special symbol => return NumberSymbols.invariant.text symbol
  | .decimal d => return String.ofList (← general? .invariant (kept? p) d none p.type.positionalDigits)

theorem bind_eq {α β : Type} {x : Option α} {a : α} (h : x = some a) (f : α → Option β) :
    (x >>= f) = f a := by
  rw [h]
  rfl

theorem int32?_eq {v : ℤ} (hlow : -2 ^ 31 ≤ v) (hhigh : v < 2 ^ 31) : int32? v = some v :=
  if_pos ⟨hlow, Int.le_of_lt_add_one hhigh⟩

theorem char?_eq {x : ℕ} (h : x < 10) : char? x = some (lowerChar x) := by
  revert x
  decide

section
variable {d : Decimal}

theorem digitsFrom?_eq (h : ∀ x ∈ d.digits, x < 10) (start : ℤ) (count : ℕ) (hlow : -2 ^ 31 ≤ start)
    (hhigh : start + count < 2 ^ 31) :
    digitsFrom? d start count = some (Writer.digitsFrom d start count) := by
  refine mapM_eq_some fun k hk => ?_
  have hlt := List.mem_range.mp hk
  rw [int32?_eq (by omega) (by omega), Option.bind_eq_bind, Option.bind_some,
    char?_eq (Layout.digitAt_lt h _)]

theorem integral?_eq (h : ∀ x ∈ d.digits, x < 10) (hhigh : d.scale < 2 ^ 31) :
    integral? d = some (Writer.integral d) := by
  unfold integral? Writer.integral
  split
  · rfl
  · exact digitsFrom?_eq h 0 _ (by norm_num) (by omega)

theorem exponent?_eq (hlow : -2 ^ 31 < d.scale) (hhigh : d.scale < 2 ^ 31) :
    exponent? d = some (if d.isZero then 0 else d.scale - 1) := by
  unfold exponent?
  split
  · rfl
  · exact int32?_eq (by omega) (by omega)

theorem places?_eq (symbols : NumberSymbols) (h : ∀ x ∈ d.digits, x < 10) (start : ℤ) (count : ℕ)
    (hlow : -2 ^ 31 ≤ start) (hhigh : start + count < 2 ^ 31) :
    places? symbols d start count = some (if count = 0 then []
      else symbols.decimalSeparator.toList ++ Writer.digitsFrom d start count) := by
  unfold places?
  split
  · rfl
  · rw [digitsFrom?_eq h start count hlow hhigh]
    rfl

end

section
variable (symbols : NumberSymbols) {kept? : Decimal → Option Decimal} {count : ℕ}
  (h : Admits kept? count (-323) 312) {d : Decimal}
include h

theorem roundTo?_eq_some (hd : d.Within count (-323) 311) (keep : ℤ) :
    roundTo? kept? d keep = some (d.roundTo keep) ∧ (d.roundTo keep).Within count (-323) 312 := by
  have hnext : Admits kept? count (-323) (311 + 1) := h
  exact ⟨roundTo?_eq hnext (by norm_num) hd keep, hd.roundTo (by norm_num) (by norm_num) keep⟩

theorem fixed?_eq (hd : d.Within count (-323) 311) {decimals : ℕ} (hdecimals : decimals ≤ 99)
    (grouped : Bool) :
    fixed? symbols kept? d decimals grouped = some (Writer.fixed symbols d decimals grouped) := by
  obtain ⟨hround, hr⟩ := roundTo?_eq_some h hd (d.scale + decimals)
  have hlow := hd.low_le
  have hhigh := hd.le_high
  have hleast := hr.low_le
  have hgreatest := hr.le_high
  have hplaces : int32? decimals = some (decimals : ℤ) := int32?_eq (by omega) (by omega)
  have hkeep : int32? (d.scale + decimals) = some (d.scale + decimals) :=
    int32?_eq (by omega) (by omega)
  have hwhole := integral?_eq hr.normal.digits_lt (by omega)
  have htail := places?_eq symbols hr.normal.digits_lt (d.roundTo (d.scale + decimals)).scale decimals
    (by omega) (by omega)
  rw [fixed?, bind_eq hplaces, bind_eq hkeep, bind_eq hround, bind_eq hwhole, bind_eq htail]
  rfl

theorem scientific?_eq (hd : d.Within count (-323) 311) {decimals : ℕ} (hdecimals : decimals ≤ 99)
    (marker : Char) :
    scientific? symbols kept? d decimals marker = some (Writer.scientific symbols d decimals marker) := by
  obtain ⟨hround, hr⟩ := roundTo?_eq_some h hd (decimals + 1)
  have hleast := hr.low_le
  have hgreatest := hr.le_high
  have hplaces : int32? decimals = some (decimals : ℤ) := int32?_eq (by omega) (by omega)
  have hkeep : int32? ((decimals : ℤ) + 1) = some ((decimals : ℤ) + 1) :=
    int32?_eq (by omega) (by omega)
  have hexponent := exponent?_eq (d := d.roundTo (decimals + 1)) (by omega) (by omega)
  have hlead := digitsFrom?_eq hr.normal.digits_lt 0 1 (by norm_num) (by norm_num)
  have htail := places?_eq symbols hr.normal.digits_lt 1 decimals (by norm_num) (by omega)
  rw [scientific?, bind_eq hplaces, bind_eq hkeep, bind_eq hround, bind_eq hexponent, bind_eq hlead,
    bind_eq htail]
  rfl

omit h in
theorem significant?_eq (hd : d.Within count (-323) 312) (hcount : count ≤ 20) (limit : Option ℕ) :
    significant? symbols d limit = some (Writer.significant symbols d limit) := by
  have hlow := hd.low_le
  have hhigh := hd.le_high
  have hlength := hd.length_le
  have hdigits := hd.normal.digits_lt
  unfold significant? Writer.significant
  dsimp only
  split
  · rfl
  split
  · have htail : (d.digits.drop 1).mapM char? = some ((d.digits.drop 1).map lowerChar) :=
      mapM_eq_some fun x hx => char?_eq (hdigits x (List.mem_of_mem_drop hx))
    have hlead := digitsFrom?_eq hdigits 0 1 (by norm_num) (by norm_num)
    have hexponent : int32? (d.scale - 1) = some (d.scale - 1) := int32?_eq (by omega) (by omega)
    rw [bind_eq hlead, bind_eq htail, bind_eq hexponent]
    rfl
  · have hwidth : int32? d.digits.length = some (d.digits.length : ℤ) :=
      int32?_eq (by omega) (by omega)
    have hfractional : int32? (d.digits.length - max d.scale 0) =
        some (d.digits.length - max d.scale 0) := int32?_eq (by omega) (by omega)
    have hcut : ((d.digits.length : ℤ) - max d.scale 0).toNat = d.digits.length - d.scale.toNat := by
      omega
    have hnone : ((d.digits.length : ℤ) - max d.scale 0 ≤ 0) = (d.digits.length - d.scale.toNat = 0) := by
      rw [eq_iff_iff]
      omega
    have hwhole := integral?_eq hdigits (by omega)
    have htail := digitsFrom?_eq hdigits (max d.scale 0) (d.digits.length - d.scale.toNat) (by omega)
      (by omega)
    rw [bind_eq hwidth, bind_eq hfractional, bind_eq hwhole, hcut, bind_eq htail]
    simp only [hnone, pure]

theorem general?_eq (hd : d.Within count (-323) 311) (hcount : count ≤ 20) (precision : Option ℕ)
    (hprecision : ∀ n ∈ precision, n ≤ 99) (threshold : Option ℕ) :
    general? symbols kept? d precision threshold =
      some (Writer.general symbols d precision threshold) := by
  cases precision with
  | none => exact significant?_eq symbols (hd.mono le_rfl le_rfl (by norm_num)) hcount _
  | some n =>
    have hn := hprecision n rfl
    obtain ⟨hround, hr⟩ := roundTo?_eq_some h hd n
    have hkeep : int32? n = some (n : ℤ) := int32?_eq (by omega) (by omega)
    rw [general?, bind_eq hkeep, bind_eq hround]
    exact significant?_eq symbols hr hcount _

theorem styled?_eq (hd : d.Within count (-323) 309) (hcount : count ≤ 20) {f : FormatString}
    (hprecision : ∀ n ∈ f.precision, n ≤ 99) (s : Style) (t : PayloadType) :
    styled? symbols kept? f s t d = some (Standard.styled symbols f s t d) := by
  have hwide : d.Within count (-323) 311 := hd.mono le_rfl le_rfl (by norm_num)
  have hgetD {n : ℕ} (hn : n ≤ 99) : f.precision.getD n ≤ 99 := by
    cases hp : f.precision with
    | none => exact hn
    | some m => exact hprecision m hp
  cases s with
  | fixed => exact fixed?_eq symbols h hwide (hgetD (by norm_num)) false
  | number => exact fixed?_eq symbols h hwide (hgetD (by norm_num)) true
  | percent =>
    have hadmits : Admits kept? count (-323) (309 + 2) := fun e hlength hlow hhigh =>
      h e hlength hlow (hhigh.trans (by norm_num))
    have hhundred := percent?_eq hadmits hd
    have hfixed := fixed?_eq symbols h hd.percent (hgetD (by norm_num : 2 ≤ 99)) true
    rw [styled?, bind_eq hhundred, bind_eq hfixed]
    rfl
  | scientific => exact scientific?_eq symbols h hwide (hgetD (by norm_num)) _
  | roundTrip => exact general?_eq symbols h hwide hcount none nofun _
  | general =>
    refine general?_eq symbols h hwide hcount (f.precision.filter (0 < ·)) (fun n hn => ?_) _
    exact hprecision n (Option.filter_eq_some_iff.mp hn).1

end

section
variable {p : Payload}

theorem admits_kept? (p : Payload) : Admits (kept? p) p.digitCount (-323) 312 :=
  admits_inRange p.digitCount (-323) 312

theorem digitCount_le (p : Payload) : p.digitCount ≤ 20 := by
  unfold Payload.digitCount
  split <;> norm_num

theorem numeric?_eq (p : Payload) : numeric? p = some p.numeric := by
  have h := admits_kept? p
  cases hc : p.content with
  | integer v =>
    obtain ⟨hcount, hv⟩ := Payload.natAbs_lt_of_content hc
    have hint := ofInt?_eq h (by norm_num) (hcount ▸ hv) (by rw [hcount]; norm_num)
      (by rw [hcount]; norm_num)
    simp only [numeric?, Payload.numeric, hc, bind_eq hint, pure]
  | float f pattern =>
    simp only [numeric?, Payload.numeric, hc, Numeric.ofBits]
    cases hdecode : f.decode pattern with
    | nan => rfl
    | infinite negative => rfl
    | finite negative magnitude =>
      have hfinite := (Ieee.Format.decode_eq_finite_iff.mp hdecode).1
      have hcount : p.digitCount = 17 := by rw [Payload.digitCount, Payload.integer?, hc]; rfl
      obtain ⟨first, rest, exponent, htext, hfirst⟩ :=
        Decimal.isExponentText_shortestChars (Payload.ieee_cases hc) hfinite
      have hlow := htext.low_le
      have hhigh := htext.le_high
      have hread := ofExponentChars?_eq h (by norm_num) htext hfirst (hcount ▸ htext.length_le)
        (by omega) (by omega) (f.isNegative pattern)
      rw [bind_eq hread]
      rfl

theorem write?_eq (symbols : NumberSymbols) {f : FormatString} (hprecision : ∀ n ∈ f.precision, n ≤ 99)
    (p : Payload) : write? symbols f p = some (Standard.write symbols f p) := by
  unfold write?
  split
  next s hstyle =>
    rw [bind_eq (numeric?_eq p), Standard.write, hstyle]
    cases hnumeric : p.numeric with
    | special symbol => rfl
    | decimal d =>
      have hstyled := styled?_eq symbols (admits_kept? p) (Payload.within_numeric hnumeric)
        (digitCount_le p) hprecision s p.type
      exact bind_eq hstyled _
  · rfl

theorem format?_eq (symbols : NumberSymbols) (text : String) (p : Payload) :
    format? symbols text p = some (Standard.format symbols text p) := by
  unfold format? Standard.format
  cases hparse : FormatString.parse text with
  | error fault => rfl
  | ok f =>
    obtain ⟨digits, -, -, -, hbound, hprecision⟩ := FormatString.parse_eq_ok_iff.mp hparse
    refine write?_eq symbols (fun n hn => ?_) p
    rw [hprecision, FormatString.precisionOf] at hn
    split at hn
    · cases hn
    · cases hn
      exact hbound

theorem canonical?_eq (p : Payload) : canonical? p = some (Standard.canonical p) := by
  rw [canonical?, bind_eq (numeric?_eq p), Standard.canonical]
  cases hnumeric : p.numeric with
  | special symbol => rfl
  | decimal d =>
    have hgeneral := general?_eq .invariant (admits_kept? p)
      ((Payload.within_numeric hnumeric).mono le_rfl le_rfl (by norm_num)) (digitCount_le p) none nofun
      p.type.positionalDigits
    exact bind_eq hgeneral _

end

/-- Integers and exponent texts become exact decimals in normal form; rounding one gives the normal form
of the exactly rounded number, in a loop that ends and leaves no list of digits, and once is enough.
From a payload to its text no decimal leaves the range of 20 or 17 digits and scales from -323 to 312,
so that all positions, exponents and character codes fit their words. -/
theorem decimals_exact_in_range :
    (∀ v : ℤ, (Decimal.ofInt v).Represents (decide (v < 0)) |(v : ℚ)|) ∧
    (∀ (negative : Bool) (text : List Char) (first : ℕ) (rest : List ℕ) (exponent : ℤ),
      Decimal.IsExponentText text first rest exponent →
      ∃ x, readMagnitude? 'e' text = some x ∧
        (Decimal.ofExponentChars negative text).Represents negative x) ∧
    (∀ (f : Ieee.Format) (bits : ℕ), f = Ieee.single ∨ f = Ieee.double → f.isFinite bits = true →
      ∃ first rest exponent,
        Decimal.IsExponentText (Decimal.shortestChars f bits) first rest exponent) ∧
    (∀ d : Decimal, d.Normal → ∀ keep : ℤ,
      let r := d.roundTo keep
      let unit : ℚ := 10 ^ (d.scale - keep)
      r.Represents d.negative (Decimal.roundHalf (d.magnitude / unit) * unit) ∧
      (keep < 0 → r.magnitude = 0) ∧ roundTo? some d keep = some r ∧
      r.roundTo (r.scale + (keep - d.scale)) = r) ∧
    (∀ (p : Payload) (d : Decimal), p.numeric = .decimal d → ∀ e ∈ [d, d.percent],
      e.Within p.digitCount (-323) 312 ∧ ∀ keep, (e.roundTo keep).Within p.digitCount (-323) 312) ∧
    ∀ (symbols : NumberSymbols) (text : String) (p : Payload),
      format? symbols text p = some (Standard.format symbols text p) ∧
      canonical? p = some (Standard.canonical p) := by
  refine ⟨fun v => ?_, fun negative text first rest exponent => Decimal.represents_ofExponentChars negative,
    fun f bits hf hfinite => ?_, fun d hd keep => ?_, fun p d hnumeric e he => ?_,
    fun symbols text p => ⟨format?_eq symbols text p, canonical?_eq p⟩⟩
  · have hv := (Decimal.normal_ofInt v).represents
    rwa [Decimal.magnitude_ofInt, Int.cast_abs] at hv
  · obtain ⟨first, rest, exponent, htext, -⟩ := Decimal.isExponentText_shortestChars hf hfinite
    exact ⟨first, rest, exponent, htext⟩
  · intro r unit
    have hr : r.Normal := Decimal.normal_roundTo hd keep
    have hmagnitude : r.magnitude = Decimal.roundHalf (d.magnitude / unit) * unit := by
      rw [Decimal.magnitude_roundTo hd.digits_lt, div_eq_mul_inv, ← zpow_neg, neg_sub]
    have hwithin : d.Within d.digits.length (min d.scale 0) (max d.scale 0) :=
      ⟨hd, le_rfl, min_le_left _ _, le_max_left _ _⟩
    refine ⟨?_, fun hneg => ?_, ?_, Decimal.roundTo_roundTo hd keep⟩
    · have hrepresents := hr.represents
      rwa [Decimal.roundTo_negative, hmagnitude] at hrepresents
    · rw [hr.magnitude_eq_zero_iff]
      exact congrArg Decimal.digits (Decimal.roundTo_of_neg hneg)
    · exact roundTo?_eq (admits_some _ _ _) ⟨min_le_right _ _, le_max_right _ _⟩ hwithin keep
  · have hd := Payload.within_numeric hnumeric
    have hwide : e.Within p.digitCount (-323) 311 := by
      rcases List.mem_pair.mp he with rfl | rfl
      · exact hd.mono le_rfl le_rfl (by norm_num)
      · exact hd.percent
    exact ⟨hwide.mono le_rfl le_rfl (by norm_num), fun keep => hwide.roundTo (by norm_num) (by norm_num) keep⟩

end Checked

end ManagedTypes
