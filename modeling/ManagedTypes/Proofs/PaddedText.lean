import ManagedTypes.Proofs.FormatGrammar
import ManagedTypes.Proofs.IntegerConversion

/-! Decimal and hexadecimal digits of an integer, padded to a width. They read back as the integer: the
decimals as its magnitude, the hexadecimal digits as its bits at the native width. -/
namespace ManagedTypes
open Numeral

namespace Numeral

/-- The number that a text stands for in an alphabet of digits, which is as long as its base is great. -/
def readIn? (alphabet text : List Char) : Option ℕ :=
  (text.mapM fun c => alphabet.idxOf? c).map (value alphabet.length)

/-- A text of as many digits as its number needs, or of `width` digits if that is more. -/
structure IsNumeralIn (alphabet : List Char) (width n : ℕ) (text : List Char) : Prop where
  reads : readIn? alphabet text = some n
  length_eq : ∃ count, IsLeast {k | 0 < k ∧ n < alphabet.length ^ k} count ∧
    text.length = max width count

def decimalDigits : List Char := "0123456789".toList
def lowerDigits : List Char := "0123456789abcdef".toList
def upperDigits : List Char := "0123456789ABCDEF".toList

theorem isLeast_length_digits {base : ℕ} (hb : 2 ≤ base) (n : ℕ) :
    IsLeast {k | 0 < k ∧ n < base ^ k} (digits base n).length := by
  have hpos := List.length_pos_iff.mpr (digits_ne_nil base n)
  exact ⟨⟨hpos, (length_digits_le_iff hb hpos).mp le_rfl⟩,
    fun k hk => (length_digits_le_iff hb hk.1).mpr hk.2⟩

/-- Digits written in an alphabet read as their value. -/
theorem readIn?_map {alphabet : List Char} {digit : ℕ → Char}
    (h : ∀ d < alphabet.length, alphabet.idxOf? (digit d) = some d) {ds : List ℕ}
    (hds : ∀ d ∈ ds, d < alphabet.length) :
    readIn? alphabet (ds.map digit) = some (value alphabet.length ds) := by
  have hall : (ds.map digit).mapM (fun c => alphabet.idxOf? c) = some ds := by
    induction ds with
    | nil => rfl
    | cons d ds ih =>
      obtain ⟨hd, hrest⟩ := List.forall_mem_cons.mp hds
      simp [h d hd, ih hrest]
  rw [readIn?, hall, Option.map_some]

theorem isNumeralIn_padded {alphabet : List Char} {digit : ℕ → Char} (hbase : 2 ≤ alphabet.length)
    (h : ∀ d < alphabet.length, alphabet.idxOf? (digit d) = some d) (width n : ℕ) :
    IsNumeralIn alphabet width n ((padded width (digits alphabet.length n)).map digit) where
  reads := by rw [readIn?_map h (padded_lt hbase width n), value_padded]
  length_eq := ⟨_, isLeast_length_digits hbase n, by rw [List.length_map, length_padded]⟩

end Numeral

namespace Payload

theorem pattern?_of_integer? {p : Payload} {v : ℤ} (h : p.integer? = some v) :
    p.pattern? = some p.toNat := by
  rw [pattern?, content_of_integer? h]

/-- The bits of an integral payload are its integer modulo a power of two. -/
theorem natCast_toNat {p : Payload} {v : ℤ} (h : p.integer? = some v) :
    (p.toNat : ℤ) = v % 2 ^ p.type.width := by
  have hlt : (p.bits.toNat : ℤ) < 2 ^ p.type.width := by exact_mod_cast p.bits.isLt
  have hsmall : (p.bits.toNat : ℤ) % 2 ^ p.type.width = p.bits.toNat :=
    Int.emod_eq_of_lt (Int.natCast_nonneg _) hlt
  rcases integer_cases h with ⟨-, -, rfl⟩ | ⟨-, -, rfl⟩
  · have hmod := Int.bmod_emod (x := p.bits.toNat) (m := 2 ^ p.type.width)
    push_cast at hmod
    rw [BitVec.toInt_eq_toNat_bmod, hmod, hsmall, toNat]
  · rw [hsmall, toNat]

/-- The bits read as a number of the payload's type give its integer back. -/
theorem toNat_cases {p : Payload} {v : ℤ} (h : p.integer? = some v) :
    (p.type.format = .signed ∧ (p.toNat : ℤ).bmod (2 ^ p.type.width) = v) ∨
      (p.type.format = .unsigned ∧ (p.toNat : ℤ) = v) := by
  rcases integer_cases h with ⟨-, hs, hv⟩ | ⟨-, hs, hv⟩
  · exact .inl ⟨hs, hv ▸ (BitVec.toInt_eq_toNat_bmod p.bits).symm⟩
  · exact .inr ⟨hs, hv⟩

end Payload

namespace NumberFormatter
open FormatString

/-- Padded digits of every integer, under every precision that a format string can have; a precision left
out pads nothing. The sign of a decimal is not counted as one of its digits, and hexadecimal digits have
no sign: they are those of the integer's bits, from which it can be told again. -/
theorem standard_padded_digits (own : NumberSymbols) (provider : Option NumberSymbols) (p : Payload)
    (v : ℤ) (hv : p.integer? = some v) (precision : List Char)
    (hdigits : ∀ c ∈ precision, c.isDigit = true)
    (hbound : value 10 (precision.map digitValue) ≤ 99) :
    let symbols := provider.getD own
    let width := value 10 (precision.map digitValue)
    let written (letter : Char) (text : List Char) :=
      (standard own).format (String.ofList (letter :: precision)) provider p =
        .ok (String.ofList text)
    (∃ text, IsNumeralIn decimalDigits width v.natAbs text ∧ ∀ letter ∈ ['D', 'd'],
      written letter ((if v < 0 then symbols.negativeSign.toList else []) ++ text)) ∧
    ∃ n : ℕ, (n : ℤ) = v % 2 ^ p.type.width ∧
      (p.type.format = .signed → (n : ℤ).bmod (2 ^ p.type.width) = v) ∧
      (p.type.format = .unsigned → (n : ℤ) = v) ∧ Payload.ofNat p.type n = p ∧
      (∃ text, IsNumeralIn upperDigits width n text ∧ written 'X' text) ∧
      ∃ text, IsNumeralIn lowerDigits width n text ∧ written 'x' text := by
  intro symbols width written
  have hwidth : (precisionOf precision).getD 0 = width := getD_precisionOf precision
  have hstandard (letter : Char) (hletter : letter ∈ Specifier.letters) :
      IsStandard p letter precision := ⟨hletter, hdigits, hbound, fun _ => by rw [hv]; rfl⟩
  have hdecimal (letter : Char) (hletter : letter ∈ ['D', 'd']) :
      written letter ((if v < 0 then symbols.negativeSign.toList else []) ++
        (padded width (digits 10 v.natAbs)).map lowerChar) := by
    have hspecifier : Specifier.ofLetter? letter = some .decimal ∧ letter ∈ Specifier.letters := by
      fin_cases hletter <;> decide
    show (standard own).format _ provider p = _
    rw [standard_of_template (hstandard letter hspecifier.2)
      (Standard.template_decimal hspecifier.1 hv), Standard.render_decimal, hwidth]
  have hhexadecimal (letter : Char) (hletter : letter ∈ ['X', 'x']) :
      written letter ((padded width (digits 16 p.toNat)).map
        (if letter == 'x' then lowerChar else upperChar)) := by
    have hspecifier :
        Specifier.ofLetter? letter = some .hexadecimal ∧ letter ∈ Specifier.letters := by
      fin_cases hletter <;> decide
    show (standard own).format _ provider p = _
    rw [standard_of_template (hstandard letter hspecifier.2)
      (Standard.template_hexadecimal hspecifier.1 (Payload.pattern?_of_integer? hv)),
      Standard.render_hexadecimal, hwidth]
  refine ⟨⟨_, isNumeralIn_padded (by decide) (by decide) width v.natAbs, hdecimal⟩,
    p.toNat, Payload.natCast_toNat hv, fun hs => ?_, fun hs => ?_, p.ofNat_toNat,
    ⟨_, isNumeralIn_padded (by decide) (by decide) width p.toNat, hhexadecimal 'X' (by decide)⟩,
    ⟨_, isNumeralIn_padded (by decide) (by decide) width p.toNat, hhexadecimal 'x' (by decide)⟩⟩
  · rcases Payload.toNat_cases hv with ⟨-, h⟩ | ⟨hu, -⟩
    · exact h
    · cases hs.symm.trans hu
  · rcases Payload.toNat_cases hv with ⟨hu, -⟩ | ⟨-, h⟩
    · cases hs.symm.trans hu
    · exact h

/-- The least integer of 64 bits, whose magnitude its type does not have. -/
theorem standard_padded_digits_least :
    let p := Payload.ofInt .int64 (-2 ^ 63)
    let written (letter : Char) (text : List Char) :=
      (standard .invariant).format (String.ofList [letter, '2', '5']) none p =
        .ok (String.ofList text)
    p.integer? = some (-2 ^ 63) ∧
      (∃ text, IsNumeralIn decimalDigits 25 (2 ^ 63) text ∧ written 'd' ('-' :: text)) ∧
      ∃ text, IsNumeralIn lowerDigits 25 (2 ^ 63) text ∧ written 'x' text := by
  intro p written
  have hp : p.integer? = some (-2 ^ 63) := by decide +kernel
  have hwidth : value 10 (['2', '5'].map digitValue) = 25 := by decide
  obtain ⟨⟨text, htext, hwritten⟩, n, hn, -, -, -, -, hlower⟩ :=
    standard_padded_digits .invariant none p (-2 ^ 63) hp ['2', '5'] (by simp [Char.isDigit])
      (hwidth.trans_le (by norm_num))
  obtain rfl : n = 2 ^ 63 := by
    have hbits : (-2 ^ 63 : ℤ) % 2 ^ p.type.width = 2 ^ 63 := by decide +kernel
    exact_mod_cast hn.trans hbits
  rw [hwidth] at htext hlower
  exact ⟨hp, ⟨text, htext, hwritten 'd' (by decide)⟩, hlower⟩

end NumberFormatter

end ManagedTypes
