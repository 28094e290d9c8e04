import ManagedTypes.Proofs.FormatGrammar
import ManagedTypes.Proofs.IntegerConversion
import ManagedTypes.Session.Step

/-! The decimal texts of an integer are its sign and its digits, whether they are laid out from the
numeral or from the significant digits, whose trailing zeros have to come back. -/
namespace ManagedTypes
open Numeral

namespace Numeral

/-- Digits without a superfluous zero in front are the digits of their value. -/
theorem digits_value {ds : List ℕ} (h : ∀ d ∈ ds, d < 10) (hne : ds ≠ [])
    (hhead : ds.head? = some 0 → ds = [0]) : digits 10 (value 10 ds) = ds := by
  induction ds using List.reverseRecOn with
  | nil => exact absurd rfl hne
  | append_singleton front d ih =>
    have hd : d < 10 := h d (by simp)
    rw [value_append_one]
    by_cases hfront : front = []
    · subst hfront
      rw [show value 10 [] = 0 from rfl, Nat.zero_mul, Nat.zero_add, digits_of_lt hd,
        List.nil_append]
    · have hlead : front.head? ≠ some 0 := by
        intro hzero
        have hall := hhead (by rw [List.head?_append_of_ne_nil _ hfront, hzero])
        have hlength := congrArg List.length hall
        rw [List.length_append, List.length_singleton, List.length_singleton, Nat.add_eq_right,
          List.length_eq_zero_iff] at hlength
        exact hfront hlength
      have hdigits := ih (fun x hx => h x (List.mem_append_left _ hx)) hfront
        fun hzero => absurd hzero hlead
      have hpos : 0 < value 10 front := by
        refine Nat.pos_of_ne_zero fun hzero => hlead ?_
        rw [hzero, digits_of_lt (by norm_num)] at hdigits
        rw [← hdigits, List.head?_singleton]
      have hquot : (value 10 front * 10 + d) / 10 = value 10 front := by omega
      have hrest : (value 10 front * 10 + d) % 10 = d := by omega
      rw [digits_of_le (by norm_num) (by omega), hquot, hrest, hdigits]

end Numeral

namespace Decimal

/-- An integer has no digit behind the point. -/
theorem length_ofInt_le (v : ℤ) : ((ofInt v).digits.length : ℤ) ≤ (ofInt v).scale := by
  have hfit : ((Numeral.digits 10 v.natAbs).length : ℤ) ≤
      (Numeral.digits 10 v.natAbs).length + 0 + (0 : ℕ) := by simp
  have hlength := length_normalize_le
    (d := ⟨decide (v < 0), Numeral.digits 10 v.natAbs, (Numeral.digits 10 v.natAbs).length + 0⟩) hfit
  simpa [ofInt, scaled] using hlength

theorem roundTo_ofInt {v : ℤ} {keep : ℤ} (h : (ofInt v).scale ≤ keep) :
    (ofInt v).roundTo keep = ofInt v := by
  have hlength := length_ofInt_le v
  obtain ⟨n, rfl⟩ := Int.eq_ofNat_of_zero_le (by omega : 0 ≤ keep)
  exact roundTo_of_length_le (by omega)

end Decimal

namespace Layout

/-- Stripping the trailing zeros of an integer has lost none of its digits. -/
theorem wholeDigits_ofInt (v : ℤ) : wholeDigits (Decimal.ofInt v) = digits 10 v.natAbs := by
  have hnormal := Decimal.normal_ofInt v
  have hfit : ((Decimal.ofInt v).digits.length : ℤ) ≤ (Decimal.ofInt v).scale + (0 : ℕ) := by
    simpa using Decimal.length_ofInt_le v
  have hplaces := whole_add_places hfit
  have hnone : value 10 (window (Decimal.ofInt v) (Decimal.ofInt v).scale 0) = 0 := rfl
  rw [hnone, Nat.cast_zero, zero_div, add_zero, Decimal.magnitude_ofInt, ← Nat.cast_natAbs] at hplaces
  have hvalue : value 10 (wholeDigits (Decimal.ofInt v)) = v.natAbs := by exact_mod_cast hplaces
  rw [← hvalue, digits_value (wholeDigits_lt hnormal.digits_lt) (wholeDigits_ne_nil _)
    (wholeDigits_head hnormal)]

theorem scale_ofInt_le (v : ℤ) : (Decimal.ofInt v).scale ≤ (chars v.natAbs).length := by
  rw [chars, List.length_map, ← wholeDigits_ofInt, wholeDigits]
  split
  · simpa using by omega
  · rw [length_window]
    omega

/-- The sign of an integer and its digits. -/
def integerText (symbols : NumberSymbols) (v : ℤ) : List Char :=
  (if v < 0 then symbols.negativeSign.toList else []) ++ chars v.natAbs

theorem integerText_invariant (v : ℤ) : integerText .invariant v = intChars v := by
  have hminus : NumberSymbols.invariant.negativeSign.toList = ['-'] := rfl
  unfold integerText intChars
  rw [hminus]
  split <;> rfl

theorem fixedText_ofInt (symbols : NumberSymbols) (v : ℤ) :
    fixedText symbols (Decimal.ofInt v).negative ((wholeDigits (Decimal.ofInt v)).map lowerChar) [] =
      integerText symbols v := by
  have hnegative : (Decimal.ofInt v).negative = decide (v < 0) := rfl
  simp [fixedText, integerText, wholeDigits_ofInt, chars, hnegative]

variable (symbols : NumberSymbols)

theorem render_fixed_ofInt (v : ℤ) :
    (fixed (Decimal.ofInt v) 0 none).render symbols = String.ofList (integerText symbols v) := by
  rw [render_fixed, Decimal.roundTo_ofInt (by simp), ← fixedText_ofInt]
  rfl

theorem render_grouped_ofInt {v : ℤ} {size : ℕ} (h : size = 0 ∨ (chars v.natAbs).length ≤ size) :
    (fixed (Decimal.ofInt v) 0 (some size)).render symbols =
      String.ofList (integerText symbols v) := by
  have hone : ¬(0 < size ∧ size < (chars v.natAbs).length) := by omega
  rw [render_fixed_grouped, Decimal.roundTo_ofInt (by simp), wholeDigits_ofInt, ← chars,
    groups_of_not hone, List.intercalate_singleton, chars, ← wholeDigits_ofInt, ← fixedText_ofInt]
  rfl

theorem render_general_ofInt {v : ℤ} {limit : Option ℕ}
    (h : ∀ n ∈ limit, (chars v.natAbs).length ≤ n) :
    (general (Decimal.ofInt v) limit).render symbols = String.ofList (integerText symbols v) := by
  have hlength := Decimal.length_ofInt_le v
  have hscale := scale_ofInt_le v
  obtain ⟨⟨-, hsmall | ⟨n, hn, hlarge⟩⟩, -⟩ | ⟨-, htext⟩ :=
    chars_general symbols (Decimal.normal_ofInt v) limit
  · omega
  · have hcount := h n hn
    omega
  · rw [Template.render, htext, ← fixedText_ofInt,
      show ((Decimal.ofInt v).digits.length - (Decimal.ofInt v).scale).toNat = 0 by omega]
    rfl

end Layout

namespace Standard

variable (symbols : NumberSymbols)

theorem render_decimal_of_le {v : ℤ} {width : ℕ} (h : width ≤ (chars v.natAbs).length) :
    (decimal v width).render symbols = String.ofList (Layout.integerText symbols v) := by
  rw [chars, List.length_map] at h
  rw [render_decimal, padded, Nat.sub_eq_zero_of_le h, List.replicate_zero, List.nil_append,
    Layout.integerText, chars]

theorem render_allDigits_ofInt {t : PayloadType} (ht : t.positionalDigits = none) {v : ℤ} :
    (allDigits t (Decimal.ofInt v)).render symbols =
      String.ofList (Layout.integerText symbols v) := by
  rw [allDigits, ht]
  exact Layout.render_general_ofInt symbols (by simp)

/-- Zero digits and none given are all digits; rounding to more than there are changes nothing. -/
theorem render_general_ofInt {t : PayloadType} (ht : t.positionalDigits = none) {v : ℤ}
    {precision : Option ℕ} (h : ∀ n ∈ precision, n = 0 ∨ (chars v.natAbs).length ≤ n) :
    (general t (Decimal.ofInt v) precision).render symbols =
      String.ofList (Layout.integerText symbols v) := by
  unfold general
  split
  · exact render_allDigits_ofInt symbols ht
  · exact render_allDigits_ofInt symbols ht
  next n hn =>
    have hcount := (h n rfl).resolve_left hn
    have hscale := Layout.scale_ofInt_le v
    rw [Decimal.roundTo_ofInt (by omega)]
    exact Layout.render_general_ofInt symbols (by simpa using hcount)

theorem exists_template_canonical {size : ℕ} {f : FormatString} {p : Payload} {s : Style}
    (hstyle : Specifier.ofLetter? f.letter = some (.numeric s))
    (hall : ∀ t d, number size f s t d = allDigits t d) :
    ∃ t, template size f p = .ok t ∧ t.render .invariant = canonical p := by
  rw [canonical_eq_render]
  unfold template
  rw [hstyle]
  cases hn : p.numeric with
  | special symbol => exact ⟨_, rfl, rfl⟩
  | decimal d => exact ⟨_, rfl, by rw [hall]⟩

end Standard

namespace Payload

variable {p : Payload} {v : ℤ}

theorem numeric_of_integer? (h : p.integer? = some v) : p.numeric = .decimal (Decimal.ofInt v) := by
  rw [numeric, content_of_integer? h]

theorem positionalDigits_of_integer? (h : p.integer? = some v) : p.type.positionalDigits = none := by
  have ht : p.type.ieee? = none := by
    rcases integer_cases h with ⟨ht, -⟩ | ⟨ht, -⟩ <;> exact ht
  cases hp : p.type <;> rw [hp] at ht
  case single | double => cases ht
  all_goals rfl

/-- The integers of the eight types are far below the greatest precision. -/
theorem length_chars_le (h : p.integer? = some v) : (chars v.natAbs).length ≤ 99 := by
  obtain ⟨hlow, hhigh⟩ := p.type.range_lt
  obtain ⟨hle, hge⟩ := IntRange.contains_iff.mp (contains_of_integer? h)
  have hsmall : v.natAbs < 10 ^ 39 := by
    simp only [wideRange] at hlow hhigh
    omega
  have hlength := (length_digits_le_iff (by norm_num) (by norm_num)).mpr hsmall
  rw [chars, List.length_map]
  omega

/-- The text of a box with an integer is its decimal numeral, and no formatter is asked. -/
theorem step_display {s : Session} {box : ℕ} {b : Box} (hbox : s.boxes[box]? = some b)
    (h : (b.get s.memory).integer? = some v) :
    s.step (.text box .display) = (s, .answer (.text (intText v))) := by
  simp only [Session.step, Session.onBox, hbox, Session.write, display, content_of_integer? h]

end Payload

namespace NumberFormatter
open FormatString

variable {own : NumberSymbols} {provider : Option NumberSymbols} {p : Payload} {v : ℤ}
  {precision : List Char}

/-- A numeral padded to no more digits than it has. -/
theorem standard_decimal (hp : p.integer? = some v) (h : IsStandard p 'D' precision)
    (hwidth : value 10 (precision.map digitValue) ≤ (chars v.natAbs).length) :
    (standard own).format (String.ofList ('D' :: precision)) provider p =
      .ok (String.ofList (Layout.integerText (provider.getD own) v)) := by
  rw [standard_of_template h (Standard.template_decimal rfl hp), Standard.render_decimal_of_le]
  exact (getD_precisionOf precision).trans_le hwidth

/-- The styles that lay out the digits of an integer. -/
theorem standard_numeral (hp : p.integer? = some v) {letter : Char} {s : Style}
    (hstyle : Specifier.ofLetter? letter = some (.numeric s)) (h : IsStandard p letter precision)
    (hrender : (Standard.number (provider.getD own).groupSize ⟨letter, precisionOf precision⟩ s p.type
        (Decimal.ofInt v)).render (provider.getD own) =
      String.ofList (Layout.integerText (provider.getD own) v)) :
    (standard own).format (String.ofList (letter :: precision)) provider p =
      .ok (String.ofList (Layout.integerText (provider.getD own) v)) := by
  rw [standard_of_template h (Standard.template_numeric hstyle (Payload.numeric_of_integer? hp)),
    hrender]

theorem standard_general_numeral (hp : p.integer? = some v) (h : IsStandard p 'G' precision)
    (hcount : value 10 (precision.map digitValue) = 0 ∨
      (chars v.natAbs).length ≤ value 10 (precision.map digitValue)) :
    (standard own).format (String.ofList ('G' :: precision)) provider p =
      .ok (String.ofList (Layout.integerText (provider.getD own) v)) := by
  refine standard_numeral hp (s := .general) rfl h ?_
  refine Standard.render_general_ofInt _ (Payload.positionalDigits_of_integer? hp) fun n hn => ?_
  simp only [precisionOf] at hn
  split at hn
  · cases hn
  · cases hn
    exact hcount

/-- A style that keeps all digits writes the canonical text. -/
theorem standard_canonical (hsymbols : provider.getD own = .invariant) {letter : Char} {s : Style}
    (hstyle : Specifier.ofLetter? letter = some (.numeric s)) (h : IsStandard p letter precision)
    (hall : ∀ t d, Standard.number NumberSymbols.invariant.groupSize
      ⟨letter, precisionOf precision⟩ s t d = Standard.allDigits t d) :
    (standard own).format (String.ofList (letter :: precision)) provider p =
      .ok ((standard own).canonical p) := by
  obtain ⟨t, ht, hrender⟩ := Standard.exists_template_canonical
    (f := ⟨letter, precisionOf precision⟩) (p := p) hstyle hall
  rw [← hsymbols] at ht
  rw [standard_of_template h ht, hsymbols, hrender]
  rfl

/-- An integer has one decimal text, its sign and its digits, in every style that neither pads it nor cuts
it into groups nor needs an exponent. Under the invariant symbols that is the numeral of the integer and
the text of every box with the payload. Under these symbols the general and round-trip texts of every
payload, NaN and the infinities included, are its canonical text. -/
theorem standard_integer_texts (own : NumberSymbols) (provider : Option NumberSymbols) (p : Payload) :
    let symbols := provider.getD own
    let formatted (text : String) := (standard own).format text provider p
    (∀ v, p.integer? = some v →
      let count := (chars v.natAbs).length
      let shown := String.ofList (Layout.integerText symbols v)
      (∀ text ∈ ["D", "D0", "G", "G0", "R", "F0"], formatted text = .ok shown) ∧
      (symbols.groupSize = 0 ∨ count ≤ symbols.groupSize → formatted "N0" = .ok shown) ∧
      (∀ precision : List Char, (∀ c ∈ precision, c.isDigit = true) →
        value 10 (precision.map digitValue) ≤ count →
        formatted (String.ofList ('D' :: precision)) = .ok shown) ∧
      (∀ precision : List Char, (∀ c ∈ precision, c.isDigit = true) →
        count ≤ value 10 (precision.map digitValue) → value 10 (precision.map digitValue) ≤ 99 →
        formatted (String.ofList ('G' :: precision)) = .ok shown) ∧
      (symbols = .invariant → readInt? shown.toList = some v ∧
        ∀ (s : Session) (box : ℕ) (b : Box), s.boxes[box]? = some b → b.get s.memory = p →
          s.step (.text box .display) = (s, .answer (.text shown)))) ∧
    (symbols = .invariant → ∀ text ∈ ["R", "G", "G0"],
      formatted text = .ok ((standard own).canonical p)) := by
  intro symbols formatted
  refine ⟨fun v hp => ?_, fun hsymbols => ?_⟩
  · intro count shown
    have hsome : p.integer?.isSome = true := by rw [hp]; rfl
    have hstandard {letter : Char} {precision : List Char} (hletter : letter ∈ Specifier.letters)
        (hdigits : ∀ c ∈ precision, c.isDigit = true)
        (hbound : value 10 (precision.map digitValue) ≤ 99) : IsStandard p letter precision :=
      ⟨hletter, hdigits, hbound, fun _ => hsome⟩
    have hdecimal : ∀ precision : List Char, (∀ c ∈ precision, c.isDigit = true) →
        value 10 (precision.map digitValue) ≤ count →
        formatted (String.ofList ('D' :: precision)) = .ok shown := fun precision hdigits hwidth =>
      standard_decimal hp
        (hstandard (by decide) hdigits (hwidth.trans (Payload.length_chars_le hp))) hwidth
    have hgeneral (precision : List Char) (hzero : value 10 (precision.map digitValue) = 0)
        (hdigits : ∀ c ∈ precision, c.isDigit = true) :
        formatted (String.ofList ('G' :: precision)) = .ok shown :=
      standard_general_numeral hp (hstandard (by decide) hdigits (by omega)) (.inl hzero)
    refine ⟨?_, fun hsize => ?_, hdecimal, fun precision hdigits hcount hbound => ?_,
      fun hsymbols => ⟨?_, fun s box b hbox hb => ?_⟩⟩
    · simp only [List.forall_mem_cons, List.not_mem_nil, false_imp_iff, implies_true, and_true]
      refine ⟨hdecimal [] (by simp) (Nat.zero_le _), hdecimal ['0'] (by simp) (Nat.zero_le _),
        hgeneral [] rfl (by simp), hgeneral ['0'] rfl (by simp), ?_, ?_⟩
      · exact standard_numeral hp (s := .roundTrip) rfl (hstandard (by decide) (by simp) (by decide))
          (Standard.render_allDigits_ofInt symbols (Payload.positionalDigits_of_integer? hp))
      · exact standard_numeral hp (s := .fixed) rfl (hstandard (by decide) (by simp) (by decide))
          (Layout.render_fixed_ofInt symbols v)
    · exact standard_numeral hp (s := .number) rfl (hstandard (by decide) (by simp) (by decide))
        (Layout.render_grouped_ofInt symbols hsize)
    · exact standard_general_numeral hp (hstandard (by decide) hdigits hbound) (.inr hcount)
    · simp only [shown, hsymbols, String.toList_ofList, Layout.integerText_invariant, readInt?_intChars]
    · rw [Payload.step_display hbox (hb ▸ hp)]
      simp only [shown, hsymbols, Layout.integerText_invariant, intText]
  · simp only [List.forall_mem_cons, List.not_mem_nil, false_imp_iff, implies_true, and_true]
    refine ⟨standard_canonical hsymbols (s := .roundTrip) rfl ?_ fun t d => rfl,
      standard_canonical hsymbols (s := .general) rfl ?_ fun t d => rfl,
      standard_canonical hsymbols (s := .general) rfl ?_ fun t d => rfl⟩
    all_goals exact ⟨by decide, by simp, by decide, fun hmem => absurd hmem (by decide)⟩

end NumberFormatter

end ManagedTypes
