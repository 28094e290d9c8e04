import ManagedTypes.Proofs.FixedText

/-! The format strings that the standard formatter takes: one of sixteen letters and a precision. What a
text looks like depends on nothing of the string but its letter and the precision's value. -/
namespace ManagedTypes
open Numeral

theorem toNat_lt_of_isAlpha {c : Char} (h : c.isAlpha = true) : c.toNat < 128 := by
  have hle : c ≤ 'z' := by
    rcases Bool.or_eq_true_iff.mp h with hupper | hlower
    · simp only [Char.isUpper, decide_eq_true_eq] at hupper
      exact Char.le_trans (b := 'Z') hupper.2 (by decide)
    · simp only [Char.isLower, Bool.and_eq_true, decide_eq_true_eq] at hlower
      exact hlower.2
  exact Nat.lt_of_le_of_lt (UInt32.le_iff_toNat_le.mp hle) (by decide)

theorem forall_isAlpha {P : Char → Prop} (h : ∀ n < 128, P (Char.ofNat n)) (c : Char)
    (hc : c.isAlpha = true) : P c := by
  have hcode := h c.toNat (toNat_lt_of_isAlpha hc)
  rwa [Char.ofNat_toNat] at hcode

namespace Specifier

def letters : List Char :=
  ['D', 'X', 'F', 'N', 'E', 'G', 'P', 'R', 'd', 'x', 'f', 'n', 'e', 'g', 'p', 'r']

/-- The letters of the styles that only integers have. -/
def integralLetters : List Char := ['D', 'X', 'd', 'x']

def isIntegral : Specifier → Bool
  | decimal | hexadecimal => true
  | numeric _ => false

theorem isAlpha_of_mem {c : Char} (h : c ∈ letters) : c.isAlpha = true :=
  List.all_eq_true.mp (by decide : letters.all Char.isAlpha = true) c h

theorem mem_letters_iff {c : Char} (hc : c.isAlpha = true) :
    c ∈ letters ↔ (ofLetter? c).isSome = true :=
  forall_isAlpha (P := fun c => c ∈ letters ↔ (ofLetter? c).isSome = true) (by decide) c hc

theorem mem_integralLetters_iff {c : Char} (hc : c.isAlpha = true) :
    c ∈ integralLetters ↔ ∃ s ∈ ofLetter? c, s.isIntegral = true :=
  forall_isAlpha (P := fun c => c ∈ integralLetters ↔ ∃ s ∈ ofLetter? c, s.isIntegral = true)
    (by decide) c hc

theorem isAlpha_toLower {c : Char} (hc : c.isAlpha = true) : c.toLower.isAlpha = true :=
  forall_isAlpha (P := fun c => c.isAlpha = true → c.toLower.isAlpha = true) (by decide) c hc hc

theorem ofLetter?_toLower {c : Char} (hc : c.isAlpha = true) : ofLetter? c.toLower = ofLetter? c :=
  forall_isAlpha (P := fun c => ofLetter? c.toLower = ofLetter? c) (by decide) c hc

/-- The two styles with letters of their own in their text. -/
theorem mem_caseLetters_iff {c : Char} (hc : c.isAlpha = true) :
    c ∈ ['E', 'X', 'e', 'x'] ↔
      ofLetter? c = some .hexadecimal ∨ ofLetter? c = some (.numeric .scientific) :=
  forall_isAlpha (P := fun c => c ∈ ['E', 'X', 'e', 'x'] ↔
    ofLetter? c = some .hexadecimal ∨ ofLetter? c = some (.numeric .scientific)) (by decide) c hc

end Specifier

namespace FormatString

/-- The value of the digits after a letter, if there are any. -/
def precisionOf (digits : List Char) : Option ℕ :=
  if digits = [] then none else some (value 10 (digits.map digitValue))

/-- Digits left out are no digits of padding. -/
theorem getD_precisionOf (digits : List Char) :
    (precisionOf digits).getD 0 = value 10 (digits.map digitValue) := by
  unfold precisionOf
  split
  next hnil => simp [hnil, value]
  · rfl

/-- A format string that has a text: a letter in either case and digits worth at most 99. Four of the
letters are for integers only. -/
structure IsStandard (p : Payload) (letter : Char) (digits : List Char) : Prop where
  letter_mem : letter ∈ Specifier.letters
  isDigit : ∀ c ∈ digits, c.isDigit = true
  value_le : value 10 (digits.map digitValue) ≤ 99
  integral : letter ∈ Specifier.integralLetters → p.integer?.isSome = true

theorem parse_eq_ok_iff {text : String} {f : FormatString} :
    parse text = .ok f ↔ ∃ digits, text = String.ofList (f.letter :: digits) ∧
      f.letter.isAlpha = true ∧ (∀ c ∈ digits, c.isDigit = true) ∧
      value 10 (digits.map digitValue) ≤ maxPrecision ∧ f.precision = precisionOf digits := by
  constructor
  · intro h
    unfold parse at h
    split at h
    · simp at h
    next letter digits htext =>
    dsimp only at h
    have hlist : text = String.ofList (letter :: digits) := by rw [← htext, String.ofList_toList]
    split_ifs at h with hletter hnil hdigits hlarge
    · obtain rfl : digits = [] := by simpa using hnil
      cases h
      exact ⟨[], hlist, by simpa using hletter, by simp, by simp [value], rfl⟩
    · cases h
      simp only [Bool.or_eq_true, not_or, Bool.not_eq_true', Bool.not_eq_false, List.all_eq_true]
        at hdigits
      refine ⟨digits, hlist, by simpa using hletter, hdigits.1, Nat.not_lt.mp hlarge, ?_⟩
      rw [precisionOf, if_neg (by simpa using hnil)]
  · rintro ⟨digits, rfl, hletter, hdigits, hbound, hprecision⟩
    rw [parse_digits hletter hdigits hbound]
    show Except.ok (⟨f.letter, precisionOf digits⟩ : FormatString) = .ok f
    rw [← hprecision]

theorem parse_of_isStandard {p : Payload} {letter : Char} {digits : List Char}
    (h : IsStandard p letter digits) :
    parse (String.ofList (letter :: digits)) = .ok ⟨letter, precisionOf digits⟩ :=
  parse_eq_ok_iff.mpr
    ⟨digits, rfl, Specifier.isAlpha_of_mem h.letter_mem, h.isDigit, h.value_le, rfl⟩

theorem IsStandard.toLower {p : Payload} {letter : Char} {digits : List Char}
    (h : IsStandard p letter digits) : IsStandard p letter.toLower digits := by
  have hletter := Specifier.isAlpha_of_mem h.letter_mem
  have hlower := Specifier.isAlpha_toLower hletter
  have hsame := Specifier.ofLetter?_toLower hletter
  refine ⟨?_, h.isDigit, h.value_le, fun hmem => h.integral ?_⟩
  · rw [Specifier.mem_letters_iff hlower, hsame, ← Specifier.mem_letters_iff hletter]
    exact h.letter_mem
  · rwa [Specifier.mem_integralLetters_iff hlower, hsame,
      ← Specifier.mem_integralLetters_iff hletter] at hmem

end FormatString

namespace Standard

theorem isSome_pattern? (p : Payload) : p.pattern?.isSome = p.integer?.isSome := by
  unfold Payload.pattern? Payload.integer?
  cases p.content <;> rfl

/-- A template fails for an unknown letter, and for an integer's letter with a payload that is none. -/
theorem exists_template_iff {size : ℕ} {f : FormatString} {p : Payload} :
    (∃ t, template size f p = .ok t) ↔ ∃ s, Specifier.ofLetter? f.letter = some s ∧
      (s.isIntegral = true → p.integer?.isSome = true) := by
  unfold template
  cases hs : Specifier.ofLetter? f.letter with
  | none => simp
  | some s =>
    cases s with
    | decimal => cases hv : p.integer? <;> simp [Specifier.isIntegral]
    | hexadecimal =>
      have hsome := isSome_pattern? p
      cases hn : p.pattern? <;> simp [Specifier.isIntegral, ← hsome, hn]
    | numeric style => cases hd : p.numeric <;> simp [Specifier.isIntegral]

theorem exists_template {p : Payload} {letter : Char} {digits : List Char}
    (h : FormatString.IsStandard p letter digits) (size : ℕ) :
    ∃ t, template size ⟨letter, FormatString.precisionOf digits⟩ p = .ok t := by
  have hletter := Specifier.isAlpha_of_mem h.letter_mem
  obtain ⟨s, hs⟩ := Option.isSome_iff_exists.mp ((Specifier.mem_letters_iff hletter).mp h.letter_mem)
  exact exists_template_iff.mpr ⟨s, hs, fun hkind =>
    h.integral ((Specifier.mem_integralLetters_iff hletter).mpr ⟨s, hs, hkind⟩)⟩

theorem format_eq_ok_iff {symbols : NumberSymbols} {text shown : String} {p : Payload} :
    format symbols text p = .ok shown ↔ ∃ f t, FormatString.parse text = .ok f ∧
      template symbols.groupSize f p = .ok t ∧ t.render symbols = shown := by
  rw [format_eq_bind]
  cases hf : FormatString.parse text with
  | error fault => simp [bind, Except.bind]
  | ok f =>
    cases ht : template symbols.groupSize f p <;>
      simp [bind, Except.bind, pure, Except.pure, ht]

theorem exists_format_iff {symbols : NumberSymbols} {text : String} {p : Payload} :
    (∃ shown, format symbols text p = .ok shown) ↔ ∃ letter digits,
      text = String.ofList (letter :: digits) ∧ FormatString.IsStandard p letter digits := by
  constructor
  · rintro ⟨shown, h⟩
    obtain ⟨f, t, hparse, ht, -⟩ := format_eq_ok_iff.mp h
    obtain ⟨digits, htext, hletter, hdigits, hbound, -⟩ := FormatString.parse_eq_ok_iff.mp hparse
    obtain ⟨s, hs, hintegral⟩ := exists_template_iff.mp ⟨t, ht⟩
    refine ⟨f.letter, digits, htext, ?_, hdigits, hbound, fun hmem => ?_⟩
    · rw [Specifier.mem_letters_iff hletter, hs]
      rfl
    · obtain ⟨s', hs', hkind⟩ := (Specifier.mem_integralLetters_iff hletter).mp hmem
      rw [hs, Option.mem_some_iff] at hs'
      exact hintegral (hs' ▸ hkind)
  · rintro ⟨letter, digits, rfl, h⟩
    obtain ⟨t, ht⟩ := exists_template h symbols.groupSize
    exact ⟨_, format_eq_ok_iff.mpr ⟨_, t, FormatString.parse_of_isStandard h, ht, rfl⟩⟩

/-- Only two styles look at the case of their letter. -/
theorem template_congr {size : ℕ} {f g : FormatString} {p : Payload} {t : Template}
    (hletter : Specifier.ofLetter? f.letter = Specifier.ofLetter? g.letter)
    (hprecision : f.precision = g.precision)
    (hhexadecimal : Specifier.ofLetter? f.letter ≠ some .hexadecimal)
    (hscientific : Specifier.ofLetter? f.letter ≠ some (.numeric .scientific))
    (ht : template size f p = .ok t) : template size g p = .ok t := by
  unfold template at ht ⊢
  rw [← hletter]
  cases hs : Specifier.ofLetter? f.letter with
  | none => simp [hs] at ht
  | some s =>
    rw [hs] at ht hhexadecimal hscientific
    cases s with
    | hexadecimal => exact absurd rfl hhexadecimal
    | decimal =>
      rw [← hprecision]
      cases hv : p.integer? with
      | none => simp [hv] at ht
      | some v => simpa [hv] using ht
    | numeric style =>
      cases hn : p.numeric with
      | special symbol => simpa [hn] using ht
      | decimal d =>
        cases style with
        | scientific => exact absurd rfl hscientific
        | fixed | number | percent | general | roundTrip => simpa [hn, number, hprecision] using ht

/-- The marker stands at one place of scientific text, and nothing else depends on it. -/
theorem exists_scientific_marker (symbols : NumberSymbols) (d : Decimal) (places : ℕ) :
    ∃ front back, ∀ marker, (Layout.scientific d places marker).render symbols =
      String.ofList (front ++ marker :: back) := by
  obtain ⟨front, back, hsplit⟩ : ∃ front back : Template, ∀ marker,
      Layout.scientific d places marker = front ++ .char marker :: back := ⟨_, _, fun _ => rfl⟩
  refine ⟨front.flatMap (Piece.chars symbols), back.flatMap (Piece.chars symbols), fun marker => ?_⟩
  rw [hsplit, Template.render, List.flatMap_append]
  rfl

theorem template_special {size : ℕ} {f : FormatString} {p : Payload} {s : Style} {symbol : Symbol}
    (hletter : Specifier.ofLetter? f.letter = some (.numeric s)) (hp : p.numeric = .special symbol) :
    template size f p = .ok [.symbol symbol] := by
  unfold template
  rw [hletter, hp]

theorem template_decimal {size : ℕ} {f : FormatString} {p : Payload} {v : ℤ}
    (hletter : Specifier.ofLetter? f.letter = some .decimal) (hv : p.integer? = some v) :
    template size f p = .ok (decimal v (f.precision.getD 0)) := by
  unfold template
  rw [hletter, hv]

theorem template_hexadecimal {size : ℕ} {f : FormatString} {p : Payload} {n : ℕ}
    (hletter : Specifier.ofLetter? f.letter = some .hexadecimal) (hn : p.pattern? = some n) :
    template size f p = .ok (hexadecimal n (f.precision.getD 0) (f.letter == 'x')) := by
  unfold template
  rw [hletter, hn]

theorem render_decimal (symbols : NumberSymbols) (v : ℤ) (width : ℕ) :
    (decimal v width).render symbols =
      String.ofList ((if v < 0 then symbols.negativeSign.toList else []) ++
        (padded width (digits 10 v.natAbs)).map lowerChar) := by
  rw [Template.render, decimal, List.flatMap_append, Layout.chars_sign, Layout.chars_digits]
  simp only [decide_eq_true_eq]

theorem render_hexadecimal (symbols : NumberSymbols) (pattern width : ℕ) (lower : Bool) :
    (hexadecimal pattern width lower).render symbols =
      String.ofList
        ((padded width (digits 16 pattern)).map (if lower then lowerChar else upperChar)) := by
  rw [Template.render, hexadecimal, List.flatMap_map]
  cases lower <;> simp [Piece.chars, List.map_eq_flatMap]

end Standard

theorem Payload.exists_special {p : Payload} (h : p.isFinite = false) :
    ∃ symbol, p.numeric = .special symbol := by
  cases hc : p.content with
  | integer v => simp [isFinite, hc] at h
  | float f pattern =>
    cases hnan : f.isNan pattern with
    | true => exact ⟨_, numeric_of_isNan hc hnan⟩
    | false =>
      rcases f.finite_or_infinite hnan with hfinite | hinfinite
      · simp [isFinite, hc, hfinite] at h
      · exact ⟨_, numeric_of_isInfinite hc hinfinite⟩

namespace NumberFormatter
open FormatString

theorem standard_eq_ok_iff {own : NumberSymbols} {provider : Option NumberSymbols}
    {text shown : String} {p : Payload} :
    (standard own).format text provider p = .ok shown ↔
      Standard.format (provider.getD own) text p = .ok shown := by
  unfold standard
  dsimp only
  cases Standard.format (provider.getD own) text p <;> simp

/-- A standard format string writes the template of its letter and precision. -/
theorem standard_of_template {own : NumberSymbols} {provider : Option NumberSymbols} {p : Payload}
    {letter : Char} {digits : List Char} {t : Template} (h : IsStandard p letter digits)
    (ht : Standard.template (provider.getD own).groupSize ⟨letter, precisionOf digits⟩ p = .ok t) :
    (standard own).format (String.ofList (letter :: digits)) provider p =
      .ok (t.render (provider.getD own)) :=
  standard_eq_ok_iff.mpr (Standard.format_eq (parse_of_isStandard h) ht)

variable {own : NumberSymbols} {provider : Option NumberSymbols} {p : Payload} {letter : Char}
  {digits : List Char}

theorem standard_toLower (h : IsStandard p letter digits) (hcase : letter ∉ ['E', 'X', 'e', 'x']) :
    (standard own).format (String.ofList (letter.toLower :: digits)) provider p =
      (standard own).format (String.ofList (letter :: digits)) provider p := by
  have hletter := Specifier.isAlpha_of_mem h.letter_mem
  rw [Specifier.mem_caseLetters_iff hletter, not_or] at hcase
  obtain ⟨t, ht⟩ := Standard.exists_template h (provider.getD own).groupSize
  have hlower := Standard.template_congr (f := ⟨letter, precisionOf digits⟩)
    (g := ⟨letter.toLower, precisionOf digits⟩) (Specifier.ofLetter?_toLower hletter).symm rfl
    hcase.1 hcase.2 ht
  rw [standard_of_template h ht, standard_of_template h.toLower hlower]

theorem standard_marker (h : IsStandard p 'E' digits) (hp : p.isFinite = true) :
    ∃ front back, ∀ marker ∈ ['E', 'e'],
      (standard own).format (String.ofList (marker :: digits)) provider p =
        .ok (String.ofList (front ++ marker :: back)) := by
  have hlower : IsStandard p 'e' digits := (by decide : 'E'.toLower = 'e') ▸ h.toLower
  obtain ⟨d, hnumeric, -, -⟩ := Payload.numeric_of_isFinite hp
  obtain ⟨front, back, hrender⟩ := Standard.exists_scientific_marker (provider.getD own) d
    ((precisionOf digits).getD 6)
  have ht (marker : Char) (hmarker : Specifier.ofLetter? marker = some (.numeric .scientific)) :
      Standard.template (provider.getD own).groupSize ⟨marker, precisionOf digits⟩ p =
        .ok (Layout.scientific d ((precisionOf digits).getD 6) (if marker = 'e' then 'e' else 'E')) := by
    rw [Standard.template_numeric hmarker hnumeric]
    rfl
  refine ⟨front, back, List.forall_mem_cons.mpr ⟨?_, List.forall_mem_singleton.mpr ?_⟩⟩
  · rw [standard_of_template h (ht 'E' (by decide)), if_neg (by decide), hrender]
  · rw [standard_of_template hlower (ht 'e' (by decide)), if_pos rfl, hrender]

theorem standard_special (h : IsStandard p 'E' digits) (hp : p.isFinite = false) :
    (standard own).format (String.ofList ('e' :: digits)) provider p =
      (standard own).format (String.ofList ('E' :: digits)) provider p := by
  have hlower : IsStandard p 'e' digits := (by decide : 'E'.toLower = 'e') ▸ h.toLower
  obtain ⟨symbol, hsymbol⟩ := Payload.exists_special hp
  have ht (marker : Char) (hmarker : Specifier.ofLetter? marker = some (.numeric .scientific)) :
      Standard.template (provider.getD own).groupSize ⟨marker, precisionOf digits⟩ p =
        .ok [.symbol symbol] :=
    Standard.template_special hmarker hsymbol
  rw [standard_of_template h (ht 'E' (by decide)), standard_of_template hlower (ht 'e' (by decide))]

theorem standard_hexadecimal (h : IsStandard p 'X' digits) :
    ∃ ds : List ℕ, (∀ d ∈ ds, d < 16) ∧
      (standard own).format (String.ofList ('X' :: digits)) provider p =
        .ok (String.ofList (ds.map upperChar)) ∧
      (standard own).format (String.ofList ('x' :: digits)) provider p =
        .ok (String.ofList (ds.map lowerChar)) := by
  have hlower : IsStandard p 'x' digits := (by decide : 'X'.toLower = 'x') ▸ h.toLower
  have hsome := h.integral (by decide)
  rw [← Standard.isSome_pattern?] at hsome
  obtain ⟨n, hn⟩ := Option.isSome_iff_exists.mp hsome
  have ht (letter : Char) (hletter : Specifier.ofLetter? letter = some .hexadecimal) :
      Standard.template (provider.getD own).groupSize ⟨letter, precisionOf digits⟩ p =
        .ok (Standard.hexadecimal n ((precisionOf digits).getD 0) (letter == 'x')) :=
    Standard.template_hexadecimal hletter hn
  refine ⟨padded ((precisionOf digits).getD 0) (Numeral.digits 16 n), padded_lt (by norm_num) _ _,
    ?_, ?_⟩
  · rw [standard_of_template h (ht 'X' (by decide)), Standard.render_hexadecimal]
    rfl
  · rw [standard_of_template hlower (ht 'x' (by decide)), Standard.render_hexadecimal]
    rfl

/-- The standard formatter takes exactly the standard format strings and has a format fault for every
other text. Digits count by their value alone, and the case of the letter is seen in the marker of an
exponent and in hexadecimal digits only. -/
theorem standard_accepts_grammar (own : NumberSymbols) (provider : Option NumberSymbols) (p : Payload) :
    let formatted (text : String) := (standard own).format text provider p
    let written (letter : Char) (digits : List Char) := formatted (String.ofList (letter :: digits))
    (∀ text, (∃ shown, formatted text = .ok shown) ↔
        ∃ letter digits, text = String.ofList (letter :: digits) ∧ IsStandard p letter digits) ∧
      (∀ text fault, formatted text = .error fault → ∃ detail, fault = .format detail) ∧
      (∀ letter ds es, IsStandard p letter ds → IsStandard p letter es → (ds = [] ↔ es = []) →
        value 10 (ds.map digitValue) = value 10 (es.map digitValue) →
        written letter ds = written letter es) ∧
      (∀ letter digits, IsStandard p letter digits → letter ∉ ['E', 'X', 'e', 'x'] →
        written letter.toLower digits = written letter digits) ∧
      (∀ digits, IsStandard p 'E' digits →
        if p.isFinite then ∃ front back, ∀ marker ∈ ['E', 'e'],
          written marker digits = .ok (String.ofList (front ++ marker :: back))
        else written 'e' digits = written 'E' digits) ∧
      ∀ digits, IsStandard p 'X' digits → ∃ ds : List ℕ, (∀ d ∈ ds, d < 16) ∧
        written 'X' digits = .ok (String.ofList (ds.map upperChar)) ∧
        written 'x' digits = .ok (String.ofList (ds.map lowerChar)) := by
  intro formatted written
  refine ⟨fun text => ?_, fun text fault hfault => ?_, fun letter ds es hds hes hnil hvalue => ?_,
    fun letter digits h hcase => standard_toLower h hcase, fun digits h => ?_,
    fun digits h => standard_hexadecimal h⟩
  · simp only [formatted, standard_eq_ok_iff]
    exact Standard.exists_format_iff
  · simp only [formatted, standard] at hfault
    split at hfault
    · simp at hfault
    · exact ⟨_, (Except.error.inj hfault).symm⟩
  · have hsame : precisionOf ds = precisionOf es := by simp only [precisionOf, hnil, hvalue]
    obtain ⟨t, ht⟩ := Standard.exists_template hds (provider.getD own).groupSize
    simp only [written, formatted]
    rw [standard_of_template hds ht, standard_of_template hes (hsame ▸ ht)]
  · cases hp : p.isFinite with
    | true => exact standard_marker h hp
    | false => exact standard_special h hp

end NumberFormatter

end ManagedTypes
