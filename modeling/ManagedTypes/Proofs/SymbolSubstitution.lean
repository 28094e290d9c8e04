import ManagedTypes.Proofs.FormatGrammar

/-! Symbols are put into a text and never looked at: whatever they are, the text is one with placeholders
in their places, and only the group size decides where those stand. -/
namespace ManagedTypes

def Symbol.all : List Symbol :=
  [.negativeSign, .positiveSign, .decimalSeparator, .groupSeparator, .percent, .nan, .positiveInfinity,
    .negativeInfinity]

/-- One character for every symbol: no two share one, and no digit, letter or space is taken. -/
structure IsPlaceholder (mark : Symbol → Char) : Prop where
  injective : Function.Injective mark
  not_alphanum : ∀ s, (mark s).isAlphanum = false
  ne_space : ∀ s, mark s ≠ ' '

def NumberSymbols.placeholders (mark : Symbol → Char) (groupSize : ℕ) : NumberSymbols where
  negativeSign := String.singleton (mark .negativeSign)
  positiveSign := String.singleton (mark .positiveSign)
  decimalSeparator := String.singleton (mark .decimalSeparator)
  groupSeparator := String.singleton (mark .groupSeparator)
  groupSize := groupSize
  percentSymbol := String.singleton (mark .percent)
  nanSymbol := String.singleton (mark .nan)
  positiveInfinitySymbol := String.singleton (mark .positiveInfinity)
  negativeInfinitySymbol := String.singleton (mark .negativeInfinity)

/-- What a character of a text with placeholders stands for. -/
def NumberSymbols.expand (symbols : NumberSymbols) (mark : Symbol → Char) (c : Char) : List Char :=
  match Symbol.all.find? (mark · == c) with
  | some s => (symbols.text s).toList
  | none => [c]

/-- Puts the symbols in the places of their placeholders. -/
def NumberSymbols.substitute (symbols : NumberSymbols) (mark : Symbol → Char) (text : String) : String :=
  String.ofList (text.toList.flatMap (symbols.expand mark))

theorem Symbol.mem_all (s : Symbol) : s ∈ all := by cases s <;> decide

namespace NumberSymbols

variable {mark : Symbol → Char} (symbols : NumberSymbols)

theorem toList_text_placeholders (size : ℕ) (s : Symbol) :
    ((placeholders mark size).text s).toList = [mark s] := by
  cases s <;> exact String.toList_singleton _

theorem expand_mark (h : IsPlaceholder mark) (s : Symbol) :
    symbols.expand mark (mark s) = (symbols.text s).toList := by
  have hfind : Symbol.all.find? (mark · == mark s) = some s := by
    have hsome : (Symbol.all.find? (mark · == mark s)).isSome = true :=
      List.find?_isSome.mpr ⟨s, s.mem_all, beq_self_eq_true (mark s)⟩
    obtain ⟨t, ht⟩ := Option.isSome_iff_exists.mp hsome
    have hsame : mark t = mark s := by simpa using List.find?_some ht
    rw [ht, h.injective hsame]
  rw [expand, hfind]

theorem expand_of_forall_ne {c : Char} (h : ∀ s, mark s ≠ c) : symbols.expand mark c = [c] := by
  have hfind : Symbol.all.find? (mark · == c) = none :=
    List.find?_eq_none.mpr fun s _ => by simpa using h s
  rw [expand, hfind]

end NumberSymbols

namespace Template

/-- The characters of its own that a template has: digits, the letters of hexadecimal digits and of an
exponent, and the space before a percent symbol. -/
def IsOrdinary (t : Template) : Prop := ∀ c, .char c ∈ t → c.isAlphanum = true ∨ c = ' '

theorem isOrdinary_nil : IsOrdinary [] := by simp [IsOrdinary]

theorem isOrdinary_append {s t : Template} : IsOrdinary (s ++ t) ↔ s.IsOrdinary ∧ t.IsOrdinary := by
  simp [IsOrdinary, or_imp, forall_and]

theorem isOrdinary_symbol {s : Symbol} {t : Template} : IsOrdinary (.symbol s :: t) ↔ t.IsOrdinary := by
  simp [IsOrdinary]

theorem isOrdinary_char {c : Char} {t : Template} :
    IsOrdinary (.char c :: t) ↔ (c.isAlphanum = true ∨ c = ' ') ∧ t.IsOrdinary := by
  simp [IsOrdinary, or_imp, forall_and]

theorem isOrdinary_intercalate {separator : Template} (hseparator : separator.IsOrdinary)
    {parts : List Template} (hparts : ∀ part ∈ parts, IsOrdinary part) :
    IsOrdinary (separator.intercalate parts) := by
  induction parts with
  | nil => exact isOrdinary_nil
  | cons part parts ih =>
    obtain ⟨hpart, hrest⟩ := List.forall_mem_cons.mp hparts
    cases parts with
    | nil => simpa using hpart
    | cons next parts =>
      rw [List.intercalate_cons_cons, isOrdinary_append, isOrdinary_append]
      exact ⟨⟨hpart, hseparator⟩, ih hrest⟩

/-- Filled with placeholders that are then replaced, a template is filled with the symbols: none of its
ordinary characters is taken for a placeholder. -/
theorem substitute_render {mark : Symbol → Char} (hmark : IsPlaceholder mark) (symbols : NumberSymbols)
    {t : Template} (ht : t.IsOrdinary) (size : ℕ) :
    symbols.substitute mark (t.render (.placeholders mark size)) = t.render symbols := by
  rw [NumberSymbols.substitute, toList_render, render, List.flatMap_assoc]
  congr 1
  refine List.flatMap_congr fun piece hpiece => ?_
  cases piece with
  | symbol s =>
    rw [Piece.chars, NumberSymbols.toList_text_placeholders, List.flatMap_singleton,
      symbols.expand_mark hmark, Piece.chars]
  | char c =>
    have hne (s : Symbol) : mark s ≠ c := by
      rintro rfl
      rcases ht _ hpiece with halphanum | hspace
      · simp [hmark.not_alphanum s] at halphanum
      · exact hmark.ne_space s hspace
    rw [Piece.chars, List.flatMap_singleton, symbols.expand_of_forall_ne hne, Piece.chars]

end Template

theorem flatten_groups {α : Type} (size : ℕ) (xs : List α) : (groups size xs).flatten = xs := by
  induction hn : xs.length using Nat.strong_induction_on generalizing xs with
  | _ n ih =>
    by_cases h : 0 < size ∧ size < xs.length
    · have hrest := ih (xs.length - size) (by omega) (xs.take (xs.length - size)) (by simp)
      rw [groups_of_lt h.1 h.2, List.flatten_append, hrest, List.flatten_singleton,
        List.take_append_drop]
    · rw [groups_of_not h, List.flatten_singleton]

namespace Layout
open Numeral Template

theorem isAlphanum_lowerChar {d : ℕ} (h : d < 16) : (lowerChar d).isAlphanum = true := by
  revert d
  decide

theorem isAlphanum_upperChar {d : ℕ} (h : d < 16) : (upperChar d).isAlphanum = true := by
  revert d
  decide

theorem isOrdinary_digits {ds : List ℕ} (h : ∀ x ∈ ds, x < 10) : IsOrdinary (ds.map digit) := by
  intro c hc
  obtain ⟨x, hx, hdigit⟩ := List.mem_map.mp hc
  cases hdigit
  exact .inl (isAlphanum_lowerChar ((h x hx).trans (by norm_num)))

theorem isOrdinary_sign (negative : Bool) : IsOrdinary (sign negative) := by
  cases negative with
  | false => exact isOrdinary_nil
  | true => exact isOrdinary_symbol.mpr isOrdinary_nil

theorem isOrdinary_fraction {tail : Template} (h : tail.IsOrdinary) : IsOrdinary (fraction tail) := by
  unfold fraction
  split
  · exact isOrdinary_nil
  · exact isOrdinary_symbol.mpr h

theorem isOrdinary_grouped (size : ℕ) {whole : Template} (h : whole.IsOrdinary) :
    IsOrdinary (grouped size whole) := by
  refine isOrdinary_intercalate (isOrdinary_symbol.mpr isOrdinary_nil) fun part hpart c hc => h c ?_
  rw [← flatten_groups size whole]
  exact List.mem_flatten.mpr ⟨part, hpart, hc⟩

theorem isOrdinary_exponent (e : ℤ) (width : ℕ) : IsOrdinary (exponent e width) :=
  isOrdinary_symbol.mpr (isOrdinary_digits (padded_lt (by norm_num) width _))

variable {d : Decimal} (h : ∀ x ∈ d.digits, x < 10)
include h

theorem isOrdinary_digitsFrom (start : ℤ) (count : ℕ) : IsOrdinary (digitsFrom d start count) := by
  rw [digitsFrom_eq]
  exact isOrdinary_digits (window_lt h start count)

theorem isOrdinary_whole : IsOrdinary (whole d) := by
  rw [whole_eq]
  exact isOrdinary_digits (wholeDigits_lt h)

/-- One digit, places behind it and an exponent. -/
theorem isOrdinary_lead (negative : Bool) (places : ℕ) {marker : Char} (hmarker : marker.isAlphanum = true)
    (e : ℤ) (width : ℕ) :
    IsOrdinary (sign negative ++ digitsFrom d 0 1 ++ fraction (digitsFrom d 1 places) ++
      Piece.char marker :: exponent e width) := by
  simp only [isOrdinary_append, isOrdinary_char]
  exact ⟨⟨⟨isOrdinary_sign negative, isOrdinary_digitsFrom h 0 1⟩,
    isOrdinary_fraction (isOrdinary_digitsFrom h 1 places)⟩, .inl hmarker, isOrdinary_exponent e width⟩

theorem isOrdinary_general (limit : Option ℕ) : IsOrdinary (general d limit) := by
  unfold general
  dsimp only
  split_ifs
  · have hzero : IsOrdinary ([0].map digit) := isOrdinary_digits (by simp)
    exact isOrdinary_append.mpr ⟨isOrdinary_sign _, hzero⟩
  · exact isOrdinary_lead h _ _ (by decide) _ _
  · simp only [isOrdinary_append]
    exact ⟨⟨isOrdinary_sign _, isOrdinary_whole h⟩, isOrdinary_fraction (isOrdinary_digitsFrom h _ _)⟩

omit h

theorem isOrdinary_fixed (h : d.Normal) (decimals : ℕ) (size : Option ℕ) :
    IsOrdinary (fixed d decimals size) := by
  have hround := (Decimal.normal_roundTo h (d.scale + decimals)).digits_lt
  simp only [fixed, isOrdinary_append]
  refine ⟨⟨isOrdinary_sign _, ?_⟩, isOrdinary_fraction (isOrdinary_digitsFrom hround _ _)⟩
  cases size with
  | none => exact isOrdinary_whole hround
  | some size => exact isOrdinary_grouped size (isOrdinary_whole hround)

theorem isOrdinary_scientific (h : d.Normal) (decimals : ℕ) {marker : Char}
    (hmarker : marker.isAlphanum = true) : IsOrdinary (scientific d decimals marker) :=
  isOrdinary_lead (Decimal.normal_roundTo h _).digits_lt _ _ hmarker _ _

end Layout

namespace Payload

theorem normal_of_numeric {p : Payload} {d : Decimal} (h : p.numeric = .decimal d) : d.Normal := by
  cases hp : p.isFinite with
  | true =>
    obtain ⟨e, he, hnormal, -⟩ := numeric_of_isFinite hp
    cases h.symm.trans he
    exact hnormal
  | false =>
    obtain ⟨s, hs⟩ := exists_special hp
    cases h.symm.trans hs

end Payload

namespace Standard
open Numeral Template

variable {d : Decimal} (h : d.Normal)
include h

theorem isOrdinary_general (t : PayloadType) (precision : Option ℕ) : IsOrdinary (general t d precision) := by
  have hgeneral := Layout.isOrdinary_general h.digits_lt
  unfold general
  split
  · exact hgeneral _
  · exact hgeneral _
  · exact Layout.isOrdinary_general (Decimal.normal_roundTo h _).digits_lt _

theorem isOrdinary_number (size : ℕ) (f : FormatString) (s : Style) (t : PayloadType) :
    IsOrdinary (number size f s t d) := by
  unfold number
  cases s with
  | fixed | number => exact Layout.isOrdinary_fixed h _ _
  | percent =>
    refine isOrdinary_append.mpr ⟨Layout.isOrdinary_fixed (Decimal.normal_percent h) _ _, ?_⟩
    exact isOrdinary_char.mpr ⟨.inr rfl, isOrdinary_symbol.mpr isOrdinary_nil⟩
  | scientific => exact Layout.isOrdinary_scientific h _ (by split <;> decide)
  | roundTrip => exact Layout.isOrdinary_general h.digits_lt _
  | general => exact isOrdinary_general h t _

omit h

theorem isOrdinary_template {size : ℕ} {f : FormatString} {p : Payload} {t : Template}
    (h : template size f p = .ok t) : t.IsOrdinary := by
  unfold template at h
  split at h
  · cases h
  · split at h
    · cases h
      exact isOrdinary_append.mpr
        ⟨Layout.isOrdinary_sign _, Layout.isOrdinary_digits (padded_lt (by norm_num) _ _)⟩
    · cases h
  · split at h
    · cases h
      intro c hc
      obtain ⟨x, hx, hdigit⟩ := List.mem_map.mp hc
      have hlt := padded_lt (by norm_num) _ _ x hx
      cases hdigit
      split
      · exact .inl (Layout.isAlphanum_lowerChar hlt)
      · exact .inl (Layout.isAlphanum_upperChar hlt)
    · cases h
  · split at h
    · cases h
      exact isOrdinary_symbol.mpr isOrdinary_nil
    next hnumeric =>
      cases h
      exact isOrdinary_number (Payload.normal_of_numeric hnumeric) _ _ _ _

/-- A text is laid out by the group size alone; the symbols come afterwards. -/
theorem format_eq_substitute {mark : Symbol → Char} (hmark : IsPlaceholder mark)
    (symbols : NumberSymbols) (text : String) (p : Payload) :
    format symbols text p =
      (format (.placeholders mark symbols.groupSize) text p).map (symbols.substitute mark) := by
  rw [format_eq_bind, format_eq_bind]
  cases FormatString.parse text with
  | error fault => rfl
  | ok f =>
    have hsize : (NumberSymbols.placeholders mark symbols.groupSize).groupSize = symbols.groupSize := rfl
    simp only [bind, Except.bind, pure, Except.pure, hsize]
    cases ht : template symbols.groupSize f p with
    | error fault => rfl
    | ok t =>
      have hsubstitute := substitute_render hmark symbols (isOrdinary_template ht) symbols.groupSize
      exact congrArg Except.ok hsubstitute.symm

end Standard

namespace NumberFormatter
open FormatString Numeral

/-- Under every standard format string a payload that is not a number is written as its symbol. -/
theorem standard_of_special {own : NumberSymbols} {provider : Option NumberSymbols} {p : Payload}
    {letter : Char} {digits : List Char} {s : Symbol} (h : IsStandard p letter digits)
    (hletter : letter ∉ Specifier.integralLetters) (hp : p.numeric = .special s) :
    (standard own).format (String.ofList (letter :: digits)) provider p =
      .ok ((provider.getD own).text s) := by
  have halpha := Specifier.isAlpha_of_mem h.letter_mem
  obtain ⟨specifier, hspecifier⟩ :=
    Option.isSome_iff_exists.mp ((Specifier.mem_letters_iff halpha).mp h.letter_mem)
  rw [Specifier.mem_integralLetters_iff halpha, hspecifier] at hletter
  cases specifier with
  | decimal | hexadecimal => exact absurd ⟨_, rfl, rfl⟩ hletter
  | numeric style =>
    rw [standard_of_template h (Standard.template_special hspecifier hp)]
    simp [Template.render, Piece.chars]

/-- Every text under some symbols is the text under placeholders with the symbols put in their places, and
a fault under the one is the same fault under the other. What the symbols are, empty, long, alike or made of
digits, thus has no say in which digits, separators and signs a text has or where. A payload that is not
a number is one symbol, and a formatter's own symbols serve as the caller's would. -/
theorem standard_substitutes_symbols (own symbols : NumberSymbols) (mark : Symbol → Char)
    (hmark : IsPlaceholder mark) (p : Payload) :
    let formatted (provider : NumberSymbols) (text : String) :=
      (standard own).format text (some provider) p
    (∀ text, formatted symbols text =
      (formatted (.placeholders mark symbols.groupSize) text).map (symbols.substitute mark)) ∧
    (∀ f bits, p.content = .float f bits →
      ∀ letter ∈ ['F', 'N', 'E', 'G', 'P', 'R', 'f', 'n', 'e', 'g', 'p', 'r'],
      ∀ precision : List Char, (∀ c ∈ precision, c.isDigit = true) →
      value 10 (precision.map digitValue) ≤ 99 →
      let shown := formatted symbols (String.ofList (letter :: precision))
      (f.isNan bits = true → shown = .ok symbols.nanSymbol) ∧
      (f.isInfinite bits = true → shown = .ok (if f.isNegative bits then
        symbols.negativeInfinitySymbol else symbols.positiveInfinitySymbol))) ∧
    ∀ text, (standard symbols).format text none p = formatted symbols text := by
  intro formatted
  refine ⟨fun text => ?_, fun f bits hc letter hletter precision hdigits hbound => ?_,
    fun text => rfl⟩
  · simp only [formatted, standard, Option.getD_some, Standard.format_eq_substitute hmark symbols text p]
    cases Standard.format (.placeholders mark symbols.groupSize) text p <;> rfl
  · have hletters : letter ∈ Specifier.letters ∧ letter ∉ Specifier.integralLetters := by
      fin_cases hletter <;> decide
    have hstandard : IsStandard p letter precision :=
      ⟨hletters.1, hdigits, hbound, fun hmem => absurd hmem hletters.2⟩
    intro shown
    refine ⟨fun hnan => ?_, fun hinfinite => ?_⟩
    · exact standard_of_special hstandard hletters.2 (Payload.numeric_of_isNan hc hnan)
    · refine (standard_of_special hstandard hletters.2
        (Payload.numeric_of_isInfinite hc hinfinite)).trans ?_
      cases f.isNegative bits <;> rfl

/-- No sign, and two separators that look like the digits around them. -/
theorem standard_substitutes_symbols_digits :
    let mark : Symbol → Char := fun
      | .negativeSign => '-' | .positiveSign => '+' | .decimalSeparator => '.'
      | .groupSeparator => ',' | .percent => '%' | .nan => '?' | .positiveInfinity => '>'
      | .negativeInfinity => '<'
    let symbols : NumberSymbols :=
      { NumberSymbols.invariant with
        negativeSign := "", decimalSeparator := "00", groupSeparator := "00" }
    let p := Payload.ofInt .int32 (-1234)
    IsPlaceholder mark ∧
      (standard .invariant).format "N1" (some (.placeholders mark 3)) p = .ok "-1,234.0" ∧
      (standard .invariant).format "N1" (some symbols) p = .ok "100234000" := by
  intro mark symbols p
  have hmark : IsPlaceholder mark := by
    refine ⟨fun s t hst => ?_, fun s => ?_, fun s => ?_⟩
    · cases s <;> cases t <;> first | rfl | exact absurd hst (by decide)
    · cases s <;> rfl
    · cases s <;> decide
  have hplaced : (standard .invariant).format "N1" (some (.placeholders mark 3)) p = .ok "-1,234.0" := by
    decide +kernel
  refine ⟨hmark, hplaced, ?_⟩
  have hsubstituted : (standard .invariant).format "N1" (some symbols) p =
      ((standard .invariant).format "N1" (some (.placeholders mark 3)) p).map
        (symbols.substitute mark) :=
    (standard_substitutes_symbols .invariant symbols mark hmark p).1 "N1"
  rw [hsubstituted, hplaced]
  decide +kernel

end NumberFormatter

end ManagedTypes
