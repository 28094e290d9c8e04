import ManagedTypes.Toml.Document
import ManagedTypes.Proofs.DecimalText
import ManagedTypes.Proofs.QuotedText

/-! Texts of single values: integers, Booleans and quoted text, each read up to the end of its line. -/
namespace ManagedTypes.Toml

/-- The text of a value that ends with its line. -/
structure IsValueText (text : List Char) (node : Node) : Prop where
  head : ∃ c tail, text = c :: tail ∧ isBlank c = false
  read : ∀ rest, readValue (depthLimit - 1) (text ++ '\n' :: rest) = some (node, '\n' :: rest)

section Integer
variable {ds : List Char} (h : ∀ c ∈ ds, c.isDigit = true) (rest : List Char)
include h

theorem readChar_digits {c : Char} (hc : c.isDigit = false) (hline : c ≠ '\n') :
    readChar c (ds ++ '\n' :: rest) = none := by
  cases ds with
  | nil => simp [readChar, hline]
  | cons d ds =>
    have hne : c ≠ d := by
      rintro rfl
      rw [h c List.mem_cons_self] at hc
      cases hc
    simp [readChar, hne]

theorem readField_digits {count low high n : ℕ} {tail : List Char}
    (hread : readField count low high (ds ++ '\n' :: rest) = some (n, tail)) :
    ∃ es, (∀ c ∈ es, c.isDigit = true) ∧ tail = es ++ '\n' :: rest := by
  unfold readField at hread
  dsimp only at hread
  split at hread
  next hfield =>
    obtain ⟨-, hdigits, -, -⟩ := hfield
    cases hread
    have hcount : count ≤ ds.length := by
      by_contra hlt
      have hmem : '\n' ∈ (ds ++ '\n' :: rest).take count := by
        obtain ⟨k, hk⟩ : ∃ k, count - ds.length = k + 1 := ⟨count - ds.length - 1, by omega⟩
        rw [List.take_append, hk]
        simp
      exact absurd (List.all_eq_true.mp hdigits _ hmem) (by decide)
    exact ⟨ds.drop count, fun c hc => h c (List.mem_of_mem_drop hc),
      List.drop_append_of_le_length hcount⟩
  · cases hread

theorem readMoment_digits : readMoment (ds ++ '\n' :: rest) = none := by
  have hdate : readDate (ds ++ '\n' :: rest) = none := by
    unfold readDate
    cases hf : readField 4 0 9999 (ds ++ '\n' :: rest) with
    | none => rfl
    | some p =>
      obtain ⟨es, hes, htail⟩ := readField_digits h rest hf
      simp [htail, readChar_digits hes rest]
  have htime : readTime (ds ++ '\n' :: rest) = none := by
    unfold readTime
    cases hf : readField 2 0 23 (ds ++ '\n' :: rest) with
    | none => rfl
    | some p =>
      obtain ⟨es, hes, htail⟩ := readField_digits h rest hf
      simp [htail, readChar_digits hes rest]
  rw [readMoment, hdate, htime]
  rfl

theorem moreDigits_digits : moreDigits Char.isDigit (ds ++ '\n' :: rest) = (ds, '\n' :: rest) := by
  induction ds with
  | nil => simp [moreDigits]
  | cons d ds ih =>
    have hd := h d List.mem_cons_self
    have hne : d ≠ '_' := by
      rintro rfl
      exact absurd hd (by decide)
    simp [moreDigits, hne, hd, ih fun c hc => h c (List.mem_cons_of_mem d hc)]

theorem readSign_digits : readSign (ds ++ '\n' :: rest) = (none, ds ++ '\n' :: rest) := by
  unfold readSign
  cases ds with
  | nil => rfl
  | cons d ds =>
    have hd := h d List.mem_cons_self
    split
    next heq =>
      cases (List.cons.inj heq).1
      exact absurd hd (by decide)
    next heq =>
      cases (List.cons.inj heq).1
      exact absurd hd (by decide)
    · rfl

theorem digits_ne_based {c : Char} (hc : c.isDigit = false) (hline : c ≠ '\n') (tail : List Char) :
    ds ++ '\n' :: rest ≠ '0' :: c :: tail := by
  cases ds with
  | nil => simp
  | cons d ds =>
    intro heq
    have hnone := readChar_digits (fun e he => h e (List.mem_cons_of_mem d he)) rest hc hline
    have htail : ds ++ '\n' :: rest = c :: tail := (List.cons.inj heq).2
    simp [htail, readChar] at hnone

end Integer

theorem numeral_chars (n : ℕ) : numeral 10 (Numeral.chars n) = n := by
  have hvalue : ∀ d < 10, (hexValue? (Numeral.lowerChar d)).getD 0 = d := by decide
  have hmap : (Numeral.chars n).map (fun c => (hexValue? c).getD 0) = Numeral.digits 10 n := by
    rw [Numeral.chars, List.map_map]
    conv_rhs => rw [← List.map_id (Numeral.digits 10 n)]
    exact List.map_congr_left fun d hd => hvalue d (Numeral.digits_lt (by norm_num) d hd)
  rw [numeral, hmap, Numeral.value_digits]

theorem readWhole_chars (n : ℕ) (rest : List Char) :
    readWhole (Numeral.chars n ++ '\n' :: rest) = some (Numeral.chars n, '\n' :: rest) := by
  have hlt := Numeral.digits_lt (n := n) (by norm_num : 2 ≤ 10)
  rcases Nat.eq_zero_or_pos n with rfl | hpos
  · rw [Numeral.chars, Numeral.digits_of_lt (by norm_num)]
    rfl
  · obtain ⟨d, ds, hds⟩ := List.exists_cons_of_ne_nil (Numeral.digits_ne_nil 10 n)
    have hhead := Numeral.head_digits hpos
    rw [hds] at hlt hhead
    have hd := hlt d List.mem_cons_self
    have hne : Numeral.lowerChar d ≠ '0' := fun hzero =>
      hhead (by rw [List.head?_cons, Numeral.eq_zero_of_lowerChar hd hzero])
    have hmore := moreDigits_digits
      (Numeral.all_isDigit fun e he => hlt e (List.mem_cons_of_mem d he)) rest
    rw [Numeral.chars, hds, List.map_cons, List.cons_append]
    unfold readWhole
    split
    next heq => exact absurd (List.cons.inj heq).1 hne
    · rw [digits, if_pos (Numeral.isDigit_lowerChar hd), hmore]

/-- A run of digits is no date and no float, but an integer. -/
theorem readNumber_chars {n : ℕ} (h : n ≤ 0x7FFFFFFFFFFFFFFF) (rest : List Char) :
    readNumber (Numeral.chars n ++ '\n' :: rest) = some (.integer n, '\n' :: rest) := by
  have hdigit : ∀ c ∈ Numeral.chars n, c.isDigit = true :=
    Numeral.all_isDigit (Numeral.digits_lt (by norm_num))
  have hsign := readSign_digits hdigit rest
  -- A float would need a point or an exponent where the line ends.
  have hfloat : readFloat (Numeral.chars n ++ '\n' :: rest) = none := by
    simp [readFloat, hsign, readWhole_chars, readFraction, readExponent]
  have hinteger : readInteger (Numeral.chars n ++ '\n' :: rest) =
      some (.integer n, '\n' :: rest) := by
    unfold readInteger
    split
    next heq => exact absurd heq (digits_ne_based hdigit rest (by decide) (by decide) _)
    next heq => exact absurd heq (digits_ne_based hdigit rest (by decide) (by decide) _)
    next heq => exact absurd heq (digits_ne_based hdigit rest (by decide) (by decide) _)
    · simp [hsign, readWhole_chars, numeral_chars, integerOf, h]
  rw [readNumber, readMoment_digits hdigit, hfloat, hinteger]
  rfl

theorem readValue_scalar {c : Char} (hbracket : c ≠ '[') (hbrace : c ≠ '{') (depth : ℕ)
    (cs : List Char) : readValue depth (c :: cs) = readScalar (c :: cs) := by
  cases depth with
  | zero => rfl
  | succ depth => simp [readValue, hbracket, hbrace]

/-- A text whose first character opens neither brackets nor braces is read as a scalar. -/
theorem isValueText_of_readScalar {c : Char} {tail : List Char} {node : Node}
    (hblank : isBlank c = false) (hbracket : c ≠ '[') (hbrace : c ≠ '{')
    (hread : ∀ rest, readScalar (c :: tail ++ '\n' :: rest) = some (node, '\n' :: rest)) :
    IsValueText (c :: tail) node where
  head := ⟨c, tail, rfl, hblank⟩
  read rest := by
    rw [List.cons_append, readValue_scalar hbracket hbrace]
    exact hread rest

def booleanChars (b : Bool) : List Char :=
  if b then ['t', 'r', 'u', 'e'] else ['f', 'a', 'l', 's', 'e']

theorem isValueText_booleanChars (b : Bool) :
    IsValueText (booleanChars b) (.scalar (.boolean b)) := by
  cases b
  · exact isValueText_of_readScalar (by decide) (by decide) (by decide) fun rest => rfl
  · exact isValueText_of_readScalar (by decide) (by decide) (by decide) fun rest => rfl

theorem isValueText_chars {n : ℕ} (h : n ≤ 0x7FFFFFFFFFFFFFFF) :
    IsValueText (Numeral.chars n) (.scalar (.integer n)) := by
  obtain ⟨d, ds, hds⟩ := List.exists_cons_of_ne_nil (Numeral.digits_ne_nil 10 n)
  have hlt := Numeral.digits_lt (n := n) (by norm_num : 2 ≤ 10)
  have hd : (Numeral.lowerChar d).isDigit = true := Numeral.isDigit_lowerChar (hlt d (by simp [hds]))
  have hread := readNumber_chars h
  rw [Numeral.chars, hds, List.map_cons] at hread ⊢
  have hne (c : Char) (hc : c.isDigit = false) : Numeral.lowerChar d ≠ c := by
    intro heq
    rw [heq, hc] at hd
    cases hd
  refine isValueText_of_readScalar ?_ (hne _ (by decide)) (hne _ (by decide)) fun rest => ?_
  · simp [isBlank, hne ' ' (by decide), hne '\t' (by decide)]
  · have hbasic := hne basic.mark (by decide)
    have hliteral := hne literal.mark (by decide)
    have hinteger := hread rest
    rw [List.cons_append] at hinteger ⊢
    simp [readScalar, hbasic, hliteral, hd, hinteger]

theorem isValueText_writeQuoted (text : List Char) :
    IsValueText (writeQuoted text) (.scalar (.text (String.ofList text))) := by
  obtain ⟨q, tail, hq, htext, hquoted⟩ := readQuoted_writeQuoted text
  rw [htext] at hquoted ⊢
  rcases hq with rfl | rfl
  · refine isValueText_of_readScalar (by decide) (by decide) (by decide) fun rest => ?_
    have hread := hquoted ('\n' :: rest) (by simp [basic])
    rw [List.cons_append] at hread ⊢
    simp [readScalar, hread]
  · refine isValueText_of_readScalar (by decide) (by decide) (by decide) fun rest => ?_
    have hread := hquoted ('\n' :: rest) (by simp [literal])
    have hne : literal.mark ≠ basic.mark := by decide
    rw [List.cons_append] at hread ⊢
    simp [readScalar, hread, hne]

end ManagedTypes.Toml
