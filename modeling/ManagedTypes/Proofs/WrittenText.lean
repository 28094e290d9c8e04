import ManagedTypes.Proofs.PositionalDigits

/-! What is written under some symbols is a template filled with them: the writer's pieces, put one
behind the other, are the layout's. -/
namespace ManagedTypes
open Numeral

namespace Writer

variable {size : ℕ}

theorem chunks_nil : chunks size [] = [] := by
  rw [chunks, dif_neg (by simp)]

theorem chunks_cons (hsize : 0 < size) {text : List Char} (h : text ≠ []) :
    chunks size text = text.take size :: chunks size (text.drop size) := by
  rw [chunks, dif_pos ⟨hsize, List.length_pos_iff.mpr h⟩]

theorem chunks_of_length (hsize : 0 < size) {text : List Char} (h : text.length = size) :
    chunks size text = [text] := by
  have hne : text ≠ [] := by
    rintro rfl
    simp at h
    omega
  rw [chunks_cons hsize hne, List.take_of_length_le h.le, List.drop_of_length_le h.le, chunks_nil]

/-- Full pieces do not depend on what follows them. -/
theorem chunks_append (hsize : 0 < size) {count : ℕ} {front : List Char}
    (h : front.length = count * size) (back : List Char) :
    chunks size (front ++ back) = chunks size front ++ chunks size back := by
  induction count generalizing front with
  | zero =>
    obtain rfl := List.eq_nil_of_length_eq_zero (by simpa using h)
    rw [chunks_nil, List.nil_append, List.nil_append]
  | succ count ih =>
    rw [Nat.succ_mul] at h
    have hne : front ≠ [] := List.ne_nil_of_length_pos (by omega)
    have hrest : (front.drop size).length = count * size := by rw [List.length_drop]; omega
    rw [chunks_cons hsize hne, chunks_cons hsize (List.append_ne_nil_of_left_ne_nil hne back),
      List.take_append_of_le_length (by omega), List.drop_append_of_le_length (by omega), ih hrest,
      List.cons_append]

/-- What is left over, if anything is, and the pieces behind it are the groups counted from the right. -/
theorem groups_eq_chunks (hsize : 0 < size) {text : List Char} (h : text ≠ []) :
    groups size text = (if text.length % size = 0 then [] else [text.take (text.length % size)]) ++
      chunks size (text.drop (text.length % size)) := by
  induction hn : text.length using Nat.strong_induction_on generalizing text with
  | _ n ih =>
    have hpos := List.length_pos_iff.mpr h
    rcases lt_trichotomy n size with hlt | heq | hgt
    · rw [groups_of_not (by omega), Nat.mod_eq_of_lt hlt, if_neg (by omega),
        List.take_of_length_le (by omega), List.drop_of_length_le (by omega), chunks_nil,
        List.append_nil]
    · rw [groups_of_not (by omega), heq, Nat.mod_self, if_pos rfl, List.drop_zero,
        chunks_of_length hsize (by omega), List.nil_append]
    · have hrest : (n - size) % size = n % size := (Nat.mod_eq_sub_mod hgt.le).symm
      have hlength : (text.take (n - size)).length = n - size := by rw [List.length_take]; omega
      have hback : (text.drop (n - size)).length = size := by rw [List.length_drop]; omega
      have hle : n % size ≤ n - size := hrest ▸ Nat.mod_le _ _
      have hne : text.take (n - size) ≠ [] := List.ne_nil_of_length_pos (by omega)
      have hfront := ih (n - size) (by omega) hne hlength
      have hsplit : text.drop (n % size) =
          (text.take (n - size)).drop (n % size) ++ text.drop (n - size) := by
        rw [← List.drop_append_of_le_length (by omega), List.take_append_drop]
      have hfull : ((text.take (n - size)).drop (n % size)).length = (n - size) / size * size := by
        have hdiv := Nat.div_add_mod' (n - size) size
        rw [List.length_drop, hlength]
        omega
      rw [groups_of_lt hsize (hn ▸ hgt), hn, hfront, hrest, hsplit, chunks_append hsize hfull,
        chunks_of_length hsize hback, List.take_take, min_eq_left hle, List.append_assoc]

theorem intercalate_cons (separator first : List Char) (rest : List (List Char)) :
    separator.intercalate (first :: rest) = first ++ rest.flatMap (separator ++ ·) := by
  induction rest generalizing first with
  | nil => simp
  | cons next rest ih =>
    simp only [List.intercalate_cons_cons, ih, List.flatMap_cons, List.append_assoc]

theorem flatten_mapIdx (separator : List Char) (pieces : List (List Char)) :
    (pieces.mapIdx fun _ piece => separator ++ piece).flatten = pieces.flatMap (separator ++ ·) := by
  rw [List.flatMap]
  congr 1
  exact List.ext_getElem (by simp) (by simp)

variable (symbols : NumberSymbols)

/-- Separators stand between the groups and nowhere else. -/
theorem group_eq {digits : List Char} (h : digits ≠ []) :
    group symbols digits =
      symbols.groupSeparator.toList.intercalate (groups symbols.groupSize digits) := by
  unfold group
  dsimp only
  split
  next hone => rw [groups_of_not (by omega), List.intercalate_singleton]
  next hmany =>
    have hsize : 0 < symbols.groupSize := by omega
    rw [groups_eq_chunks hsize h]
    by_cases hzero : digits.length % symbols.groupSize = 0
    · rw [hzero, if_pos rfl, List.take_zero, List.drop_zero, chunks_cons hsize h, List.nil_append,
        List.nil_append, intercalate_cons, List.mapIdx_cons]
      simp [flatten_mapIdx]
    · have hpos : 0 < digits.length % symbols.groupSize := Nat.pos_of_ne_zero hzero
      rw [if_neg hzero, List.singleton_append, intercalate_cons]
      simp [hpos, flatten_mapIdx]

/-! Each text is the characters of its layout. -/

variable {symbols} {d : Decimal}

theorem digitsFrom_eq (start : ℤ) (count : ℕ) :
    digitsFrom d start count = (Layout.window d start count).map lowerChar := by
  simp [digitsFrom, Layout.window]

theorem integral_eq (d : Decimal) : integral d = (Layout.wholeDigits d).map lowerChar := by
  unfold integral Layout.wholeDigits
  split
  · rfl
  · exact digitsFrom_eq 0 _

theorem sign_eq (negative : Bool) :
    sign symbols negative = (Layout.sign negative).flatMap (Piece.chars symbols) :=
  (Layout.chars_sign symbols negative).symm

theorem decimal_eq (v : ℤ) (width : ℕ) :
    decimal symbols v width = (Standard.decimal v width).flatMap (Piece.chars symbols) := by
  rw [Standard.decimal, List.flatMap_append, Layout.chars_digits, ← sign_eq, decimal]

theorem hexadecimal_eq (pattern width : ℕ) (lower : Bool) :
    hexadecimal pattern width lower =
      (Standard.hexadecimal pattern width lower).flatMap (Piece.chars symbols) := by
  rw [Standard.hexadecimal, List.flatMap_map, hexadecimal]
  cases lower <;> simp [Piece.chars, List.map_eq_flatMap]

theorem fixed_eq (d : Decimal) (decimals : ℕ) (grouped : Bool) :
    fixed symbols d decimals grouped =
      (Layout.fixed d decimals (if grouped then some symbols.groupSize else none)).flatMap
        (Piece.chars symbols) := by
  unfold fixed Layout.fixed
  dsimp only
  have htail : Layout.window (d.roundTo (d.scale + decimals)) (d.roundTo (d.scale + decimals)).scale
      decimals = [] ↔ decimals = 0 := by rw [← List.length_eq_zero_iff, Layout.length_window]
  have hwhole : (Layout.wholeDigits (d.roundTo (d.scale + decimals))).map lowerChar ≠ [] := by
    simpa using Layout.wholeDigits_ne_nil _
  rw [List.flatMap_append, List.flatMap_append, Layout.digitsFrom_eq, Layout.chars_fraction, ← sign_eq,
    digitsFrom_eq, integral_eq, Layout.whole_eq]
  simp only [htail]
  cases grouped
  · simp only [Bool.false_eq_true, if_false, Layout.chars_digits]
  · simp only [if_true, Layout.chars_grouped, group_eq symbols hwhole]

theorem exponent_eq (marker : Char) (e : ℤ) (width : ℕ) :
    marker :: exponent symbols e width =
      (Piece.char marker :: Layout.exponent e width).flatMap (Piece.chars symbols) := by
  rw [Layout.chars_exponent, Layout.exponentText, exponent]

theorem scientific_eq (d : Decimal) (decimals : ℕ) (marker : Char) :
    scientific symbols d decimals marker =
      (Layout.scientific d decimals marker).flatMap (Piece.chars symbols) := by
  unfold scientific Layout.scientific
  dsimp only
  have htail : Layout.window (d.roundTo (decimals + 1)) 1 decimals = [] ↔ decimals = 0 := by
    rw [← List.length_eq_zero_iff, Layout.length_window]
  simp only [List.flatMap_append, ← exponent_eq, ← sign_eq, digitsFrom_eq, Layout.digitsFrom_eq,
    Layout.chars_fraction, Layout.chars_digits, htail]

/-- Behind the first digit stand all the others. -/
theorem window_tail (h : d.digits ≠ []) :
    Layout.window d 1 (d.digits.length - 1) = d.digits.drop 1 := by
  have hcount : d.digits.length - 1 + 1 = d.digits.length := Nat.sub_add_cancel (List.length_pos_iff.mpr h)
  have hlead := Layout.window_lead hcount.ge
  rw [hcount, Nat.sub_self, List.replicate_zero, List.append_nil] at hlead
  exact (congrArg (List.drop 1) hlead)

/-- The zeros in front of the digits are written one by one. -/
theorem window_places :
    Layout.window d d.scale ((d.digits.length : ℤ) - d.scale).toNat =
      List.replicate (-d.scale).toNat 0 ++
        Layout.window d (max d.scale 0) (d.digits.length - d.scale.toNat) := by
  rcases le_total d.scale 0 with hle | hge
  · obtain ⟨n, hn⟩ := Int.eq_ofNat_of_zero_le (neg_nonneg.mpr hle)
    have hscale : d.scale = -(n : ℤ) := by omega
    rw [max_eq_right hle, hscale, neg_neg, Int.toNat_natCast,
      show ((d.digits.length : ℤ) - -(n : ℤ)).toNat = n + d.digits.length by omega,
      Layout.window_add, Layout.window_neg, neg_add_cancel,
      show d.digits.length - (-(n : ℤ)).toNat = d.digits.length by omega]
  · rw [max_eq_left hge, show (-d.scale).toNat = 0 by omega, List.replicate_zero, List.nil_append]
    congr 1
    omega

/-- The layout of a number that is not zero. -/
theorem general_of_ne_zero (h : ¬d.isZero = true) (limit : Option ℕ) :
    Layout.general d limit =
      if (decide (d.scale < -3) || limit.any fun (n : ℕ) => decide ((n : ℤ) < d.scale)) = true then
        Layout.sign d.negative ++ Layout.digitsFrom d 0 1 ++
          Layout.fraction (Layout.digitsFrom d 1 (d.digits.length - 1)) ++
          Piece.char 'E' :: Layout.exponent (d.scale - 1) 2
      else
        Layout.sign d.negative ++ Layout.whole d ++
          Layout.fraction (Layout.digitsFrom d d.scale ((d.digits.length : ℤ) - d.scale).toNat) := by
  unfold Layout.general
  rw [if_neg h]
  cases limit <;> rfl

theorem significant_eq (d : Decimal) (limit : Option ℕ) :
    significant symbols d limit = (Layout.general d limit).flatMap (Piece.chars symbols) := by
  unfold significant
  dsimp only
  by_cases hzero : d.isZero = true
  · unfold Layout.general
    rw [if_pos hzero, if_pos hzero, List.flatMap_append, ← sign_eq]
    rfl
  have hne : d.digits ≠ [] := by simpa [Decimal.isZero] using hzero
  rw [if_neg hzero, general_of_ne_zero hzero]
  by_cases hfar : (decide (d.scale < -3) || limit.any fun (n : ℕ) => decide ((n : ℤ) < d.scale)) = true
  · rw [if_pos hfar, if_pos hfar, List.flatMap_append, List.flatMap_append, List.flatMap_append,
      ← exponent_eq, ← sign_eq, Layout.digitsFrom_eq, Layout.digitsFrom_eq, Layout.chars_fraction,
      Layout.chars_digits, window_tail hne, digitsFrom_eq]
    simp only [List.drop_eq_nil_iff, List.append_assoc]
  · have hpos := List.length_pos_iff.mpr hne
    have hplaces : List.replicate (-d.scale).toNat 0 ++
        Layout.window d (max d.scale 0) (d.digits.length - d.scale.toNat) = [] ↔
          d.digits.length - d.scale.toNat = 0 := by
      rw [← List.length_eq_zero_iff, List.length_append, List.length_replicate, Layout.length_window]
      omega
    rw [if_neg hfar, if_neg hfar, List.flatMap_append, List.flatMap_append, ← sign_eq,
      Layout.digitsFrom_eq, Layout.chars_fraction, Layout.whole_eq, Layout.chars_digits, integral_eq,
      window_places, digitsFrom_eq]
    simp only [hplaces, List.append_assoc, List.map_append, List.map_replicate]
    rfl

/-- Zero digits asked for are none asked for. -/
theorem general_eq (t : PayloadType) (d : Decimal) (precision : Option ℕ) :
    general symbols d (precision.filter (0 < ·)) t.positionalDigits =
      (Standard.general t d precision).flatMap (Piece.chars symbols) := by
  match precision with
  | none | some 0 => exact significant_eq d _
  | some (n + 1) => exact significant_eq (d.roundTo (n + 1 : ℕ)) _

end Writer

namespace Standard

variable {symbols : NumberSymbols}

theorem styled_eq (f : FormatString) (s : Style) (t : PayloadType) (d : Decimal) :
    styled symbols f s t d = (number symbols.groupSize f s t d).flatMap (Piece.chars symbols) := by
  cases s with
  | fixed => exact Writer.fixed_eq d _ false
  | number => exact Writer.fixed_eq d _ true
  | scientific => exact Writer.scientific_eq d _ _
  | general => exact Writer.general_eq t d f.precision
  | roundTrip => exact Writer.general_eq t d none
  | percent =>
    rw [styled, number, List.flatMap_append, Writer.fixed_eq, if_pos rfl]
    simp [Piece.chars, NumberSymbols.text]

theorem write_eq (f : FormatString) (p : Payload) :
    write symbols f p = (template symbols.groupSize f p).map (Template.render symbols) := by
  unfold write template
  cases Specifier.ofLetter? f.letter with
  | none => rfl
  | some s =>
    cases s with
    | decimal =>
      cases p.integer? with
      | none => rfl
      | some v => exact congrArg (Except.ok ∘ String.ofList) (Writer.decimal_eq v _)
    | hexadecimal =>
      cases p.pattern? with
      | none => rfl
      | some n => exact congrArg (Except.ok ∘ String.ofList) (Writer.hexadecimal_eq n _ _)
    | numeric s =>
      cases p.numeric with
      | special symbol => simp [Except.map, Template.render, Piece.chars]
      | decimal d => exact congrArg (Except.ok ∘ String.ofList) (styled_eq f s p.type d)

/-- A text under a format string is the template that the string asks for, filled with the symbols. -/
theorem format_eq_bind (text : String) (p : Payload) :
    format symbols text p = do
      let f ← FormatString.parse text
      let t ← template symbols.groupSize f p
      return t.render symbols := by
  unfold format
  cases FormatString.parse text with
  | error fault => rfl
  | ok f =>
    simp only [bind, Except.bind, write_eq]
    cases template symbols.groupSize f p <;> rfl

theorem canonical_eq_render (p : Payload) :
    canonical p = Template.render .invariant
      (match p.numeric with
        | .special symbol => [.symbol symbol]
        | .decimal d => allDigits p.type d) := by
  unfold canonical
  cases p.numeric with
  | special symbol => simp [Template.render, Piece.chars]
  | decimal d => exact congrArg String.ofList (Writer.general_eq p.type d none)

end Standard

end ManagedTypes
