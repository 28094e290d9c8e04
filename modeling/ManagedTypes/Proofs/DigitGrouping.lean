import ManagedTypes.Proofs.WrittenText

/-! Grouped digits: the pieces counted from the right, and what putting separators between them leaves
of the digits. -/
namespace ManagedTypes.Writer

/-- A text in pieces of `size` characters, counted from the right. Only the first piece may be shorter,
and without a size there is no other. -/
structure IsGrouping (size : ℕ) (text first : List Char) (rest : List (List Char)) : Prop where
  flatten_eq : first ++ rest.flatten = text
  first_pos : 0 < first.length
  first_le : 0 < size → first.length ≤ size
  length_eq : 0 < size → ∀ piece ∈ rest, piece.length = size
  rest_eq : size = 0 → rest = []

theorem isGrouping_groups (size : ℕ) {text : List Char} (h : text ≠ []) :
    ∃ first rest, groups size text = first :: rest ∧ IsGrouping size text first rest := by
  induction hn : text.length using Nat.strong_induction_on generalizing text with
  | _ n ih =>
    have hpos := List.length_pos_iff.mpr h
    by_cases hcut : 0 < size ∧ size < text.length
    · obtain ⟨hsize, hlt⟩ := hcut
      have hfront : text.take (text.length - size) ≠ [] := by
        apply List.ne_nil_of_length_pos
        rw [List.length_take]
        omega
      obtain ⟨first, rest, hgroups, hfirst⟩ := ih (text.length - size) (by omega) hfront (by simp)
      refine ⟨first, rest ++ [text.drop (text.length - size)], ?_, ?_, hfirst.first_pos,
        hfirst.first_le, ?_, ?_⟩
      · rw [groups_of_lt hsize hlt, hgroups, List.cons_append]
      · rw [List.flatten_append, List.flatten_singleton, ← List.append_assoc, hfirst.flatten_eq,
          List.take_append_drop]
      · intro _ piece hpiece
        rcases List.mem_append.mp hpiece with hpiece | hpiece
        · exact hfirst.length_eq hsize piece hpiece
        · rw [List.mem_singleton.mp hpiece, List.length_drop]
          omega
      · intro hzero
        omega
    · refine ⟨text, [], groups_of_not hcut, by simp, hpos, fun hsize => ?_, fun _ => nofun, fun _ => rfl⟩
      omega

namespace IsGrouping
variable {size : ℕ} {text first : List Char} {rest : List (List Char)}
  (h : IsGrouping size text first rest)
include h

theorem length_text (hsize : 0 < size) : text.length = first.length + rest.length * size := by
  have hlengths : rest.map List.length = List.replicate rest.length size := by
    refine List.eq_replicate_iff.mpr ⟨List.length_map _, fun n hn => ?_⟩
    obtain ⟨piece, hpiece, rfl⟩ := List.mem_map.mp hn
    exact h.length_eq hsize piece hpiece
  rw [← h.flatten_eq, List.length_append, List.length_flatten, hlengths, List.sum_replicate,
    smul_eq_mul]

/-- As many pieces follow the first one as the digits after the very first one fill. -/
theorem length_rest (hsize : 0 < size) : rest.length = (text.length - 1) / size := by
  have hlength := h.length_text hsize
  have hpos := h.first_pos
  have hle := h.first_le hsize
  rw [show text.length - 1 = first.length - 1 + rest.length * size by omega,
    Nat.add_mul_div_right _ _ hsize, Nat.div_eq_of_lt (by omega), Nat.zero_add]

/-- The pieces are determined by the text and the size. -/
theorem unique {first' : List Char} {rest' : List (List Char)}
    (h' : IsGrouping size text first' rest') : first' = first ∧ rest' = rest := by
  rcases Nat.eq_zero_or_pos size with hzero | hsize
  · have hfirst := h.flatten_eq
    have hfirst' := h'.flatten_eq
    rw [h.rest_eq hzero, List.flatten_nil, List.append_nil] at hfirst
    rw [h'.rest_eq hzero, List.flatten_nil, List.append_nil] at hfirst'
    exact ⟨hfirst'.trans hfirst.symm, (h'.rest_eq hzero).trans (h.rest_eq hzero).symm⟩
  · have hcount : rest'.length = rest.length := by rw [h.length_rest hsize, h'.length_rest hsize]
    have hlength := h.length_text hsize
    have hlength' := h'.length_text hsize
    rw [hcount] at hlength'
    obtain ⟨hfirst, hflatten⟩ :=
      List.append_inj (h'.flatten_eq.trans h.flatten_eq.symm) (by omega)
    have hlengths : rest'.map List.length = rest.map List.length := by
      rw [List.map_congr_left (h'.length_eq hsize), List.map_congr_left (h.length_eq hsize),
        List.map_const', List.map_const', hcount]
    exact ⟨hfirst, List.eq_iff_flatten_eq.mpr ⟨hflatten, hlengths⟩⟩

/-- The last piece is not empty, whether it is the first one or not. -/
theorem getLast?_join (separator : List Char) :
    (separator.intercalate (first :: rest)).getLast? = text.getLast? := by
  rw [intercalate_cons, ← h.flatten_eq]
  rcases List.eq_nil_or_concat rest with hnil | ⟨front, last, hlast⟩
  · simp [hnil]
  · have hsize : 0 < size := by
      by_contra hzero
      have hrest := h.rest_eq (by omega)
      simp [hlast] at hrest
    have hne : last ≠ [] := by
      apply List.ne_nil_of_length_pos
      rw [h.length_eq hsize last (by simp [hlast])]
      exact hsize
    rw [hlast, List.concat_eq_append, List.flatMap_append, List.flatMap_singleton, List.flatten_append,
      List.flatten_singleton, ← List.append_assoc, ← List.append_assoc, ← List.append_assoc,
      List.getLast?_append_of_ne_nil _ hne, List.getLast?_append_of_ne_nil _ hne]

end IsGrouping

theorem length_join (separator first : List Char) (rest : List (List Char)) :
    (separator.intercalate (first :: rest)).length =
      (first ++ rest.flatten).length + rest.length * separator.length := by
  rw [intercalate_cons]
  induction rest with
  | nil => simp
  | cons piece rest ih =>
    simp only [List.flatMap_cons, List.flatten_cons, List.length_append, List.length_cons] at ih ⊢
    rw [Nat.succ_mul]
    omega

/-- Grouping cuts a text in one way, from the right, and loses nothing of it: separators stand between
the pieces, so that the text still begins and ends with its own first and last characters, whatever
the separator is. -/
theorem group_cut_from_right (symbols : NumberSymbols) (digits : List Char) (h : digits ≠ []) :
    let size := symbols.groupSize
    let separator := symbols.groupSeparator.toList
    let text := group symbols digits
    ∃ first rest, IsGrouping size digits first rest ∧
      (∀ first' rest', IsGrouping size digits first' rest' → first' = first ∧ rest' = rest) ∧
      text = separator.intercalate (first :: rest) ∧
      (0 < size → rest.length = (digits.length - 1) / size) ∧
      text.length = digits.length + rest.length * separator.length ∧
      text.head? = digits.head? ∧ text.getLast? = digits.getLast? := by
  intro size separator text
  obtain ⟨first, rest, hgroups, hpieces⟩ := isGrouping_groups size h
  have htext : text = separator.intercalate (first :: rest) := by
    rw [← hgroups]
    exact group_eq symbols h
  have hfirst : first ≠ [] := List.ne_nil_of_length_pos hpieces.first_pos
  refine ⟨first, rest, hpieces, fun first' rest' => hpieces.unique, htext, hpieces.length_rest, ?_, ?_, ?_⟩
  · rw [htext, length_join, hpieces.flatten_eq]
  · rw [htext, intercalate_cons, ← hpieces.flatten_eq, List.head?_append_of_ne_nil _ hfirst,
      List.head?_append_of_ne_nil _ hfirst]
  · rw [htext, hpieces.getLast?_join]

/-- Six digits in groups of three, between which two zeros stand. -/
theorem group_cut_from_right_zeros :
    let symbols := { NumberSymbols.invariant with groupSeparator := "00" }
    let digits := ['1', '2', '3', '4', '5', '6']
    digits ≠ [] ∧ IsGrouping symbols.groupSize digits ['1', '2', '3'] [['4', '5', '6']] ∧
      group symbols digits = ['1', '2', '3', '0', '0', '4', '5', '6'] := by
  intro symbols digits
  have hdigits : digits ≠ [] := by decide
  have hpieces : IsGrouping symbols.groupSize digits ['1', '2', '3'] [['4', '5', '6']] :=
    ⟨rfl, by decide, by decide, by decide, by decide⟩
  obtain ⟨first, rest, _, hunique, htext, _⟩ := group_cut_from_right symbols digits hdigits
  obtain ⟨rfl, rfl⟩ := hunique _ _ hpieces
  exact ⟨hdigits, hpieces, htext.trans (by decide)⟩

end ManagedTypes.Writer
