import ManagedTypes.Options.Document
import ManagedTypes.Proofs.DocumentText
import ManagedTypes.Proofs.IntegerBounds

/-! Options that are written read back as they were, as far as they pass validation, and all options
that are read can be written. -/
namespace ManagedTypes.Options
open Toml

def textual (key value : String) : Field :=
  ⟨key, writeQuoted value.toList, .scalar (.text value)⟩

variable (o : Options)

/-- The written document. -/
def sections : List Section :=
  [⟨"enumeration",
      [⟨"hide_root_fields", booleanChars o.enumeration.hideRootFields,
        .scalar (.boolean o.enumeration.hideRootFields)⟩]⟩,
    ⟨"format",
      [textual "negative_sign" o.format.negativeSign,
        textual "positive_sign" o.format.positiveSign,
        textual "decimal_separator" o.format.decimalSeparator,
        textual "group_separator" o.format.groupSeparator,
        ⟨"group_size", Numeral.chars o.format.groupSize, .scalar (.integer o.format.groupSize)⟩,
        textual "percent_symbol" o.format.percentSymbol,
        textual "nan_symbol" o.format.nanSymbol,
        textual "positive_infinity_symbol" o.format.positiveInfinitySymbol,
        textual "negative_infinity_symbol" o.format.negativeInfinitySymbol]⟩]

theorem ofEntries_sections :
    ofEntries ((sections o).map fun s => (s.name, .table .header s.entries)) = some o := by
  simp [ofEntries, sections, Section.entries, FieldSource.field, FieldSource.get?, Entries.find?,
    List.lookup, FieldSource.ofNode?, EnumerationOptions.ofSource, NumberSymbols.ofSource,
    decodeBoolean, decodeText, decodeSize, textual]

theorem toList_textField (key value : String) :
    (textField key value).toList = (textual key value).line.chars := by
  simp only [textField, textual, Field.line, Line.chars, String.toList_append, String.toList_ofList,
    List.append_assoc]
  rfl

/-- Documents have an integer for the group size. -/
def Writable (o : Options) : Prop := o.format.groupSize ≤ 0x7FFFFFFFFFFFFFFF

variable {o} (h : o.Writable)
include h

theorem write_eq :
    o.write = .ok (String.ofList ((sectionLines (sections o)).flatMap Line.chars)) := by
  have henumeration : "[enumeration]\n".toList = (Line.header "enumeration").chars := rfl
  have hformat : "\n[format]\n".toList = Line.blank.chars ++ (Line.header "format").chars := rfl
  have hboolean : "hide_root_fields = ".toList ++
      ((if o.enumeration.hideRootFields then "true" else "false").toList ++ "\n".toList) =
      (Line.entry "hide_root_fields" (booleanChars o.enumeration.hideRootFields)
        (.scalar (.boolean o.enumeration.hideRootFields))).chars := by
    cases o.enumeration.hideRootFields <;> rfl
  have hdigits : (Numeral.text o.format.groupSize).toList = Numeral.chars o.format.groupSize :=
    String.toList_ofList
  have hsize : "group_size = ".toList ++ ((Numeral.text o.format.groupSize).toList ++ "\n".toList) =
      (Line.entry "group_size" (Numeral.chars o.format.groupSize)
        (.scalar (.integer o.format.groupSize))).chars := by
    rw [hdigits]
    rfl
  unfold write
  rw [if_neg (Nat.not_lt.mpr h)]
  refine congrArg Except.ok (String.toList_inj.mp ?_)
  rw [String.toList_join, String.toList_ofList]
  simp only [sections, sectionLines, Section.lines, Field.line, List.map_cons, List.map_nil,
    List.cons_append, List.nil_append, List.flatMap_cons, List.flatMap_nil, List.append_nil,
    toList_textField, henumeration, hformat, ← hboolean, ← hsize, List.append_assoc]

omit h in
theorem isBareName_of_all {name : String}
    (h : (!name.toList.isEmpty && name.toList.all isBareKey) = true) : IsBareName name := by
  simpa [IsBareName] using h

omit h in
theorem wellFormed_textual {key : String} (h : IsBareName key) (value : String) :
    (textual key value).WellFormed := by
  have hvalue := isValueText_writeQuoted value.toList
  rw [String.ofList_toList] at hvalue
  exact ⟨h, hvalue⟩

theorem wellFormed_sections : ∀ s ∈ sections o, s.WellFormed := by
  have henumeration : IsBareName "enumeration" := isBareName_of_all rfl
  have hformat : IsBareName "format" := isBareName_of_all rfl
  have hboolean : IsBareName "hide_root_fields" := isBareName_of_all rfl
  have hsize : IsBareName "group_size" := isBareName_of_all rfl
  simp only [sections, List.forall_mem_cons]
  refine ⟨⟨henumeration, ?_, by simp⟩, ⟨hformat, ?_, by simp [textual]⟩, List.forall_mem_nil _⟩
  · exact List.forall_mem_singleton.mpr ⟨hboolean, isValueText_booleanChars _⟩
  · simp only [List.forall_mem_cons]
    refine ⟨wellFormed_textual ?_ _, wellFormed_textual ?_ _, wellFormed_textual ?_ _,
      wellFormed_textual ?_ _, ⟨hsize, isValueText_chars h⟩, wellFormed_textual ?_ _,
      wellFormed_textual ?_ _, wellFormed_textual ?_ _, wellFormed_textual ?_ _,
      List.forall_mem_nil _⟩
    all_goals exact isBareName_of_all rfl

theorem read_of_writable :
    ∃ text, o.write = .ok text ∧ read text = o.validate.map fun _ => o := by
  have hnames : (sections o).map Section.name = ["enumeration", "format"] := rfl
  have hparse := parse_sections (by rw [hnames]; decide) (wellFormed_sections h)
  refine ⟨_, write_eq h, ?_⟩
  rw [read, hparse, Option.bind_eq_bind, Option.bind_some, ofEntries_sections]

end ManagedTypes.Options

namespace ManagedTypes
open Toml

namespace FieldSource

def Bounded : FieldSource → Prop
  | named entries => entries.Bounded
  | listed elements => ∀ e ∈ elements, e.Bounded

theorem Bounded.get? {s : FieldSource} (h : s.Bounded) {position : ℕ} {name : String} {node : Node}
    (hget : s.get? position name = some node) : node.Bounded := by
  cases s with
  | named entries => exact Entries.Bounded.find? h hget
  | listed elements => exact h node (List.mem_of_getElem? hget)

theorem bounded_ofNode? {node : Node} (h : node.Bounded) {s : FieldSource}
    (hs : ofNode? node = some s) : s.Bounded := by
  cases h with
  | @scalar t _ =>
    cases t <;> cases hs
    exact Entries.bounded_nil
  | array helements =>
    cases hs
    exact helements
  | table hentries =>
    cases hs
    exact hentries
  | tables htables =>
    cases hs
    intro e he
    obtain ⟨entries, hentries, rfl⟩ := List.mem_map.mp he
    exact .table (htables entries hentries)

theorem field_cases {α : Type} {s : FieldSource} {position : ℕ} {name : String} {default a : α}
    {decode : Node → Option α} (h : s.field position name default decode = some a) :
    a = default ∨ ∃ node, s.get? position name = some node ∧ decode node = some a := by
  unfold field at h
  split at h
  next node hget => exact .inr ⟨node, hget, h⟩
  · exact .inl (Option.some.inj h).symm

end FieldSource

theorem decodeSize_le {node : Node} (h : node.Bounded) {n : ℕ} (hn : decodeSize node = some n) :
    n ≤ 0x7FFFFFFFFFFFFFFF := by
  unfold decodeSize at hn
  split at hn
  next v =>
    obtain ⟨hscalar⟩ := h
    have hv := hscalar v rfl
    split at hn
    · cases hn
      omega
    · cases hn
  · cases hn

theorem NumberSymbols.groupSize_le {s : FieldSource} (h : s.Bounded) {symbols : NumberSymbols}
    (hs : ofSource s = some symbols) : symbols.groupSize ≤ 0x7FFFFFFFFFFFFFFF := by
  simp only [ofSource, Option.bind_eq_bind, Option.bind_eq_some_iff] at hs
  obtain ⟨_, _, _, _, _, _, _, _, size, hsize, _, _, _, _, _, _, _, _, hs⟩ := hs
  cases hs
  rcases FieldSource.field_cases hsize with rfl | ⟨node, hget, hdecode⟩
  · exact (by decide : invariant.groupSize ≤ 0x7FFFFFFFFFFFFFFF)
  · exact decodeSize_le (h.get? hget) hdecode

namespace Options

theorem writable_of_ofEntries {entries : Entries} (h : entries.Bounded) {o : Options}
    (ho : ofEntries entries = some o) : o.Writable := by
  simp only [ofEntries, Option.bind_eq_bind, Option.bind_eq_some_iff] at ho
  obtain ⟨_, -, format, hformat, ho⟩ := ho
  cases ho
  rcases FieldSource.field_cases hformat with rfl | ⟨node, hget, hdecode⟩
  · exact (by decide : 3 ≤ 0x7FFFFFFFFFFFFFFF)
  · obtain ⟨source, hsource, hsymbols⟩ := Option.bind_eq_some_iff.mp hdecode
    have hnode := FieldSource.Bounded.get? (s := .named entries) h hget
    exact NumberSymbols.groupSize_le (FieldSource.bounded_ofNode? hnode hsource) hsymbols

/-- Options that are read can be written, and pass validation. -/
theorem of_read {text : String} {o : Options} (h : read text = .ok o) :
    o.Writable ∧ o.validate = .ok () := by
  unfold read at h
  split at h
  · cases h
  next parsed hparsed =>
    obtain ⟨entries, hentries, hparsed⟩ := Option.bind_eq_some_iff.mp hparsed
    cases hvalid : parsed.validate with
    | error fault => simp [hvalid, Except.map] at h
    | ok valid =>
      rw [hvalid] at h
      cases h
      exact ⟨writable_of_ofEntries (bounded_parse hentries) hparsed, hvalid⟩

/-- Options survive being written and read, whatever characters their symbols have: what is read back
are the options themselves, or the fault of their own validation. Only a group size that documents have
no integer for cannot be written, and no document is read as such options. -/
theorem read_write :
    (∀ (o : Options), o.format.groupSize ≤ 2 ^ 63 - 1 →
      ∃ text, o.write = .ok text ∧ read text = o.validate.map fun _ => o) ∧
    (∀ (o : Options), 2 ^ 63 - 1 < o.format.groupSize → o.write = .error .unwritable) ∧
    (∀ (text : String) (o : Options), read text = .ok o →
      ∃ text', o.write = .ok text' ∧ read text' = .ok o) := by
  refine ⟨fun o h => read_of_writable h, fun o h => if_pos h, fun text o h => ?_⟩
  obtain ⟨hwritable, hvalid⟩ := of_read h
  obtain ⟨text', hwrite, hread⟩ := read_of_writable hwritable
  exact ⟨text', hwrite, by rw [hread, hvalid]; rfl⟩

end Options

end ManagedTypes
