import ManagedTypes.Proofs.DocumentStatements
import ManagedTypes.Proofs.OptionsRoundTrip

/-! Documents that give only some of the options: the others stay at their defaults, and a value of a
wrong type is refused wherever it stands. -/
namespace ManagedTypes
open Toml

/-- The types of values that options have. -/
inductive Kind
  | boolean | text | size
  deriving DecidableEq

namespace Kind

abbrev Value : Kind → Type
  | boolean => Bool
  | text => String
  | size => ℕ

/-- A value as a document has it. -/
def scalar : (k : Kind) → k.Value → Scalar
  | boolean, b => .boolean b
  | text, s => .text s
  | size, n => .integer n

def decode? : (k : Kind) → Node → Option k.Value
  | boolean => decodeBoolean
  | text => decodeText
  | size => decodeSize

/-- The scalars that are values. An integer below zero is no size. -/
def Allows (k : Kind) (s : Scalar) : Prop := ∃ v, s = k.scalar v

theorem decode?_scalar (k : Kind) (v : k.Value) : k.decode? (.scalar (k.scalar v)) = some v := by
  cases k <;> simp [decode?, scalar, decodeBoolean, decodeText, decodeSize]

theorem eq_of_decode? (k : Kind) {node : Node} {v : k.Value} (h : k.decode? node = some v) :
    node = .scalar (k.scalar v) := by
  cases k with
  | boolean =>
    change decodeBoolean node = some v at h
    unfold decodeBoolean at h
    split at h <;> cases h
    rfl
  | text =>
    change decodeText node = some v at h
    unfold decodeText at h
    split at h <;> cases h
    rfl
  | size =>
    change decodeSize node = some v at h
    unfold decodeSize at h
    split at h
    next n =>
      split at h <;> cases h
      next hnonneg => simp [scalar, hnonneg]
    · cases h

theorem decode?_eq_none (k : Kind) {node : Node} (h : ∀ s, node = .scalar s → ¬k.Allows s) :
    k.decode? node = none := by
  cases hdecode : k.decode? node with
  | none => rfl
  | some v => exact absurd ⟨v, rfl⟩ (h _ (k.eq_of_decode? hdecode))

end Kind

/-- The ten keys that a document may give values. -/
inductive Setting
  | hideRootFields
  | negativeSign | positiveSign | decimalSeparator | groupSeparator | groupSize | percentSymbol
  | nanSymbol | positiveInfinitySymbol | negativeInfinitySymbol
  deriving DecidableEq

namespace Setting

def all : List Setting :=
  [hideRootFields, negativeSign, positiveSign, decimalSeparator, groupSeparator, groupSize,
    percentSymbol, nanSymbol, positiveInfinitySymbol, negativeInfinitySymbol]

theorem mem_all (s : Setting) : s ∈ all := by cases s <;> decide

def table : Setting → String
  | hideRootFields => "enumeration"
  | _ => "format"

def key : Setting → String
  | hideRootFields => "hide_root_fields"
  | negativeSign => "negative_sign"
  | positiveSign => "positive_sign"
  | decimalSeparator => "decimal_separator"
  | groupSeparator => "group_separator"
  | groupSize => "group_size"
  | percentSymbol => "percent_symbol"
  | nanSymbol => "nan_symbol"
  | positiveInfinitySymbol => "positive_infinity_symbol"
  | negativeInfinitySymbol => "negative_infinity_symbol"

/-- The place among the fields of the table. -/
def position : Setting → ℕ
  | hideRootFields | negativeSign => 0
  | positiveSign => 1
  | decimalSeparator => 2
  | groupSeparator => 3
  | groupSize => 4
  | percentSymbol => 5
  | nanSymbol => 6
  | positiveInfinitySymbol => 7
  | negativeInfinitySymbol => 8

abbrev kind : Setting → Kind
  | hideRootFields => .boolean
  | groupSize => .size
  | _ => .text

abbrev Value (s : Setting) : Type := s.kind.Value

/-- What some options have for the key. -/
def of (o : Options) : (s : Setting) → s.Value
  | hideRootFields => o.enumeration.hideRootFields
  | negativeSign => o.format.negativeSign
  | positiveSign => o.format.positiveSign
  | decimalSeparator => o.format.decimalSeparator
  | groupSeparator => o.format.groupSeparator
  | groupSize => o.format.groupSize
  | percentSymbol => o.format.percentSymbol
  | nanSymbol => o.format.nanSymbol
  | positiveInfinitySymbol => o.format.positiveInfinitySymbol
  | negativeInfinitySymbol => o.format.negativeInfinitySymbol

def tables : List String := ["enumeration", "format"]

theorem table_mem (s : Setting) : s.table ∈ tables := by cases s <;> decide

theorem nodup_keys : (all.map key).Nodup := by decide

theorem key_injective : Function.Injective key := fun s t h =>
  List.inj_on_of_nodup_map nodup_keys (mem_all s) (mem_all t) h

theorem isBareName_key (s : Setting) : IsBareName s.key := by
  cases s <;> exact Options.isBareName_of_all rfl

theorem isBareName_of_mem {table : String} (h : table ∈ tables) : IsBareName table := by
  rcases List.mem_pair.mp h with rfl | rfl <;> exact Options.isBareName_of_all rfl

/-- Reads the key from the fields of its table, over the default. -/
def read? (s : Setting) (source : FieldSource) : Option s.Value :=
  source.field s.position s.key (s.of Options.standard) s.kind.decode?

end Setting

/-- Values for some of the keys. -/
structure Partial where
  value? : (s : Setting) → Option s.Value

namespace Partial

def value (a : Partial) (o : Options) (s : Setting) : s.Value := (a.value? s).getD (s.of o)

/-- The options with the given values in place of their own. -/
def overlay (a : Partial) (o : Options) : Options where
  enumeration := ⟨a.value o .hideRootFields⟩
  format := {
    negativeSign := a.value o .negativeSign
    positiveSign := a.value o .positiveSign
    decimalSeparator := a.value o .decimalSeparator
    groupSeparator := a.value o .groupSeparator
    groupSize := a.value o .groupSize
    percentSymbol := a.value o .percentSymbol
    nanSymbol := a.value o .nanSymbol
    positiveInfinitySymbol := a.value o .positiveInfinitySymbol
    negativeInfinitySymbol := a.value o .negativeInfinitySymbol }

theorem of_overlay (a : Partial) (o : Options) (s : Setting) : s.of (a.overlay o) = (a.value? s).getD (s.of o) := by
  cases s <;> rfl

end Partial

/-! ## Structures -/

theorem EnumerationOptions.ofSource_eq (source : FieldSource) :
    ofSource source = do return ⟨← Setting.hideRootFields.read? source⟩ := rfl

theorem NumberSymbols.ofSource_eq (source : FieldSource) :
    ofSource source = do
      return {
        negativeSign := ← Setting.negativeSign.read? source
        positiveSign := ← Setting.positiveSign.read? source
        decimalSeparator := ← Setting.decimalSeparator.read? source
        groupSeparator := ← Setting.groupSeparator.read? source
        groupSize := ← Setting.groupSize.read? source
        percentSymbol := ← Setting.percentSymbol.read? source
        nanSymbol := ← Setting.nanSymbol.read? source
        positiveInfinitySymbol := ← Setting.positiveInfinitySymbol.read? source
        negativeInfinitySymbol := ← Setting.negativeInfinitySymbol.read? source } := rfl

/-- Fields can only be read all together. -/
theorem EnumerationOptions.exists_read? {source : FieldSource} {o : EnumerationOptions}
    (h : ofSource source = some o) {s : Setting} (hs : s.table = "enumeration") :
    ∃ v, s.read? source = some v := by
  rw [ofSource_eq] at h
  obtain ⟨v, hv, -⟩ := Option.bind_eq_some_iff.mp h
  cases s with
  | hideRootFields => exact ⟨v, hv⟩
  | _ => exact absurd hs (by decide)

theorem NumberSymbols.exists_read? {source : FieldSource} {symbols : NumberSymbols}
    (h : ofSource source = some symbols) {s : Setting} (hs : s.table = "format") :
    ∃ v, s.read? source = some v := by
  simp only [ofSource_eq, Option.bind_eq_bind, Option.bind_eq_some_iff] at h
  obtain ⟨a, ha, b, hb, c, hc, d, hd, e, he, f, hf, g, hg, i, hi, j, hj, -⟩ := h
  cases s with
  | hideRootFields => exact absurd hs (by decide)
  | negativeSign => exact ⟨a, ha⟩
  | positiveSign => exact ⟨b, hb⟩
  | decimalSeparator => exact ⟨c, hc⟩
  | groupSeparator => exact ⟨d, hd⟩
  | groupSize => exact ⟨e, he⟩
  | percentSymbol => exact ⟨f, hf⟩
  | nanSymbol => exact ⟨g, hg⟩
  | positiveInfinitySymbol => exact ⟨i, hi⟩
  | negativeInfinitySymbol => exact ⟨j, hj⟩

namespace Setting
variable {s : Setting}

/-- A key of a table that has it at most as a given value. -/
theorem read?_named {a : Partial} {inner : Entries}
    (h : Entries.find? inner s.key = (a.value? s).map fun v => .scalar (s.kind.scalar v)) :
    s.read? (.named inner) = some (s.of (a.overlay Options.standard)) := by
  rw [a.of_overlay, read?, FieldSource.field, FieldSource.get?, h]
  cases a.value? s with
  | none => rfl
  | some v => exact s.kind.decode?_scalar v

theorem read?_wrong {source : FieldSource} {node : Node}
    (hget : source.get? s.position s.key = some node)
    (hwrong : ∀ t, node = .scalar t → ¬s.kind.Allows t) : s.read? source = none := by
  rw [read?, FieldSource.field, hget]
  exact s.kind.decode?_eq_none hwrong

end Setting

namespace Options

/-- A table that is missing is a table of no keys. -/
theorem field_section {α : Type} {entries inner : Entries} {table : String}
    (h : tableEntries? entries table = some inner) (position : ℕ) (default : α)
    (ofSource : FieldSource → Option α) (hdefault : ofSource (.named []) = some default) :
    (FieldSource.named entries).field position table default
        (fun node => FieldSource.ofNode? node >>= ofSource) = ofSource (.named inner) := by
  unfold tableEntries? at h
  unfold FieldSource.field FieldSource.get?
  dsimp only
  cases hfind : Entries.find? entries table with
  | none =>
    rw [hfind] at h
    cases h
    exact hdefault.symm
  | some node =>
    rw [hfind] at h
    cases node with
    | table origin entries => cases h; rfl
    | _ => cases h

/-- A tree with the given values for the keys and no others. -/
theorem ofEntries_overlay {entries : Entries} {a : Partial}
    (h : ∀ s : Setting, ∃ inner, tableEntries? entries s.table = some inner ∧
      Entries.find? inner s.key = (a.value? s).map fun v => .scalar (s.kind.scalar v)) :
    ofEntries entries = some (a.overlay standard) := by
  obtain ⟨first, hfirst, hhide⟩ := h .hideRootFields
  obtain ⟨second, hsecond, -⟩ := h .negativeSign
  have hread (s : Setting) (hs : s.table = "format") :
      s.read? (.named second) = some (s.of (a.overlay standard)) := by
    obtain ⟨inner, hinner, hfind⟩ := h s
    rw [hs] at hinner
    cases hsecond.symm.trans hinner
    exact Setting.read?_named hfind
  have henumeration : EnumerationOptions.ofSource (.named first) = some (a.overlay standard).enumeration := by
    rw [EnumerationOptions.ofSource_eq, Setting.read?_named hhide]
    rfl
  have hformat : NumberSymbols.ofSource (.named second) = some (a.overlay standard).format := by
    rw [NumberSymbols.ofSource_eq, hread .negativeSign rfl, hread .positiveSign rfl,
      hread .decimalSeparator rfl, hread .groupSeparator rfl, hread .groupSize rfl,
      hread .percentSymbol rfl, hread .nanSymbol rfl, hread .positiveInfinitySymbol rfl,
      hread .negativeInfinitySymbol rfl]
    rfl
  have hfirst' := field_section hfirst 0 standard.enumeration EnumerationOptions.ofSource rfl
  have hsecond' := field_section hsecond 1 standard.format NumberSymbols.ofSource rfl
  change tableEntries? entries "enumeration" = some first at hfirst
  unfold ofEntries
  dsimp only
  rw [show (FieldSource.named entries).field 0 "enumeration" _ _ = _ from hfirst',
    show (FieldSource.named entries).field 1 "format" _ _ = _ from hsecond', henumeration, hformat]
  rfl

/-- The fields of a table when they are read as a whole. -/
theorem exists_source {entries : Entries} {o : Options} (h : ofEntries entries = some o) (s : Setting)
    {node : Node} (hfind : Entries.find? entries s.table = some node) :
    ∃ source, FieldSource.ofNode? node = some source ∧
      ∀ t : Setting, t.table = s.table → ∃ v, t.read? source = some v := by
  simp only [ofEntries, Option.bind_eq_bind, Option.bind_eq_some_iff] at h
  obtain ⟨enumeration, henumeration, format, hformat, -⟩ := h
  rcases List.mem_pair.mp s.table_mem with htable | htable
  · rw [htable] at hfind
    simp only [FieldSource.field, FieldSource.get?, hfind, Option.bind_eq_some_iff] at henumeration
    obtain ⟨source, hsource, hread⟩ := henumeration
    exact ⟨source, hsource, fun t ht => EnumerationOptions.exists_read? hread (ht.trans htable)⟩
  · rw [htable] at hfind
    simp only [FieldSource.field, FieldSource.get?, hfind, Option.bind_eq_some_iff] at hformat
    obtain ⟨source, hsource, hread⟩ := hformat
    exact ⟨source, hsource, fun t ht => NumberSymbols.exists_read? hread (ht.trans htable)⟩

/-- Every table has a key in the first place, and no key has a table for its value. -/
theorem exists_first (s : Setting) : ∃ t : Setting, t.table = s.table ∧ t.position = 0 := by
  cases s with
  | hideRootFields => exact ⟨.hideRootFields, rfl, rfl⟩
  | _ => exact ⟨.negativeSign, rfl, rfl⟩

/-- A key with a wrong value, or a list of tables in its table's place, is refused. -/
theorem ofEntries_of_spoiled {entries : Entries} {s : Setting}
    (h : Spoiled s.kind.Allows s.table s.key entries) : ofEntries entries = none := by
  cases ho : ofEntries entries with
  | none => rfl
  | some o =>
    exfalso
    rcases h with ⟨elements, hfind, hne⟩ | ⟨origin, inner, node, hfind, hkey, hwrong⟩
    · obtain ⟨source, hsource, hread⟩ := exists_source ho s hfind
      cases hsource
      obtain ⟨t, htable, hposition⟩ := exists_first s
      obtain ⟨v, hv⟩ := hread t htable
      obtain ⟨first, rest, rfl⟩ := List.exists_cons_of_ne_nil hne
      have hget : (FieldSource.listed ((first :: rest).map (.table .header))).get? t.position t.key =
          some (.table .header first) := by
        rw [hposition]
        rfl
      rw [t.read?_wrong hget (by simp)] at hv
      cases hv
    · obtain ⟨source, hsource, hread⟩ := exists_source ho s hfind
      cases hsource
      obtain ⟨v, hv⟩ := hread s rfl
      have hnone : s.read? (.named inner) = none := s.read?_wrong hkey hwrong
      rw [hnone] at hv
      cases hv

/-! ## Documents -/

/-- A document says the given values of their keys and nothing of the other keys. That their tables are
tables it may say or not. -/
structure Describes (said : List Item) (a : Partial) : Prop where
  isTable : ∀ s : Setting, IsTableIn said s.table
  value : ∀ s v, a.value? s = some v → Says said s.table s.key (.value (.scalar (s.kind.scalar v)))
  silent : ∀ s, a.value? s = none → Silent said s.table s.key

theorem ofEntries_of_describes {statements : List Statement} {entries : Entries} {a : Partial}
    (hassemble : assemble statements = some entries) (h : Describes (items [] statements) a) :
    ofEntries entries = some (a.overlay standard) := by
  refine ofEntries_overlay fun s => ?_
  obtain ⟨inner, hinner, hholds⟩ := holds_assemble hassemble (h.isTable s)
  refine ⟨inner, hinner, ?_⟩
  cases hvalue : a.value? s with
  | none => exact hholds.silent s.key (h.silent s hvalue)
  | some v => exact hholds.value s.key _ (h.value s v hvalue)

theorem read_of_describes {text : String} {statements : List Statement} {entries : Entries} {a : Partial}
    (hread : statements? text = some statements) (hassemble : assemble statements = some entries)
    (h : Describes (items [] statements) a) :
    read text = (a.overlay standard).validate.map fun _ => a.overlay standard := by
  rw [read, parse_eq, hread, Option.bind_some, hassemble, Option.bind_eq_bind, Option.bind_some,
    ofEntries_of_describes hassemble h]

/-- Whatever else stands in a document, and whether the rest of it can be read or not. -/
theorem read_of_wrong {text : String}
    (h : ∀ statements, statements? text = some statements → ∃ (s : Setting) (wrong : Content),
      Says (items [] statements) s.table s.key wrong ∧ wrong.IsWrong s.kind.Allows) :
    read text = .error .malformed := by
  have hnone : parse text >>= ofEntries = none := by
    rw [parse_eq]
    cases hread : statements? text with
    | none => rfl
    | some statements =>
      obtain ⟨s, wrong, hsaid, hwrong⟩ := h statements hread
      cases hassemble : assemble statements with
      | none =>
        rw [Option.bind_some, hassemble]
        rfl
      | some entries =>
        rw [Option.bind_some, hassemble, Option.bind_eq_bind, Option.bind_some]
        exact ofEntries_of_spoiled (spoiled_assemble hassemble hsaid hwrong)
  rw [read, hnone]

/-! ## Sections -/

/-- Sections that give the given values, and have none of the other keys. They come in any order, and so
do the fields of each; others may stand between. -/
structure Arranges (sections : List Section) (a : Partial) : Prop where
  names : (sections.map Section.name).Nodup
  wellFormed : ∀ t ∈ sections, t.WellFormed
  value : ∀ s v, a.value? s = some v → ∃ t ∈ sections, t.name = s.table ∧
    ∃ f ∈ t.fields, f.key = s.key ∧ f.node = .scalar (s.kind.scalar v)
  silent : ∀ s, a.value? s = none → ∀ t ∈ sections, t.name = s.table → ∀ f ∈ t.fields, f.key ≠ s.key

theorem items_fields (name : String) (entries : Entries) (statements : List Statement) :
    items [name] ((entries.map fun e => Statement.entry ⟨[], e.1⟩ e.2) ++ statements) =
      (entries.map fun e => ([name, e.1], Content.value e.2)) ++ items [name] statements := by
  induction entries with
  | nil => rfl
  | cons e entries ih =>
    simp only [List.map_cons, List.cons_append, items, Statement.next, ih]
    rfl

/-- A section says that its table is one, and the values of its fields. -/
theorem items_sections (sections : List Section) (current : List String) :
    items current (sections.flatMap Section.statements) = sections.flatMap fun t =>
      ([t.name], Content.table) :: t.entries.map fun e => ([t.name, e.1], Content.value e.2) := by
  induction sections generalizing current with
  | nil => rfl
  | cons t sections ih =>
    rw [List.flatMap_cons, List.flatMap_cons, Section.statements, List.cons_append, items,
      List.cons_append, ← ih [t.name], ← items_fields]
    rfl

theorem Arranges.describes {sections : List Section} {a : Partial} (h : Arranges sections a) :
    Describes (items [] (sections.flatMap Section.statements)) a := by
  rw [items_sections]
  refine ⟨fun s item hitem hpath => ?_, fun s v hv => ?_, fun s hs item hitem => ?_⟩
  · obtain ⟨t, -, hitem⟩ := List.mem_flatMap.mp hitem
    rcases List.mem_cons.mp hitem with rfl | hitem
    · trivial
    · obtain ⟨e, -, rfl⟩ := List.mem_map.mp hitem
      simp at hpath
  · obtain ⟨t, ht, htable, f, hf, hkey, hnode⟩ := h.value s v hv
    refine ⟨([t.name, f.key], .value f.node), ?_, ?_⟩
    · refine List.mem_flatMap.mpr ⟨t, ht, List.mem_cons_of_mem _ ?_⟩
      exact List.mem_map.mpr ⟨(f.key, f.node), List.mem_map.mpr ⟨f, hf, rfl⟩, rfl⟩
    · rw [htable, about_into, if_pos hkey, if_pos rfl, hnode]
  · obtain ⟨t, ht, hitem⟩ := List.mem_flatMap.mp hitem
    rcases List.mem_cons.mp hitem with rfl | hitem
    · rfl
    · obtain ⟨e, he, rfl⟩ := List.mem_map.mp hitem
      obtain ⟨f, hf, rfl⟩ := List.mem_map.mp he
      by_cases htable : t.name = s.table
      · rw [htable, about_into, if_neg (h.silent s hs t ht htable f hf)]
      · exact about_of_head?_ne _ (by simpa using htable) _

/-- Blank lines may stand anywhere in a document of sections. -/
theorem read_of_arranges {lines : List Line} {sections : List Section} {a : Partial}
    (hlines : ∀ l ∈ lines, l.WellFormed)
    (hsections : lines.filterMap Line.statement? = sections.flatMap Section.statements)
    (h : Arranges sections a) :
    read (String.ofList (lines.flatMap Line.chars)) =
      (a.overlay standard).validate.map fun _ => a.overlay standard :=
  read_of_describes (hsections ▸ statements?_lines hlines) (assemble_sections h.names h.wellFormed)
    h.describes

/-- A text for a value. -/
def spell : (k : Kind) → k.Value → List Char
  | .boolean, b => booleanChars b
  | .text, s => writeQuoted s.toList
  | .size, n => Numeral.chars n

/-- The fields of a table that are given. -/
def givenFields (a : Partial) (table : String) : List Field :=
  (Setting.all.filter (·.table = table)).filterMap fun s =>
    (a.value? s).map fun v => ⟨s.key, spell s.kind v, .scalar (s.kind.scalar v)⟩

/-- A table without given fields is left out. -/
def givenSections (a : Partial) : List Section :=
  (Setting.tables.map fun table => ⟨table, givenFields a table⟩).filter
    fun t => !t.fields.isEmpty

theorem mem_givenFields {a : Partial} {table : String} {f : Field} :
    f ∈ givenFields a table ↔ ∃ s v, s.table = table ∧ a.value? s = some v ∧
      f = ⟨s.key, spell s.kind v, .scalar (s.kind.scalar v)⟩ := by
  simp only [givenFields, List.mem_filterMap, List.mem_filter, Setting.mem_all, true_and,
    decide_eq_true_eq, Option.map_eq_some_iff]
  constructor
  · rintro ⟨s, htable, v, hv, rfl⟩
    exact ⟨s, v, htable, hv, rfl⟩
  · rintro ⟨s, v, htable, hv, rfl⟩
    exact ⟨s, htable, v, hv, rfl⟩

theorem isValueText_spell {k : Kind} {v : k.Value} (h : ∀ n, k.scalar v = .integer n → n < 2 ^ 63) :
    IsValueText (spell k v) (.scalar (k.scalar v)) := by
  cases k with
  | boolean => exact isValueText_booleanChars v
  | text =>
    have hvalue := isValueText_writeQuoted v.toList
    rwa [String.ofList_toList] at hvalue
  | size =>
    have hsize := h v rfl
    exact isValueText_chars (by omega)

theorem wellFormed_given {a : Partial} (h : ∀ n, a.value? .groupSize = some n → n < 2 ^ 63)
    {table : String} (htable : table ∈ Setting.tables) :
    Section.WellFormed ⟨table, givenFields a table⟩ where
  name := Setting.isBareName_of_mem htable
  fields f hf := by
    obtain ⟨s, v, -, hv, rfl⟩ := mem_givenFields.mp hf
    refine ⟨s.isBareName_key, isValueText_spell fun n hn => ?_⟩
    cases s with
    | groupSize =>
      cases hn
      exact_mod_cast h v hv
    | _ => cases hn
  keys := by
    rw [givenFields, List.map_filterMap]
    refine List.Nodup.filterMap (fun s t key hs ht => ?_) ((Setting.nodup_keys.of_map _).filter _)
    simp only [Option.map_map, Option.mem_def, Option.map_eq_some_iff] at hs ht
    obtain ⟨_, -, rfl⟩ := hs
    obtain ⟨_, -, hkey⟩ := ht
    exact (Setting.key_injective hkey).symm

/-- Values of every choice of keys can be given. -/
theorem arranges_givenSections {a : Partial} (h : ∀ n, a.value? .groupSize = some n → n < 2 ^ 63) :
    Arranges (givenSections a) a := by
  have hmem {t : Section} (ht : t ∈ givenSections a) :
      t.name ∈ Setting.tables ∧ t = ⟨t.name, givenFields a t.name⟩ := by
    obtain ⟨table, htable, rfl⟩ := List.mem_map.mp (List.mem_filter.mp ht).1
    exact ⟨htable, rfl⟩
  constructor
  · refine List.Nodup.sublist (List.Sublist.map Section.name List.filter_sublist) ?_
    show Setting.tables.Nodup
    decide
  · intro t ht
    obtain ⟨htable, heq⟩ := hmem ht
    exact heq ▸ wellFormed_given h htable
  · intro s v hv
    have hf : (⟨s.key, spell s.kind v, .scalar (s.kind.scalar v)⟩ : Field) ∈ givenFields a s.table :=
      mem_givenFields.mpr ⟨s, v, rfl, hv, rfl⟩
    refine ⟨⟨s.table, givenFields a s.table⟩, List.mem_filter.mpr ⟨?_, ?_⟩, rfl, _, hf, rfl, rfl⟩
    · exact List.mem_map.mpr ⟨s.table, s.table_mem, rfl⟩
    · simpa using List.ne_nil_of_mem hf
  · rintro s hs t ht - f hf hkey
    rw [(hmem ht).2] at hf
    obtain ⟨s', v, -, hv, rfl⟩ := mem_givenFields.mp hf
    obtain rfl := Setting.key_injective hkey
    rw [hs] at hv
    cases hv

/-- Whatever part of the options a document gives, in whatever order and spelling and beside whatever
else, it is read as the defaults with that part replaced, or as the fault of their validation; a value of
another type, or a size below zero, makes the whole document malformed. The values of any choice of keys
can be given so. -/
theorem read_partial :
    (∀ a : Partial, (∀ n, a.value? .groupSize = some n → n < 2 ^ 63) →
      ∃ (sections : List Section) (lines : List Line), Arranges sections a ∧
        (∀ l ∈ lines, l.WellFormed) ∧
        lines.filterMap Line.statement? = sections.flatMap Section.statements) ∧
    (∀ (a : Partial) (sections : List Section) (lines : List Line), Arranges sections a →
      (∀ l ∈ lines, l.WellFormed) →
      lines.filterMap Line.statement? = sections.flatMap Section.statements →
      read (String.ofList (lines.flatMap Line.chars)) =
        (a.overlay standard).validate.map fun _ => a.overlay standard) ∧
    (∀ (a : Partial) (text : String) (statements : List Statement) (entries : Entries),
      statements? text = some statements → assemble statements = some entries →
      Describes (items [] statements) a →
      read text = (a.overlay standard).validate.map fun _ => a.overlay standard) ∧
    ∀ text : String,
      (∀ statements, statements? text = some statements → ∃ (s : Setting) (wrong : Content),
        Says (items [] statements) s.table s.key wrong ∧ wrong.IsWrong s.kind.Allows) →
      read text = .error .malformed :=
  ⟨fun a h =>
      have harranges := arranges_givenSections h
      ⟨givenSections a, sectionLines (givenSections a), harranges,
        wellFormed_sectionLines harranges.wellFormed, filterMap_sectionLines (givenSections a)⟩,
    fun _ _ _ harranges hlines hsections => read_of_arranges hlines hsections harranges,
    fun _ _ _ _ hread hassemble hdescribes => read_of_describes hread hassemble hdescribes,
    fun _ h => read_of_wrong h⟩

/-- One separator alone clashes with the default of the other, and a table that is not known does not
matter. A size below zero is refused. -/
theorem read_partial_comma :
    read "format.decimal_separator = ','\n[other]\nx = 1\n" =
      .error (.invalid "format.decimal_separator and format.group_separator are both ','") ∧
    read "[format]\ngroup_size = -1\n" = .error .malformed := by
  constructor
  · have hread := read_partial.2.2.1 ⟨fun | .decimalSeparator => some "," | _ => none⟩
      "format.decimal_separator = ','\n[other]\nx = 1\n"
      [.entry ⟨["format"], "decimal_separator"⟩ (.scalar (.text ",")), .table ⟨[], "other"⟩,
        .entry ⟨[], "x"⟩ (.scalar (.integer 1))] _ rfl rfl
      { isTable := fun s => by
          cases s <;> simp [IsTableIn, items, Statement.item, Statement.next, Key.path, Setting.table]
        value := fun s v hv => by
          cases s <;> cases hv
          exact ⟨_, List.mem_cons_self, rfl⟩
        silent := fun s hs => by
          cases s with
          | decimalSeparator => cases hs
          | _ => simp [Silent, items, Statement.item, Statement.next, Key.path, about, Setting.table,
              Setting.key] }
    rw [hread]
    rfl
  · have hstatements : statements? "[format]\ngroup_size = -1\n" =
        some [.table ⟨[], "format"⟩, .entry ⟨[], "group_size"⟩ (.scalar (.integer (-1)))] := rfl
    refine read_partial.2.2.2 _ fun statements hread =>
      ⟨.groupSize, .value (.scalar (.integer (-1))), ?_, ?_⟩
    · cases hstatements.symm.trans hread
      exact ⟨_, List.mem_cons_of_mem _ List.mem_cons_self, rfl⟩
    · rintro s hs ⟨v, rfl⟩
      cases hs

end Options

end ManagedTypes
