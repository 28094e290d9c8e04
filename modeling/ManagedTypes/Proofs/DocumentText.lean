import ManagedTypes.Proofs.ValueText

/-! Documents of plain lines: blank ones, headers of one part and entries under keys of one part. They
read as the tree that they spell out. -/
namespace ManagedTypes.Toml

def IsBareName (name : String) : Prop := name.toList ≠ [] ∧ ∀ c ∈ name.toList, isBareKey c = true

/-- A line that is blank, opens a table, or has an entry: its key, its value's text and the value. -/
inductive Line
  | blank
  | header (name : String)
  | entry (name : String) (text : List Char) (node : Node)

namespace Line

def chars : Line → List Char
  | blank => ['\n']
  | header name => '[' :: (name.toList ++ [']', '\n'])
  | entry name text _ => name.toList ++ (' ' :: '=' :: ' ' :: (text ++ ['\n']))

def statement? : Line → Option Statement
  | blank => none
  | header name => some (.table ⟨[], name⟩)
  | entry name _ node => some (.entry ⟨[], name⟩ node)

def WellFormed : Line → Prop
  | blank => True
  | header name => IsBareName name
  | entry name text node => IsBareName name ∧ IsValueText text node

end Line

theorem ne_of_isBareKey {c d : Char} (h : isBareKey c = true) (hd : isBareKey d = false) : c ≠ d := by
  rintro rfl
  rw [h] at hd
  cases hd

theorem IsBareName.exists_cons {name : String} (h : IsBareName name) :
    ∃ c cs, name.toList = c :: cs ∧ isBareKey c = true := by
  obtain ⟨c, cs, hcs⟩ := List.exists_cons_of_ne_nil h.1
  exact ⟨c, cs, hcs, h.2 c (by simp [hcs])⟩

theorem not_isBlank_of_isBareKey {c : Char} (h : isBareKey c = true) : isBlank c = false := by
  have hspace := ne_of_isBareKey h (d := ' ') (by decide)
  have htab := ne_of_isBareKey h (d := '\t') (by decide)
  simp [isBlank, hspace, htab]

theorem skipBlanks_cons {c : Char} (h : isBlank c = false) (rest : List Char) :
    skipBlanks (c :: rest) = c :: rest := by
  simp [skipBlanks, h]

/-- A bare name is a key of one part, whatever follows it but a dot. -/
theorem readKey_bare {name : String} (hname : IsBareName name) (rest : List Char)
    (hbare : ∀ c ∈ rest.head?, isBareKey c = false) (hdot : (skipBlanks rest).head? ≠ some '.') :
    readKey (name.toList ++ rest) = some (⟨[], name⟩, skipBlanks rest) := by
  obtain ⟨c, cs, hcs, hc⟩ := hname.exists_cons
  have hmarks : c ≠ basic.mark ∧ c ≠ literal.mark :=
    ⟨ne_of_isBareKey hc (by decide), ne_of_isBareKey hc (by decide)⟩
  have htake : (name.toList ++ rest).takeWhile isBareKey = name.toList := by
    rw [List.takeWhile_append_of_pos hname.2]
    cases rest with
    | nil => simp
    | cons d rest => simp [hbare d rfl]
  have hdrop : (name.toList ++ rest).dropWhile isBareKey = rest := by
    rw [List.dropWhile_append_of_pos hname.2]
    cases rest with
    | nil => simp
    | cons d rest => simp [hbare d rfl]
  have hsimple : readSimpleKey (name.toList ++ rest) = some (name, rest) := by
    have hchars : String.ofList (c :: cs) = name := by rw [← hcs, String.ofList_toList]
    rw [readSimpleKey.eq_def, htake, hdrop]
    simp [hcs, hmarks, hchars]
  have hblanks : skipBlanks (name.toList ++ rest) = name.toList ++ rest := by
    rw [hcs, List.cons_append, skipBlanks_cons (not_isBlank_of_isBareKey hc)]
  have hparts : readParts (depthLimit - 1) (name.toList ++ rest) = some ([name], skipBlanks rest) := by
    rw [show depthLimit - 1 = 78 + 1 from rfl, readParts, hblanks, hsimple]
    dsimp only [Option.bind_eq_bind, Option.bind_some]
    split
    next heq => simp [heq] at hdot
    · rfl
  rw [readKey, hparts]
  rfl

theorem endLine?_bare {c : Char} (h : isBareKey c = true) (rest : List Char) :
    endLine? (c :: rest) = none := by
  have hcomment := ne_of_isBareKey h (d := '#') (by decide)
  have hfeed := ne_of_isBareKey h (d := '\n') (by decide)
  have hreturn := ne_of_isBareKey h (d := '\r') (by decide)
  simp [endLine?, skipBlanks_cons (not_isBlank_of_isBareKey h), skipComment, newline?, hcomment, hfeed,
    hreturn]

theorem readStatement_header {name : String} (h : IsBareName name) (rest : List Char) :
    readStatement ('[' :: (name.toList ++ ']' :: '\n' :: rest)) = some (.table ⟨[], name⟩, rest) := by
  have hkey := readKey_bare h (']' :: '\n' :: rest) (by rintro c ⟨⟩; rfl)
    (by simp [skipBlanks, isBlank])
  have hblanks : skipBlanks (']' :: '\n' :: rest) = ']' :: '\n' :: rest := rfl
  have hend : endLine? ('\n' :: rest) = some rest := rfl
  obtain ⟨c, cs, hcs, hbare⟩ := h.exists_cons
  have hc := ne_of_isBareKey hbare (d := '[') (by decide)
  rw [hcs, List.cons_append] at hkey
  rw [hcs, List.cons_append, readStatement.eq_def]
  dsimp only
  split
  next heq => exact absurd (List.cons.inj (List.cons.inj heq).2).1 hc
  next heq =>
    cases heq
    simp [hkey, hblanks, readChar, hend]
  next hne => exact (hne _ rfl).elim

theorem readStatement_entry {name : String} (h : IsBareName name) {text : List Char} {node : Node}
    (hvalue : IsValueText text node) (rest : List Char) :
    readStatement (name.toList ++ ' ' :: '=' :: ' ' :: (text ++ '\n' :: rest)) =
      some (.entry ⟨[], name⟩ node, rest) := by
  have hkey := readKey_bare h (' ' :: '=' :: ' ' :: (text ++ '\n' :: rest)) (by rintro c ⟨⟩; rfl)
    (by simp [skipBlanks, isBlank])
  obtain ⟨d, tail, htext, hd⟩ := hvalue.head
  have hread := hvalue.read rest
  have hend : endLine? ('\n' :: rest) = some rest := rfl
  have hblanks : skipBlanks (' ' :: '=' :: ' ' :: (text ++ '\n' :: rest)) =
      '=' :: ' ' :: (text ++ '\n' :: rest) := rfl
  have hspace : skipBlanks (' ' :: (text ++ '\n' :: rest)) = text ++ '\n' :: rest := by
    rw [htext]
    exact skipBlanks_cons hd (tail ++ '\n' :: rest)
  have hpair : readPair (readValue (depthLimit - 1))
      (name.toList ++ ' ' :: '=' :: ' ' :: (text ++ '\n' :: rest)) =
      some ((⟨[], name⟩, node), '\n' :: rest) := by
    simp [readPair, hkey, hblanks, readChar, hspace, hread]
  obtain ⟨c, cs, hcs, hbare⟩ := h.exists_cons
  have hc := ne_of_isBareKey hbare (d := '[') (by decide)
  rw [hcs, List.cons_append] at hpair ⊢
  rw [readStatement.eq_def]
  dsimp only
  split
  next heq => exact absurd (List.cons.inj heq).1 hc
  next heq => exact absurd (List.cons.inj heq).1 hc
  next => simp [hpair, hend]

/-- A line that is not blank gives one statement. -/
theorem readStatements_statement {c : Char} {cs rest : List Char} {s : Statement}
    (hblank : isBlank c = false) (hend : endLine? (c :: cs) = none)
    (hread : readStatement (c :: cs) = some (s, rest)) (fuel : ℕ) :
    readStatements (fuel + 1) (c :: cs) = (readStatements fuel rest).map (s :: ·) := by
  rw [readStatements, skipBlanks_cons hblank]
  simp only [hend, hread, Option.bind_eq_bind, Option.bind_some]
  cases readStatements fuel rest <;> rfl

theorem readStatements_line {l : Line} (h : l.WellFormed) (fuel : ℕ) (rest : List Char) :
    readStatements (fuel + 1) (l.chars ++ rest) =
      (readStatements fuel rest).map (l.statement?.toList ++ ·) := by
  cases l with
  | blank =>
    -- Nothing is read, only the line end dropped.
    change readStatements fuel rest = _
    cases readStatements fuel rest <;> rfl
  | header name =>
    have hread := readStatement_header h rest
    have hline := readStatements_statement rfl rfl hread fuel
    simpa [Line.chars, Line.statement?] using hline
  | entry name text node =>
    obtain ⟨hname, hvalue⟩ := h
    obtain ⟨c, cs, hcs, hc⟩ := hname.exists_cons
    have hread := readStatement_entry hname hvalue rest
    rw [hcs] at hread
    have hline := readStatements_statement (not_isBlank_of_isBareKey hc) (endLine?_bare hc _) hread fuel
    simpa [Line.chars, Line.statement?, hcs] using hline

/-- One unit of fuel is enough for each line, and one for the end of the text. -/
theorem readStatements_lines {lines : List Line} (h : ∀ l ∈ lines, l.WellFormed) {fuel : ℕ}
    (hfuel : lines.length < fuel) :
    readStatements fuel (lines.flatMap Line.chars) = some (lines.filterMap Line.statement?) := by
  induction lines generalizing fuel with
  | nil =>
    obtain ⟨k, rfl⟩ : ∃ k, fuel = k + 1 := ⟨fuel - 1, by simp at hfuel; omega⟩
    rfl
  | cons l lines ih =>
    obtain ⟨k, rfl⟩ : ∃ k, fuel = k + 1 := ⟨fuel - 1, by omega⟩
    rw [List.flatMap_cons, readStatements_line (h l List.mem_cons_self),
      ih (fun m hm => h m (List.mem_cons_of_mem l hm)) (by simpa using hfuel), Option.map_some]
    cases hl : l.statement? <;> simp [hl]

theorem length_le_flatMap_chars (lines : List Line) :
    lines.length ≤ (lines.flatMap Line.chars).length := by
  induction lines with
  | nil => exact le_rfl
  | cons l lines ih =>
    have hpos : 0 < l.chars.length := by cases l <;> simp [Line.chars]
    rw [List.flatMap_cons, List.length_append, List.length_cons]
    omega

theorem head_chars {l : Line} (h : l.WellFormed) (rest : List Char) :
    (l.chars ++ rest).head? ≠ some '\ufeff' := by
  have hname {name : String} (hname : IsBareName name) (tail : List Char) :
      (name.toList ++ tail).head? ≠ some '\ufeff' := by
    obtain ⟨c, cs, hcs, hbare⟩ := hname.exists_cons
    have hc := ne_of_isBareKey hbare (d := '\ufeff') (by decide)
    simpa [hcs] using hc
  cases l with
  | blank => simp [Line.chars]
  | header name => simp [Line.chars]
  | entry name text node =>
    rw [Line.chars, List.append_assoc]
    exact hname h.1 _

theorem skipByteOrderMark_eq_self {cs : List Char} (h : cs.head? ≠ some '\ufeff') :
    skipByteOrderMark cs = cs := by
  cases cs with
  | nil => rfl
  | cons c cs =>
    refine if_neg fun hc => h ?_
    rw [List.head?_cons, show c = '\ufeff' from Char.ext (UInt32.toNat_inj.mp hc)]

/-- The statements of a text, if all of it can be read. -/
def statements? (text : String) : Option (List Statement) :=
  let cs := skipByteOrderMark text.toList
  readStatements (cs.length + 1) cs

theorem parse_eq (text : String) : parse text = (statements? text).bind assemble := rfl

/-- A document of plain lines is read as what they state. -/
theorem statements?_lines {lines : List Line} (h : ∀ l ∈ lines, l.WellFormed) :
    statements? (String.ofList (lines.flatMap Line.chars)) = some (lines.filterMap Line.statement?) := by
  have hmark : skipByteOrderMark (lines.flatMap Line.chars) = lines.flatMap Line.chars := by
    cases lines with
    | nil => rfl
    | cons l lines =>
      rw [List.flatMap_cons]
      exact skipByteOrderMark_eq_self (head_chars (h l List.mem_cons_self) _)
  have hfuel := Nat.lt_succ_of_le (length_le_flatMap_chars lines)
  simp only [statements?, String.toList_ofList, hmark, readStatements_lines h hfuel]

/-! ## Tables under headers -/

namespace Entries

theorem find?_eq_none_iff {entries : Entries} {name : String} :
    find? entries name = none ↔ name ∉ entries.map Prod.fst := by
  unfold find?
  rw [List.lookup_eq_none_iff]
  constructor
  · intro h hmem
    obtain ⟨e, he, rfl⟩ := List.mem_map.mp hmem
    simpa using h e he
  · intro h e he
    have hne : name ≠ e.1 := fun heq => h (heq ▸ List.mem_map_of_mem he)
    simpa using hne

theorem find?_append_self {entries : Entries} {name : String} (h : find? entries name = none)
    (node : Node) : find? (entries ++ [(name, node)]) name = some node := by
  simp only [find?] at h ⊢
  simp [List.lookup_append, h]

theorem put_append_self {entries : Entries} {name : String} (h : find? entries name = none)
    (old node : Node) : put (entries ++ [(name, old)]) name node = entries ++ [(name, node)] := by
  have hold : put entries name node = entries := by
    unfold put
    conv_rhs => rw [← List.map_id entries]
    refine List.map_congr_left fun e he => ?_
    have hne : e.1 ≠ name := fun heq => find?_eq_none_iff.mp h (heq ▸ List.mem_map_of_mem he)
    simp [hne]
  unfold put at hold ⊢
  simp [hold]

end Entries

theorem add_table {root : Entries} {name : String} (h : Entries.find? root name = none)
    (current : List String) :
    Assembly.add ⟨root, current⟩ (.table ⟨[], name⟩) =
      some ⟨root ++ [(name, .table .header [])], [name]⟩ := by
  simp [Assembly.add, openTable, within, h, Key.path]

theorem add_entry {root entries : Entries} {name key : String}
    (hname : Entries.find? root name = none) (hkey : Entries.find? entries key = none) (node : Node) :
    Assembly.add ⟨root ++ [(name, .table .header entries)], [name]⟩ (.entry ⟨[], key⟩ node) =
      some ⟨root ++ [(name, .table .header (entries ++ [(key, node)]))], [name]⟩ := by
  simp [Assembly.add, within, addEntry, Entries.find?_append_self hname,
    Entries.put_append_self hname, hkey]

theorem foldlM_entries {root : Entries} {name : String} (hname : Entries.find? root name = none)
    (entries added : Entries) (h : ((added ++ entries).map Prod.fst).Nodup) :
    (entries.map fun e => Statement.entry ⟨[], e.1⟩ e.2).foldlM Assembly.add
        ⟨root ++ [(name, .table .header added)], [name]⟩ =
      some ⟨root ++ [(name, .table .header (added ++ entries))], [name]⟩ := by
  induction entries generalizing added with
  | nil => simp
  | cons e entries ih =>
    obtain ⟨key, node⟩ := e
    have hkey : Entries.find? added key = none := by
      rw [Entries.find?_eq_none_iff]
      rw [List.map_append, List.nodup_append] at h
      exact fun hmem => h.2.2 key hmem key (by simp) rfl
    have hnext := ih (added ++ [(key, node)]) (by simpa using h)
    simpa [add_entry hname hkey] using hnext

/-! ## Sections -/

/-- An entry of a section: its key, its value's text and the value. -/
structure Field where
  key : String
  text : List Char
  node : Node

def Field.line (f : Field) : Line := .entry f.key f.text f.node

def Field.WellFormed (f : Field) : Prop := IsBareName f.key ∧ IsValueText f.text f.node

/-- A header and the entries under it. -/
structure Section where
  name : String
  fields : List Field

namespace Section

def entries (s : Section) : Entries := s.fields.map fun f => (f.key, f.node)

def lines (s : Section) : List Line :=
  .header s.name :: s.fields.map Field.line

def statements (s : Section) : List Statement :=
  .table ⟨[], s.name⟩ :: s.entries.map fun e => .entry ⟨[], e.1⟩ e.2

/-- No key stands twice. -/
structure WellFormed (s : Section) : Prop where
  name : IsBareName s.name
  fields : ∀ f ∈ s.fields, f.WellFormed
  keys : (s.fields.map Field.key).Nodup

theorem filterMap_lines (s : Section) : s.lines.filterMap Line.statement? = s.statements := by
  simp [lines, Field.line, statements, entries, Line.statement?, List.filterMap_map, Function.comp_def,
    List.filterMap_eq_map']

theorem WellFormed.lines {s : Section} (h : s.WellFormed) : ∀ l ∈ s.lines, l.WellFormed := by
  intro l hl
  rcases List.mem_cons.mp hl with rfl | hl
  · exact h.name
  · obtain ⟨f, hf, rfl⟩ := List.mem_map.mp hl
    exact h.fields f hf

theorem WellFormed.nodup_entries {s : Section} (h : s.WellFormed) : (s.entries.map Prod.fst).Nodup := by
  simpa [entries, Function.comp_def] using h.keys

end Section

theorem foldlM_sections (sections : List Section) (root : Entries) (current : List String)
    (hnames : (root.map Prod.fst ++ sections.map Section.name).Nodup)
    (h : ∀ s ∈ sections, s.WellFormed) :
    ∃ last, (sections.flatMap Section.statements).foldlM Assembly.add ⟨root, current⟩ =
      some ⟨root ++ sections.map fun s => (s.name, .table .header s.entries), last⟩ := by
  induction sections generalizing root current with
  | nil => exact ⟨current, by simp⟩
  | cons s sections ih =>
    have hname : Entries.find? root s.name = none := by
      rw [Entries.find?_eq_none_iff]
      rw [List.nodup_append] at hnames
      exact fun hmem => hnames.2.2 s.name hmem s.name (by simp) rfl
    obtain ⟨last, hlast⟩ := ih (root ++ [(s.name, .table .header s.entries)]) [s.name]
      (by simpa using hnames) fun t ht => h t (List.mem_cons_of_mem s ht)
    have hentries := foldlM_entries hname s.entries []
      (by simpa using (h s List.mem_cons_self).nodup_entries)
    refine ⟨last, ?_⟩
    rw [List.flatMap_cons, List.foldlM_append, Section.statements, List.foldlM_cons, add_table hname]
    simpa [hentries] using hlast

/-- Sections with a blank line between each two. -/
def sectionLines : List Section → List Line
  | [] => []
  | [s] => s.lines
  | s :: sections => s.lines ++ .blank :: sectionLines sections

theorem filterMap_sectionLines (sections : List Section) :
    (sectionLines sections).filterMap Line.statement? = sections.flatMap Section.statements := by
  fun_induction sectionLines sections with
  | case1 => rfl
  | case2 s => rw [s.filterMap_lines, List.flatMap_singleton]
  | case3 s sections _ ih =>
    rw [List.filterMap_append, s.filterMap_lines, List.filterMap_cons_none rfl, ih, List.flatMap_cons]

theorem wellFormed_sectionLines {sections : List Section} (h : ∀ s ∈ sections, s.WellFormed) :
    ∀ l ∈ sectionLines sections, l.WellFormed := by
  fun_induction sectionLines sections with
  | case1 => exact nofun
  | case2 s => exact (h s List.mem_cons_self).lines
  | case3 s sections _ ih =>
    intro l hl
    rcases List.mem_append.mp hl with hl | hl
    · exact (h s List.mem_cons_self).lines l hl
    · rcases List.mem_cons.mp hl with rfl | hl
      · trivial
      · exact ih (fun t ht => h t (List.mem_cons_of_mem s ht)) l hl

/-- Sections of different names read as the tables of their entries. -/
theorem assemble_sections {sections : List Section} (hnames : (sections.map Section.name).Nodup)
    (h : ∀ s ∈ sections, s.WellFormed) :
    assemble (sections.flatMap Section.statements) =
      some (sections.map fun s => (s.name, .table .header s.entries)) := by
  obtain ⟨last, hlast⟩ := foldlM_sections sections [] [] (by simpa using hnames) h
  rw [assemble, hlast]
  rfl

theorem parse_sections {sections : List Section} (hnames : (sections.map Section.name).Nodup)
    (h : ∀ s ∈ sections, s.WellFormed) :
    parse (String.ofList ((sectionLines sections).flatMap Line.chars)) =
      some (sections.map fun s => (s.name, .table .header s.entries)) := by
  rw [parse_eq, statements?_lines (wellFormed_sectionLines h), Option.bind_some,
    filterMap_sectionLines, assemble_sections hnames h]

end ManagedTypes.Toml
