import ManagedTypes.Proofs.DocumentText

/-! What the statements of a document say of the keys of a top-level table, and that the tree that they
make holds just that, in whatever order they come and whatever else they say. -/
namespace ManagedTypes.Toml

/-! ## Items -/

/-- What a statement puts at the end of a path. -/
inductive Content
  | value (node : Node)
  | table
  | element

/-- A content and the path that it is put at. -/
abbrev Item := List String × Content

/-- Entries go under the header before them. -/
def Statement.item (current : List String) : Statement → Item
  | .entry key node => (current ++ key.path, .value node)
  | .table key => (key.path, .table)
  | .element key => (key.path, .element)

def Statement.next (current : List String) : Statement → List String
  | .entry _ _ => current
  | .table key | .element key => key.path

def items (current : List String) : List Statement → List Item
  | [] => []
  | s :: statements => s.item current :: items (s.next current) statements

/-- What an item says of a key of a top-level table: nothing, the value, or that it is a table. A value
in braces says the values of its keys. -/
def about (table key : String) : Item → Option Content
  | ([name], .value (.table .braces inner)) =>
    if name = table then (Entries.find? inner key).map .value else none
  | ([name, part], content) => if name = table ∧ part = key then some content else none
  | (name :: part :: _ :: _, _) => if name = table ∧ part = key then some .table else none
  | _ => none

def Says (said : List Item) (table key : String) (content : Content) : Prop :=
  ∃ item ∈ said, about table key item = some content

def Silent (said : List Item) (table key : String) : Prop := ∀ item ∈ said, about table key item = none

/-- A header of a table, or a value in braces. -/
def Content.IsTable : Content → Prop
  | .table | .value (.table .braces _) => True
  | _ => False

/-- Nothing makes anything but a table of the name. -/
def IsTableIn (said : List Item) (table : String) : Prop :=
  ∀ item ∈ said, item.1 = [table] → item.2.IsTable

/-! ## One statement -/

namespace Entries

variable {entries : Entries} {name : String}

theorem find?_append_of_ne {other : String} (h : other ≠ name) (node : Node) :
    find? (entries ++ [(name, node)]) other = find? entries other := by
  have hne : (other == name) = false := by simpa using h
  simp [find?, List.lookup_append, List.lookup, hne]

theorem find?_put (node : Node) (other : String) :
    find? (put entries name node) other =
      (find? entries other).map fun old => if other = name then node else old := by
  simp only [find?, put]
  induction entries with
  | nil => rfl
  | cons e entries ih =>
    obtain ⟨key, old⟩ := e
    by_cases hkey : other = key
    · subst hkey
      simp [List.lookup]
    · have hne : (other == key) = false := by simpa using hkey
      simpa [List.lookup, hne] using ih

/-- Only the node under one name is another one than before. -/
def Becomes (name : String) (node : Node) (before after : Entries) : Prop :=
  find? after name = some node ∧ ∀ other, other ≠ name → find? after other = find? before other

theorem becomes_append (h : find? entries name = none) (node : Node) :
    Becomes name node entries (entries ++ [(name, node)]) :=
  ⟨find?_append_self h node, fun _ hne => find?_append_of_ne hne node⟩

theorem becomes_put {old : Node} (h : find? entries name = some old) (node : Node) :
    Becomes name node entries (put entries name node) := by
  refine ⟨by rw [find?_put, h, Option.map_some, if_pos rfl], fun other hne => ?_⟩
  simp [find?_put, hne]

end Entries

/-- The node that a content makes of the one before, if there is one. -/
inductive Content.Makes : Content → Option Node → Node → Prop
  | value {node : Node} : Makes (.value node) none node
  | table : Makes .table none (.table .header [])
  | implied {inner : Entries} : Makes .table (some (.table .implied inner)) (.table .header inner)
  | element : Makes .element none (.tables [[]])
  | repeated {elements : List Entries} :
    Makes .element (some (.tables elements)) (.tables (elements ++ [[]]))

/-- The entries that a path leads into by way of a node, before and after a change in them, and the node
after it. -/
inductive Leads : Option Node → Entries → Entries → Node → Prop
  | fresh {origin : Origin} {inner : Entries} : Leads none [] inner (.table origin inner)
  | table {origin : Origin} {before after : Entries} : origin ≠ .braces →
    Leads (some (.table origin before)) before after (.table origin after)
  | last {elements : List Entries} {before after : Entries} : elements.getLast? = some before →
    Leads (some (.tables elements)) before after (.tables (elements.dropLast ++ [after]))

/-- Entries before and after a content is put at a path. -/
inductive Grows (content : Content) : List String → Entries → Entries → Prop
  | here {name : String} {node : Node} {before after : Entries} :
    content.Makes (Entries.find? before name) node → Entries.Becomes name node before after →
    Grows content [name] before after
  | inside {name : String} {path : List String} {node : Node} {before after inner inner' : Entries} :
    Leads (Entries.find? before name) inner inner' node → Grows content path inner inner' →
    Entries.Becomes name node before after → Grows content (name :: path) before after

section
variable {content : Content} {change : Origin → Entries → Option Entries}

theorem grows_within (tail : List String) (h : ∀ origin before after, change origin before = some after →
      Grows content tail before after)
    {dotted : Bool} {path : List String} {origin : Origin} {before after : Entries}
    (hwithin : within dotted change path origin before = some after) :
    Grows content (path ++ tail) before after := by
  induction path generalizing origin before after with
  | nil => exact h origin before after hwithin
  | cons name path ih =>
    unfold within at hwithin
    split at hwithin
    next hfind =>
      obtain ⟨inner, hinner, hafter⟩ := Option.bind_eq_some_iff.mp hwithin
      cases hafter
      exact .inside (hfind ▸ .fresh) (ih hinner) (Entries.becomes_append hfind _)
    next old inner hfind =>
      split at hwithin
      · cases hwithin
      next hopen =>
        obtain ⟨inner', hinner, hafter⟩ := Option.bind_eq_some_iff.mp hwithin
        cases hafter
        have hbraces : old ≠ .braces := fun heq => hopen (.inl heq)
        exact .inside (hfind ▸ .table hbraces) (ih hinner) (Entries.becomes_put hfind _)
    next elements hfind =>
      obtain ⟨last, hlast, hwithin⟩ := Option.bind_eq_some_iff.mp hwithin
      obtain ⟨inner', hinner, hafter⟩ := Option.bind_eq_some_iff.mp hwithin
      cases hafter
      exact .inside (hfind ▸ .last hlast) (ih hinner) (Entries.becomes_put hfind _)
    · cases hwithin

theorem grows_addEntry {key : Key} {node : Node} {origin : Origin} {before after : Entries}
    (h : addEntry key node origin before = some after) : Grows (.value node) key.path before after := by
  refine grows_within [key.name] (fun origin before after hleaf => ?_) h
  split at hleaf
  · cases hleaf
  next hnew =>
    cases hleaf
    have hfind : Entries.find? before key.name = none := by
      simp only [Bool.or_eq_true, not_or, Bool.not_eq_true, Option.isSome_eq_false_iff,
        Option.isNone_iff_eq_none] at hnew
      exact hnew.2
    exact .here (hfind ▸ .value) (Entries.becomes_append hfind node)

theorem grows_openTable {key : Key} {origin : Origin} {before after : Entries}
    (h : openTable key origin before = some after) : Grows .table key.path before after := by
  refine grows_within [key.name] (fun origin before after hleaf => ?_) h
  split at hleaf
  next hfind =>
    cases hleaf
    exact .here (hfind ▸ .table) (Entries.becomes_append hfind _)
  next inner hfind =>
    cases hleaf
    exact .here (hfind ▸ .implied) (Entries.becomes_put hfind _)
  · cases hleaf

theorem grows_openElement {key : Key} {origin : Origin} {before after : Entries}
    (h : openElement key origin before = some after) : Grows .element key.path before after := by
  refine grows_within [key.name] (fun origin before after hleaf => ?_) h
  split at hleaf
  next hfind =>
    cases hleaf
    exact .here (hfind ▸ .element) (Entries.becomes_append hfind _)
  next elements hfind =>
    cases hleaf
    exact .here (hfind ▸ .repeated) (Entries.becomes_put hfind _)
  · cases hleaf

end

/-- A statement puts its content at its path. -/
theorem grows_add {a b : Assembly} {s : Statement} (h : a.add s = some b) :
    Grows (s.item a.current).2 (s.item a.current).1 a.root b.root ∧ b.current = s.next a.current := by
  cases s with
  | entry key node =>
    obtain ⟨root, hroot, hb⟩ := Option.bind_eq_some_iff.mp h
    cases hb
    exact ⟨grows_within key.path (fun _ _ _ => grows_addEntry) hroot, rfl⟩
  | table key =>
    obtain ⟨root, hroot, hb⟩ := Option.bind_eq_some_iff.mp h
    cases hb
    exact ⟨grows_openTable hroot, rfl⟩
  | element key =>
    obtain ⟨root, hroot, hb⟩ := Option.bind_eq_some_iff.mp h
    cases hb
    exact ⟨grows_openElement hroot, rfl⟩

namespace Grows
variable {content : Content} {before after : Entries}

/-- Something new comes under the first name of a path, where no scalar was. A scalar comes there only as
the value of the whole path, and only where nothing was. -/
theorem becomes {part : String} {rest : List String} (h : Grows content (part :: rest) before after) :
    ∃ node, Entries.Becomes part node before after ∧
      (∀ s, Entries.find? before part ≠ some (.scalar s)) ∧
      (∀ s, node = .scalar s →
        rest = [] ∧ content = .value node ∧ Entries.find? before part = none) ∧
      ∀ v, rest = [] → content = .value v → node = v := by
  generalize hold : Entries.find? before part = old
  cases h with
  | @here _ node _ _ hmakes hbecomes =>
    rw [hold] at hmakes
    refine ⟨node, hbecomes, ?_, ?_, ?_⟩ <;> cases hmakes <;> simp
  | @inside _ _ node _ _ inner inner' hleads hgrows hbecomes =>
    rw [hold] at hleads
    refine ⟨node, hbecomes, ?_, ?_, ?_⟩
    · cases hleads <;> simp
    · cases hleads <;> simp
    · rintro v rfl
      cases hgrows

/-- A path leads past a table, to it, or into it. -/
theorem table_cases {path : List String} (h : Grows content path before after) (table : String) :
    (Entries.find? after table = Entries.find? before table ∧ path.head? ≠ some table) ∨
    (path = [table] ∧ ∃ node, content.Makes (Entries.find? before table) node ∧
      Entries.find? after table = some node) ∨
    ∃ part rest node inner inner', path = table :: part :: rest ∧
      Leads (Entries.find? before table) inner inner' node ∧
      Grows content (part :: rest) inner inner' ∧ Entries.find? after table = some node := by
  cases h with
  | @here name node _ _ hmakes hbecomes =>
    by_cases hname : table = name
    · subst hname
      exact .inr (.inl ⟨rfl, node, hmakes, hbecomes.1⟩)
    · exact .inl ⟨hbecomes.2 table hname, by simpa using Ne.symm hname⟩
  | @inside name path node _ _ inner inner' hleads hgrows hbecomes =>
    by_cases hname : table = name
    · subst hname
      cases path with
      | nil => cases hgrows
      | cons part rest =>
        exact .inr (.inr ⟨part, rest, node, inner, inner', rfl, hleads, hgrows, hbecomes.1⟩)
    · exact .inl ⟨hbecomes.2 table hname, by simpa using Ne.symm hname⟩

end Grows

section About
variable {table : String} (key : String)

theorem about_of_head?_ne {path : List String} (h : path.head? ≠ some table) (content : Content) :
    about table key (path, content) = none := by
  unfold about
  split <;> simp_all

theorem about_into (part : String) (rest : List String) (content : Content) :
    about table key (table :: part :: rest, content) =
      if part = key then some (if rest = [] then content else .table) else none := by
  cases rest <;> simp [about]

theorem about_braces (inner : Entries) :
    about table key ([table], .value (.table .braces inner)) = (Entries.find? inner key).map .value := by
  simp [about]

theorem about_header : about table key ([table], .table) = none := rfl

variable {key} in
/-- Of the keys of a table only a value in braces says something by itself. -/
theorem about_table {content said : Content} (h : about table key ([table], content) = some said) :
    ∃ inner node, content = .value (.table .braces inner) ∧ Entries.find? inner key = some node ∧
      said = .value node := by
  match content with
  | .value (.table .braces inner) =>
    rw [about_braces] at h
    obtain ⟨node, hfind, hsaid⟩ := Option.map_eq_some_iff.mp h
    exact ⟨inner, node, rfl, hfind, hsaid.symm⟩
  | .value (.table .header _) | .value (.table .implied _) | .value (.table .dotted _) => cases h
  | .value (.scalar _) | .value (.array _) | .value (.tables _) | .table | .element => cases h

end About

/-! ## A table and its keys -/

/-- The entries of a top-level table. A table that is missing has none. -/
def tableEntries? (entries : Entries) (table : String) : Option Entries :=
  match Entries.find? entries table with
  | none => some []
  | some (.table _ inner) => some inner
  | some _ => none

theorem tableEntries?_eq {entries : Entries} {table : String} {origin : Origin} {inner : Entries}
    (h : Entries.find? entries table = some (.table origin inner)) :
    tableEntries? entries table = some inner := by
  rw [tableEntries?, h]

section
variable {said : List Item} {item : Item} {table key : String}

theorem says_append {content : Content} :
    Says (said ++ [item]) table key content ↔
      Says said table key content ∨ about table key item = some content := by
  simp [Says, or_and_right, exists_or]

theorem silent_append :
    Silent (said ++ [item]) table key ↔ Silent said table key ∧ about table key item = none := by
  simp [Silent, or_imp, forall_and]

end

/-- A table has the scalars that are said to be its keys' values, and no key of which nothing is said. -/
structure Holds (said : List Item) (table : String) (inner : Entries) : Prop where
  value : ∀ key s, Says said table key (.value (.scalar s)) →
    Entries.find? inner key = some (.scalar s)
  silent : ∀ key, Silent said table key → Entries.find? inner key = none

section
variable {said : List Item} {table : String} {inner : Entries} {content : Content}

/-- An item that says nothing of a table changes nothing there. -/
theorem Holds.of_about (h : Holds said table inner) {item : Item}
    (hnone : ∀ key, about table key item = none) : Holds (said ++ [item]) table inner where
  value key s hsaid := by
    rw [says_append, hnone key] at hsaid
    exact h.value key s (hsaid.resolve_right nofun)
  silent key hsilent := h.silent key (silent_append.mp hsilent).1

theorem Holds.into (h : Holds said table inner) {part : String} {rest : List String} {inner' : Entries}
    (hgrows : Grows content (part :: rest) inner inner') :
    Holds (said ++ [(table :: part :: rest, content)]) table inner' := by
  obtain ⟨node, ⟨hnode, helse⟩, hfree, -, hvalue⟩ := hgrows.becomes
  constructor
  · intro key s hsaid
    rw [says_append, about_into] at hsaid
    rcases hsaid with hold | hnew
    · have hkept := h.value key s hold
      have hne : key ≠ part := by
        rintro rfl
        exact hfree s hkept
      rw [helse key hne, hkept]
    · split at hnew
      next heq =>
        subst heq
        split at hnew
        next hrest => rw [hnode, hvalue _ hrest (Option.some.inj hnew)]
        · cases hnew
      · cases hnew
  · intro key hsilent
    rw [silent_append, about_into] at hsilent
    have hne : key ≠ part := by
      rintro rfl
      simp at hsilent
    rw [helse key hne, h.silent key hsilent.1]

/-- What one statement leaves of a table, unless it makes something else of the table. -/
theorem Holds.grows (h : Holds said table inner) {path : List String} {before after : Entries}
    (hsection : tableEntries? before table = some inner) (hgrows : Grows content path before after)
    (htable : path = [table] → content.IsTable) :
    ∃ inner', tableEntries? after table = some inner' ∧ Holds (said ++ [(path, content)]) table inner' := by
  rcases hgrows.table_cases table with ⟨hsame, hhead⟩ | ⟨rfl, node, hmakes, hafter⟩ |
    ⟨part, rest, node, start, finish, rfl, hleads, hinner, hafter⟩
  · exact ⟨inner, by rw [← hsection, tableEntries?, tableEntries?, hsame],
      h.of_about fun key => about_of_head?_ne key hhead content⟩
  · have hkind := htable rfl
    unfold tableEntries? at hsection
    cases hbefore : Entries.find? before table with
    | none =>
      rw [hbefore] at hsection hmakes
      obtain rfl : inner = [] := (Option.some.inj hsection).symm
      cases hmakes with
      | table => exact ⟨[], tableEntries?_eq hafter, h.of_about fun key => about_header key⟩
      | element => exact hkind.elim
      | value =>
        match node, hkind with
        | .table .braces given, _ =>
          refine ⟨given, tableEntries?_eq hafter, fun key s hsaid => ?_, fun key hsilent => ?_⟩
          · rw [says_append, about_braces] at hsaid
            rcases hsaid with hold | hnew
            · cases h.value key s hold
            · obtain ⟨value, hfind, hvalue⟩ := Option.map_eq_some_iff.mp hnew
              cases hvalue
              exact hfind
          · rw [silent_append, about_braces] at hsilent
            exact Option.map_eq_none_iff.mp hsilent.2
    | some old =>
      rw [hbefore] at hsection hmakes
      cases hmakes with
      | implied =>
        cases hsection
        exact ⟨inner, tableEntries?_eq hafter, h.of_about fun key => about_header key⟩
      | repeated => exact hkind.elim
  · unfold tableEntries? at hsection
    cases hbefore : Entries.find? before table with
    | none =>
      rw [hbefore] at hsection hleads
      cases hsection
      cases hleads
      exact ⟨finish, tableEntries?_eq hafter, h.into hinner⟩
    | some old =>
      rw [hbefore] at hsection hleads
      cases hleads with
      | table =>
        cases hsection
        exact ⟨finish, tableEntries?_eq hafter, h.into hinner⟩
      | last => cases hsection

theorem Holds.foldlM (h : Holds said table inner) {statements : List Statement} {a b : Assembly}
    (hsection : tableEntries? a.root table = some inner)
    (htable : IsTableIn (items a.current statements) table)
    (hrun : statements.foldlM Assembly.add a = some b) :
    ∃ inner', tableEntries? b.root table = some inner' ∧
      Holds (said ++ items a.current statements) table inner' := by
  induction statements generalizing a said inner with
  | nil =>
    cases hrun
    exact ⟨inner, hsection, by simpa [items] using h⟩
  | cons s statements ih =>
    obtain ⟨next, hnext, hrest⟩ := Option.bind_eq_some_iff.mp hrun
    obtain ⟨hgrows, hcurrent⟩ := grows_add hnext
    obtain ⟨inner', hsection', h'⟩ := h.grows hsection hgrows (htable (s.item a.current) (by simp [items]))
    have htail : IsTableIn (items next.current statements) table := by
      rw [hcurrent]
      exact fun item hitem => htable item (List.mem_cons_of_mem _ hitem)
    have hall := ih h' hsection' htail hrest
    rwa [hcurrent, List.append_assoc] at hall

end

/-- A document that has been put together holds all that its statements say of a table's keys. -/
theorem holds_assemble {statements : List Statement} {entries : Entries} {table : String}
    (h : assemble statements = some entries) (htable : IsTableIn (items [] statements) table) :
    ∃ inner, tableEntries? entries table = some inner ∧ Holds (items [] statements) table inner := by
  obtain ⟨b, hrun, rfl⟩ := Option.map_eq_some_iff.mp h
  have hempty : Holds [] table [] := ⟨fun _ _ hsaid => by simp [Says] at hsaid, fun _ _ => rfl⟩
  exact hempty.foldlM rfl htable hrun

/-! ## Keys with a wrong value -/

/-- A key holds no scalar of those that are allowed, or its table is a list of tables. -/
def Spoiled (allowed : Scalar → Prop) (table key : String) (entries : Entries) : Prop :=
  (∃ elements, Entries.find? entries table = some (.tables elements) ∧ elements ≠ []) ∨
  ∃ origin inner node, Entries.find? entries table = some (.table origin inner) ∧
    Entries.find? inner key = some node ∧ ∀ s, node = .scalar s → ¬allowed s

/-- A content that no allowed scalar is. -/
def Content.IsWrong (allowed : Scalar → Prop) (content : Content) : Prop :=
  ∀ s, content = .value (.scalar s) → ¬allowed s

section
variable {allowed : Scalar → Prop} {table key : String} {content : Content} {path : List String}
  {before after : Entries}

/-- What is wrong stays so: nothing is put in a scalar's place, and no table becomes a scalar. -/
theorem Spoiled.grows (h : Spoiled allowed table key before) (hgrows : Grows content path before after) :
    Spoiled allowed table key after := by
  rcases hgrows.table_cases table with ⟨hsame, -⟩ | ⟨-, node, hmakes, hafter⟩ |
    ⟨part, rest, node, start, finish, -, hleads, hinner, hafter⟩
  · rwa [Spoiled, hsame]
  · rcases h with ⟨elements, hbefore, -⟩ | ⟨origin, inner, old, hbefore, hold, hwrong⟩
    · rw [hbefore] at hmakes
      cases hmakes
      exact .inl ⟨_, hafter, by simp⟩
    · rw [hbefore] at hmakes
      cases hmakes
      exact .inr ⟨_, _, old, hafter, hold, hwrong⟩
  · rcases h with ⟨elements, hbefore, -⟩ | ⟨origin, inner, old, hbefore, hold, hwrong⟩
    · rw [hbefore] at hleads
      cases hleads
      exact .inl ⟨_, hafter, by simp⟩
    · rw [hbefore] at hleads
      cases hleads
      obtain ⟨new, ⟨hnew, helse⟩, -, hscalar, -⟩ := hinner.becomes
      by_cases hkey : key = part
      · subst hkey
        refine .inr ⟨_, _, new, hafter, hnew, fun s hs => ?_⟩
        obtain ⟨-, -, hnone⟩ := hscalar s hs
        rw [hold] at hnone
        cases hnone
      · exact .inr ⟨_, _, old, hafter, by rw [helse key hkey, hold], hwrong⟩

/-- Saying something wrong of a key spoils it. -/
theorem spoiled_of_about (hgrows : Grows content path before after) {wrong : Content}
    (habout : about table key (path, content) = some wrong) (hwrong : wrong.IsWrong allowed) :
    Spoiled allowed table key after := by
  rcases hgrows.table_cases table with ⟨-, hhead⟩ | ⟨rfl, node, hmakes, hafter⟩ |
    ⟨part, rest, node, start, finish, rfl, hleads, hinner, hafter⟩
  · rw [about_of_head?_ne key hhead] at habout
    cases habout
  · obtain ⟨inner, value, rfl, hfind, rfl⟩ := about_table habout
    generalize Entries.find? before table = old at hmakes
    cases hmakes
    exact .inr ⟨_, inner, value, hafter, hfind, fun s hs => hwrong s (congrArg Content.value hs)⟩
  · obtain ⟨new, ⟨hnew, -⟩, -, hscalar, -⟩ := hinner.becomes
    rw [about_into] at habout
    split at habout
    next hkey =>
      subst hkey
      have hbad : ∀ s, new = .scalar s → ¬allowed s := by
        rintro s rfl
        obtain ⟨rfl, rfl, -⟩ := hscalar s rfl
        rw [if_pos rfl] at habout
        exact hwrong s (Option.some.inj habout).symm
      generalize Entries.find? before table = old at hleads
      cases hleads with
      | fresh => exact .inr ⟨_, finish, new, hafter, hnew, hbad⟩
      | table => exact .inr ⟨_, finish, new, hafter, hnew, hbad⟩
      | last => exact .inl ⟨_, hafter, by simp⟩
    · cases habout

theorem spoiled_foldlM {statements : List Statement} {a b : Assembly} {wrong : Content}
    (hwrong : wrong.IsWrong allowed)
    (h : Spoiled allowed table key a.root ∨ Says (items a.current statements) table key wrong)
    (hrun : statements.foldlM Assembly.add a = some b) : Spoiled allowed table key b.root := by
  induction statements generalizing a with
  | nil =>
    cases hrun
    exact h.resolve_right (by simp [Says, items])
  | cons s statements ih =>
    obtain ⟨next, hnext, hrest⟩ := Option.bind_eq_some_iff.mp hrun
    obtain ⟨hgrows, hcurrent⟩ := grows_add hnext
    refine ih ?_ hrest
    rcases h with hspoiled | ⟨item, hitem, habout⟩
    · exact .inl (hspoiled.grows hgrows)
    · rcases List.mem_cons.mp hitem with rfl | hlater
      · exact .inl (spoiled_of_about hgrows habout hwrong)
      · exact .inr ⟨item, hcurrent ▸ hlater, habout⟩

end

/-- A document that says something wrong of a key has it spoiled, whatever else it says. -/
theorem spoiled_assemble {allowed : Scalar → Prop} {table key : String} {wrong : Content}
    {statements : List Statement} {entries : Entries} (h : assemble statements = some entries)
    (hsaid : Says (items [] statements) table key wrong) (hwrong : wrong.IsWrong allowed) :
    Spoiled allowed table key entries := by
  obtain ⟨b, hrun, rfl⟩ := Option.map_eq_some_iff.mp h
  exact spoiled_foldlM (a := ⟨[], []⟩) hwrong (.inr hsaid) hrun

end ManagedTypes.Toml
