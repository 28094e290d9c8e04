/-! The tree of a document, and how statements put it together. -/
namespace ManagedTypes.Toml

/-- Values that no field of the options has are not told apart further. -/
inductive Scalar
  | text (s : String)
  | integer (v : Int)
  | boolean (b : Bool)
  | float
  | moment
  deriving DecidableEq, Repr

/-- How a table came to be: written in braces, opened by a header, implied by the path of a header,
or implied by a dotted key. -/
inductive Origin
  | braces | header | implied | dotted
  deriving DecidableEq, Repr

/-- Arrays and tables in braces are closed; the others may still grow. -/
inductive Node
  | scalar (s : Scalar)
  | array (elements : List Node)
  | table (origin : Origin) (entries : List (String × Node))
  | tables (elements : List (List (String × Node)))

abbrev Entries := List (String × Node)

/-- A dotted key, its last part apart. -/
structure Key where
  parents : List String
  name : String
  deriving DecidableEq, Repr

def Key.path (k : Key) : List String := k.parents ++ [k.name]

namespace Entries

def find? (entries : Entries) (name : String) : Option Node := entries.lookup name

def put (entries : Entries) (name : String) (node : Node) : Entries :=
  entries.map fun (key, old) => (key, if key = name then node else old)

end Entries

/-- Changes the table at the end of a path. Tables that are missing on the way are implied. A path
leads through the last of the tables under a repeated header; a dotted key does not lead into a
table that was opened by a header. -/
def within (dotted : Bool) (change : Origin → Entries → Option Entries) :
    List String → Origin → Entries → Option Entries
  | [], origin, entries => change origin entries
  | name :: path, _, entries =>
    match Entries.find? entries name with
    | none => do
      let origin : Origin := if dotted then .dotted else .implied
      let inner ← within dotted change path origin []
      return entries ++ [(name, .table origin inner)]
    | some (.table origin inner) => do
      if origin = .braces ∨ dotted ∧ origin = .header then none
      let inner ← within dotted change path origin inner
      return Entries.put entries name (.table origin inner)
    | some (.tables elements) => do
      let last ← elements.getLast?
      let inner ← within dotted change path .header last
      return Entries.put entries name (.tables (elements.dropLast ++ [inner]))
    | some _ => none

/-- Adds a new key. A dotted key may extend only a table that dotted keys made. -/
def addEntry (key : Key) (value : Node) : Origin → Entries → Option Entries :=
  within true (fun origin entries =>
    if (origin == .dotted) == key.parents.isEmpty || (Entries.find? entries key.name).isSome then none
    else some (entries ++ [(key.name, value)])) key.parents

/-- Opens a table, which may so far have been implied by longer headers only. -/
def openTable (key : Key) : Origin → Entries → Option Entries :=
  within false (fun _ entries =>
    match Entries.find? entries key.name with
    | none => some (entries ++ [(key.name, .table .header [])])
    | some (.table .implied inner) => some (Entries.put entries key.name (.table .header inner))
    | some _ => none) key.parents

/-- Opens one more table under a repeated header. -/
def openElement (key : Key) : Origin → Entries → Option Entries :=
  within false (fun _ entries =>
    match Entries.find? entries key.name with
    | none => some (entries ++ [(key.name, .tables [[]])])
    | some (.tables elements) =>
      some (Entries.put entries key.name (.tables (elements ++ [[]])))
    | some _ => none) key.parents

inductive Statement
  | entry (key : Key) (value : Node)
  | table (key : Key)
  | element (key : Key)

/-- The tree read so far and the path of the table that entries go to. -/
structure Assembly where
  root : Entries
  current : List String

def Assembly.add (a : Assembly) : Statement → Option Assembly
  | .entry key value => do
    let root ← within false (addEntry key value) a.current .header a.root
    return { a with root }
  | .table key => do
    let root ← openTable key .header a.root
    return ⟨root, key.path⟩
  | .element key => do
    let root ← openElement key .header a.root
    return ⟨root, key.path⟩

def assemble (statements : List Statement) : Option Entries :=
  (·.root) <$> statements.foldlM Assembly.add ⟨[], []⟩

/-- The entries of a table in braces. -/
def inlineEntries (pairs : List (Key × Node)) : Option Entries :=
  pairs.foldlM (fun entries (key, value) => addEntry key value .braces entries) []

end ManagedTypes.Toml
