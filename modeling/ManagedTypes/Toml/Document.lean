import ManagedTypes.Toml.Number
import ManagedTypes.Toml.Quoted

/-! Keys, values and documents. -/
namespace ManagedTypes.Toml

/-- How many parts a key has, or levels a value, must stay below this. -/
def depthLimit : Nat := 80

def isBareKey (c : Char) : Bool := c.isAlphanum || c == '-' || c == '_'

def readSimpleKey : Reader String := fun cs =>
  match cs with
  | [] => none
  | c :: _ =>
    if c = basic.mark then (readQuotedLine basic cs).map fun (s, rest) => (String.ofList s, rest)
    else if c = literal.mark then
      (readQuotedLine literal cs).map fun (s, rest) => (String.ofList s, rest)
    else
      let bare := cs.takeWhile isBareKey
      if bare.isEmpty then none else some (String.ofList bare, cs.dropWhile isBareKey)

/-- The parts of a dotted key, at most `limit` of them. Blanks may surround each part. -/
def readParts : Nat → Reader (List String)
  | 0, _ => none
  | limit + 1, cs => do
    let (part, rest) ← readSimpleKey (skipBlanks cs)
    match skipBlanks rest with
    | '.' :: rest =>
      let (parts, rest) ← readParts limit rest
      return (part :: parts, rest)
    | rest => return ([part], rest)

def readKey : Reader Key := fun cs => do
  let (parts, rest) ← readParts (depthLimit - 1) cs
  let name ← parts.getLast?
  return (⟨parts.dropLast, name⟩, rest)

def readScalar : Reader Node := fun cs =>
  match cs with
  | [] => none
  | c :: _ =>
    if c = basic.mark then
      (readQuoted basic cs).map fun (s, rest) => (.scalar (.text (String.ofList s)), rest)
    else if c = literal.mark then
      (readQuoted literal cs).map fun (s, rest) => (.scalar (.text (String.ofList s)), rest)
    else if c = '+' ∨ c = '-' ∨ c.isDigit then
      (readNumber cs).map fun (s, rest) => (.scalar s, rest)
    else match cs with
      | 't' :: 'r' :: 'u' :: 'e' :: rest => some (.scalar (.boolean true), rest)
      | 'f' :: 'a' :: 'l' :: 's' :: 'e' :: rest => some (.scalar (.boolean false), rest)
      | _ => (readSpecial cs).map fun (s, rest) => (.scalar s, rest)

/-- The rest of an array after its bracket, in at most `fuel` elements. -/
def readElements (value : Reader Node) : Nat → Reader (List Node)
  | 0, _ => none
  | fuel + 1, cs =>
    match skipSpace false cs with
    | ']' :: rest => some ([], rest)
    | cs => do
      let (element, rest) ← value cs
      match skipSpace false rest with
      | ',' :: rest =>
        let (elements, rest) ← readElements value fuel rest
        return (element :: elements, rest)
      | ']' :: rest => return ([element], rest)
      | _ => none

/-- A key, an equals sign and a value. -/
def readPair (value : Reader Node) : Reader (Key × Node) := fun cs => do
  let (key, rest) ← readKey cs
  let (_, rest) ← readChar '=' rest
  let (node, rest) ← value (skipBlanks rest)
  return ((key, node), rest)

/-- The rest of a table in braces that is not empty, in at most `fuel` pairs. -/
def readPairs (value : Reader Node) : Nat → Reader (List (Key × Node))
  | 0, _ => none
  | fuel + 1, cs => do
    let (pair, rest) ← readPair value cs
    match skipBlanks rest with
    | ',' :: rest =>
      let (pairs, rest) ← readPairs value fuel rest
      return (pair :: pairs, rest)
    | '}' :: rest => return ([pair], rest)
    | _ => none

/-- A table in braces stands on one line and has no comma after its last pair. -/
def readInlineTable (value : Reader Node) : Reader Node := fun cs => do
  let (pairs, rest) ← match skipBlanks cs with
    | '}' :: rest => some ([], rest)
    | _ => readPairs value (cs.length + 1) cs
  return (.table .braces (← inlineEntries pairs), rest)

/-- A value with at most `depth` levels of brackets and braces. -/
def readValue : Nat → Reader Node
  | 0, cs => readScalar cs
  | depth + 1, cs =>
    match cs with
    | '[' :: rest => do
      let (elements, rest) ← readElements (readValue depth) (rest.length + 1) rest
      return (.array elements, rest)
    | '{' :: rest => readInlineTable (readValue depth) rest
    | cs => readScalar cs

/-- A header or a pair, up to the end of its line. -/
def readStatement : Reader Statement := fun cs => do
  let (statement, rest) ← match cs with
    | '[' :: '[' :: rest => do
      let (key, rest) ← readKey rest
      let (_, rest) ← readChar ']' rest
      let (_, rest) ← readChar ']' rest
      some (Statement.element key, rest)
    | '[' :: rest => do
      let (key, rest) ← readKey rest
      let (_, rest) ← readChar ']' rest
      some (Statement.table key, rest)
    | cs => do
      let ((key, node), rest) ← readPair (readValue (depthLimit - 1)) cs
      some (Statement.entry key node, rest)
  return (statement, ← endLine? rest)

/-- The statements of a text of at most `fuel` lines. -/
def readStatements : Nat → List Char → Option (List Statement)
  | 0, _ => none
  | fuel + 1, cs =>
    match skipBlanks cs with
    | [] => some []
    | cs => match endLine? cs with
      | some rest => readStatements fuel rest
      | none => do
        let (statement, rest) ← readStatement cs
        return statement :: (← readStatements fuel rest)

/-- A byte order mark is skipped. -/
def skipByteOrderMark : List Char → List Char
  | c :: rest => if c.toNat = 0xfeff then rest else c :: rest
  | [] => []

/-- The top-level entries of a document, or nothing if it is not well formed. -/
def parse (text : String) : Option Entries := do
  let cs := skipByteOrderMark text.toList
  assemble (← readStatements (cs.length + 1) cs)

end ManagedTypes.Toml
