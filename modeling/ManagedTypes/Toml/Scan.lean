import ManagedTypes.Numeral

/-! Blanks, comments, line ends and runs of digits. -/
namespace ManagedTypes.Toml

/-- Readers take a value off the front of the text and leave the rest. -/
abbrev Reader (α : Type) := List Char → Option (α × List Char)

def isBlank (c : Char) : Bool := c == ' ' || c == '\t'

/-- Anything but a control character; the tab is allowed. -/
def isPlain (c : Char) : Bool := c == '\t' || 0x20 ≤ c.toNat && c.toNat != 0x7f

def skipBlanks (cs : List Char) : List Char := cs.dropWhile isBlank

def newline? : List Char → Option (List Char)
  | '\n' :: rest => some rest
  | '\r' :: '\n' :: rest => some rest
  | _ => none

def skipNewline (cs : List Char) : List Char := (newline? cs).getD cs

def skipComment : List Char → List Char
  | '#' :: rest => rest.dropWhile isPlain
  | cs => cs

/-- Blanks, perhaps a comment, and the end of the line or of the text. -/
def endLine? (cs : List Char) : Option (List Char) :=
  match skipComment (skipBlanks cs) with
  | [] => some []
  | rest => newline? rest

/-- Blanks, line ends and comments inside an array. A comment ends with its line. -/
def skipSpace (inComment : Bool) : List Char → List Char
  | [] => []
  | '\r' :: '\n' :: rest => skipSpace false rest
  | c :: rest =>
    if c = '\n' then skipSpace false rest
    else if inComment then (if isPlain c then skipSpace true rest else c :: rest)
    else if c = '#' then skipSpace true rest
    else if isBlank c then skipSpace false rest
    else c :: rest

/-- Digits after a first one; a single underscore may stand between two. -/
def moreDigits (isDigit : Char → Bool) : List Char → List Char × List Char
  | [] => ([], [])
  | '_' :: c :: rest =>
    if isDigit c then
      let (ds, rest) := moreDigits isDigit rest
      (c :: ds, rest)
    else ([], '_' :: c :: rest)
  | c :: rest =>
    if isDigit c then
      let (ds, rest) := moreDigits isDigit rest
      (c :: ds, rest)
    else ([], c :: rest)

def digits (isDigit : Char → Bool) : Reader (List Char)
  | [] => none
  | c :: rest =>
    if isDigit c then
      let (ds, rest) := moreDigits isDigit rest
      some (c :: ds, rest)
    else none

/-- The value of a hexadecimal digit. -/
def hexValue? (c : Char) : Option Nat :=
  if c.isDigit then some (c.toNat - '0'.toNat)
  else if 'a' ≤ c ∧ c ≤ 'f' then some (c.toNat - 'a'.toNat + 10)
  else if 'A' ≤ c ∧ c ≤ 'F' then some (c.toNat - 'A'.toNat + 10)
  else none

/-- The number that digits of any base up to sixteen stand for. -/
def numeral (base : Nat) (ds : List Char) : Nat :=
  Numeral.value base (ds.map fun c => (hexValue? c).getD 0)

end ManagedTypes.Toml
