import ManagedTypes.Toml.Scan

/-! The four forms of quoted text, read and written. -/
namespace ManagedTypes.Toml

/-- Text between quotation marks has escapes, text between apostrophes has none. -/
structure Quote where
  mark : Char
  escapes : Bool
  deriving DecidableEq, Repr

def basic : Quote := ⟨'\"', true⟩
def literal : Quote := ⟨'\'', false⟩

/-- Where a reader stands: in plain text, after a backslash, or inside the digits of a character
number. In text of several lines also after a line-ending backslash, before and after the end of
that line, and after a carriage return. -/
inductive Mode
  | plain
  | escape
  | hex (left value : Nat)
  | beforeBreak
  | afterBreak
  | carriage (skipping : Bool)
  deriving DecidableEq, Repr

def simpleEscape? (c : Char) : Option Char :=
  match c with
  | 'b' => some '\x08'
  | 't' => some '\t'
  | 'n' => some '\n'
  | 'f' => some '\x0c'
  | 'r' => some '\r'
  | '\"' => some '\"'
  | '\\' => some '\\'
  | _ => none

/-- The character with a number; surrogates and numbers beyond the last have none. -/
def scalar? (n : Nat) : Option Char :=
  if h : n.isValidChar then some (Char.ofNatAux n h) else none

def push (c : Char) : Option (List Char × List Char) → Option (List Char × List Char)
  | some (text, rest) => some (c :: text, rest)
  | none => none

/-- The rest of a text of one line, up to its closing mark. -/
def readLine (q : Quote) : Mode → Reader (List Char)
  | _, [] => none
  | .escape, c :: rest =>
    match simpleEscape? c with
    | some e => push e (readLine q .plain rest)
    | none =>
      if c = 'u' then readLine q (.hex 4 0) rest
      else if c = 'U' then readLine q (.hex 8 0) rest
      else none
  | .hex left value, c :: rest =>
    match hexValue? c with
    | none => none
    | some d =>
      if left ≤ 1 then
        match scalar? (value * 16 + d) with
        | some e => push e (readLine q .plain rest)
        | none => none
      else readLine q (.hex (left - 1) (value * 16 + d)) rest
  | _, c :: rest =>
    if c = q.mark then some ([], rest)
    else if q.escapes && c == '\\' then readLine q .escape rest
    else if isPlain c then push c (readLine q .plain rest)
    else none

/-- The rest of a text of several lines, up to its closing marks: three of them, before which up to
two more belong to the text. Every line end reads as a line feed. -/
def readLines (q : Quote) : Mode → Reader (List Char)
  | _, [] => none
  | .escape, c :: rest =>
    match simpleEscape? c with
    | some e => push e (readLines q .plain rest)
    | none =>
      if c = 'u' then readLines q (.hex 4 0) rest
      else if c = 'U' then readLines q (.hex 8 0) rest
      else if isBlank c then readLines q .beforeBreak rest
      else if c = '\n' then readLines q .afterBreak rest
      else if c = '\r' then readLines q (.carriage true) rest
      else none
  | .hex left value, c :: rest =>
    match hexValue? c with
    | none => none
    | some d =>
      if left ≤ 1 then
        match scalar? (value * 16 + d) with
        | some e => push e (readLines q .plain rest)
        | none => none
      else readLines q (.hex (left - 1) (value * 16 + d)) rest
  | .beforeBreak, c :: rest =>
    if isBlank c then readLines q .beforeBreak rest
    else if c = '\n' then readLines q .afterBreak rest
    else if c = '\r' then readLines q (.carriage true) rest
    else none
  | .carriage skipping, c :: rest =>
    if c = '\n' then
      if skipping then readLines q .afterBreak rest else push '\n' (readLines q .plain rest)
    else none
  | mode, c :: rest =>
    if mode = .afterBreak && (isBlank c || c == '\n') then readLines q .afterBreak rest
    else if c = '\r' then readLines q (.carriage (mode = .afterBreak)) rest
    else if c = q.mark then
      let count := 1 + (rest.takeWhile (· == q.mark)).length
      if count < 3 then push c (readLines q .plain rest)
      else
        let extra := min (count - 3) 2
        some (List.replicate extra c, rest.drop (2 + extra))
    else if q.escapes && c == '\\' then readLines q .escape rest
    else if c = '\n' || isPlain c then push c (readLines q .plain rest)
    else none

/-- A quoted text of one line, from its opening mark on. -/
def readQuotedLine (q : Quote) : Reader (List Char)
  | [] => none
  | c :: rest => if c = q.mark then readLine q .plain rest else none

/-- A quoted text of either extent. A line end right after three opening marks is dropped. -/
def readQuoted (q : Quote) : Reader (List Char)
  | a :: b :: c :: rest =>
    if a = q.mark ∧ b = q.mark ∧ c = q.mark then readLines q .plain (skipNewline rest)
    else readQuotedLine q (a :: b :: c :: rest)
  | cs => readQuotedLine q cs

/-! Writing takes the first form that fits the text. -/

inductive Form
  | line (q : Quote)
  | lines (q : Quote)
  deriving DecidableEq, Repr

/-- A control character other than tab and line feed; only an escape can write it. -/
def needsEscape (c : Char) : Bool := (c.toNat ≤ 0x1f || c.toNat == 0x7f) && c != '\t' && c != '\n'

/-- The longest run of a character, `run` of them standing before the text. -/
def longestRun (mark : Char) (run : Nat) : List Char → Nat
  | [] => run
  | c :: rest => if c = mark then longestRun mark (run + 1) rest else max run (longestRun mark 0 rest)

def chooseForm (text : List Char) : Form :=
  let control := text.any needsEscape
  let lines := text.contains '\n'
  let backslash := text.contains '\\'
  let marks := longestRun basic.mark 0 text
  let apostrophes := longestRun literal.mark 0 text
  if !control && !backslash && !lines && marks == 0 then .line basic
  else if !control && !lines && apostrophes == 0 then .line literal
  else if !control && !backslash && marks ≤ 2 then .lines basic
  else if !control && apostrophes ≤ 2 then .lines literal
  else if lines then .lines basic
  else .line basic

def hexEscape (c : Char) : List Char :=
  '\\' :: 'u' :: (Numeral.padded 4 (Numeral.digits 16 c.toNat)).map Numeral.upperChar

/-- A character between quotation marks, line feeds and marks apart. -/
def escaped (c : Char) : List Char :=
  match c with
  | '\x08' => ['\\', 'b']
  | '\t' => ['\\', 't']
  | '\x0c' => ['\\', 'f']
  | '\r' => ['\\', 'r']
  | '\\' => ['\\', '\\']
  | c => if needsEscape c then hexEscape c else [c]

def escapedLine (c : Char) : List Char :=
  if c = '\n' then ['\\', 'n'] else if c = basic.mark then ['\\', c] else escaped c

/-- In a text of several lines only the third of three marks in a row needs a backslash; `run` marks
stand before the text. -/
def escapedLines (run : Nat) : List Char → List Char
  | [] => []
  | c :: rest =>
    if c = '\n' then c :: escapedLines 0 rest
    else if c = basic.mark then
      if run = 2 then '\\' :: c :: escapedLines 0 rest else c :: escapedLines (run + 1) rest
    else escaped c ++ escapedLines 0 rest

def writeQuoted (text : List Char) : List Char :=
  let opening := if text.contains '\n' then ['\n'] else []
  match chooseForm text with
  | .line q =>
    [q.mark] ++ (if q.escapes then text.flatMap escapedLine else text) ++ [q.mark]
  | .lines q =>
    List.replicate 3 q.mark ++ opening
      ++ (if q.escapes then escapedLines 0 text else text) ++ List.replicate 3 q.mark

end ManagedTypes.Toml
