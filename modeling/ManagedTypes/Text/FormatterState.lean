import ManagedTypes.Text.Formatter

/-! The process's number formatter: installed once, or fixed to the invariant standard one by the
first use. -/
namespace ManagedTypes

inductive FormatterCall
  | format (text : String) (provider : Option NumberSymbols) (p : Payload)
  | canonical (p : Payload)
  deriving DecidableEq

def NumberFormatter.answer (f : NumberFormatter) : FormatterCall → Except Fault String
  | .format text provider p => f.format text provider p
  | .canonical p => .ok (f.canonical p)

/-- A formatter in use. What it answers may depend on the calls made to it before. -/
structure LiveFormatter where
  after : List FormatterCall → NumberFormatter

/-- A formatter that always answers alike. -/
instance : Coe NumberFormatter LiveFormatter := ⟨fun f => ⟨fun _ => f⟩⟩

/-- The formatter in force, if a use or an installation has fixed one, and the calls made to it, of which
the first `read` have been read from the log. Only a recording formatter's can be. -/
structure FormatterState where
  formatter : Option LiveFormatter
  recording : Bool
  calls : List FormatterCall
  read : Nat

namespace FormatterState

def initial : FormatterState := ⟨none, false, [], 0⟩

def install (s : FormatterState) (f : LiveFormatter) (recording : Bool) : FormatterState × Bool :=
  match s.formatter with
  | some _ => (s, false)
  | none => ({ s with formatter := some f, recording := recording }, true)

def inForce (s : FormatterState) : LiveFormatter := s.formatter.getD (NumberFormatter.standard .invariant)

/-- The formatter in force as it answers now. -/
def current (s : FormatterState) : NumberFormatter := s.inForce.after s.calls

def call (s : FormatterState) (c : FormatterCall) : FormatterState × Except Fault String :=
  ({ s with formatter := some s.inForce, calls := s.calls ++ [c] }, s.current.answer c)

/-- The calls of a recording formatter since they were last read. -/
def readLog (s : FormatterState) : FormatterState × List FormatterCall :=
  ({ s with read := s.calls.length }, if s.recording then s.calls.drop s.read else [])

end FormatterState

namespace Payload

/-- A payload's plain text: the formatter's canonical text of a float. An integer's is its decimal
numeral, and the formatter takes no part in it. -/
def display (p : Payload) (s : FormatterState) : FormatterState × String :=
  match p.content with
  | .integer v => (s, Numeral.intText v)
  | .float .. => ((s.call (.canonical p)).1, s.current.canonical p)

/-- Text under a format string; without one, or with an empty one, the plain text. -/
def formatted (p : Payload) (text : Option String) (provider : Option NumberSymbols)
    (s : FormatterState) : FormatterState × Except Fault String :=
  match text with
  | none | some "" => let (s, shown) := p.display s; (s, .ok shown)
  | some text => s.call (.format text provider p)

end Payload

end ManagedTypes
