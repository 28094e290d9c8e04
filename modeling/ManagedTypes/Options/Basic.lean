import ManagedTypes.Text.Symbols

/-! Options: which root fields a walk shows, and the symbols of the number formatter. -/
namespace ManagedTypes

structure EnumerationOptions where
  hideRootFields : Bool
  deriving DecidableEq, Repr

def EnumerationOptions.standard : EnumerationOptions := ⟨true⟩

structure Options where
  enumeration : EnumerationOptions
  format : NumberSymbols
  deriving DecidableEq, Repr

inductive OptionsFault
  | unreadable
  | malformed
  | unwritable
  | invalid (detail : String)
  | formatterInstalled
  deriving DecidableEq, Repr

/-- Documents that cannot be read or written are told apart by their kind alone. -/
def OptionsFault.message? : OptionsFault → Option String
  | unreadable | malformed | unwritable => none
  | invalid detail => some ("Invalid options: " ++ detail)
  | formatterInstalled => some "A number formatter is already installed"

namespace Options

def standard : Options := ⟨.standard, .invariant⟩

/-- The symbols that must not be empty, in the order in which they are looked at. -/
def required (s : NumberSymbols) : List (String × String) :=
  [("negative_sign", s.negativeSign), ("decimal_separator", s.decimalSeparator),
    ("nan_symbol", s.nanSymbol), ("positive_infinity_symbol", s.positiveInfinitySymbol),
    ("negative_infinity_symbol", s.negativeInfinitySymbol)]

/-- What is wrong with the options, if anything: an empty symbol, then separators that could not be
told apart, then groups of no digits. -/
def defect? (o : Options) : Option String :=
  match (required o.format).find? (·.2.isEmpty) with
  | some (name, _) => some ("format." ++ name ++ " cannot be empty")
  | none =>
    if o.format.decimalSeparator = o.format.groupSeparator then
      some ("format.decimal_separator and format.group_separator are both '"
        ++ o.format.decimalSeparator ++ "'")
    else if o.format.groupSize = 0 then some "format.group_size must be at least 1"
    else none

def validate (o : Options) : Except OptionsFault Unit :=
  match o.defect? with
  | some detail => .error (.invalid detail)
  | none => .ok ()

end Options

end ManagedTypes
