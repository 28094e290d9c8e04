/-! The symbols that a number's text is written with. -/
namespace ManagedTypes

structure NumberSymbols where
  negativeSign : String
  positiveSign : String
  decimalSeparator : String
  groupSeparator : String
  groupSize : Nat
  percentSymbol : String
  nanSymbol : String
  positiveInfinitySymbol : String
  negativeInfinitySymbol : String
  deriving DecidableEq, Repr

namespace NumberSymbols

def invariant : NumberSymbols where
  negativeSign := "-"
  positiveSign := "+"
  decimalSeparator := "."
  groupSeparator := ","
  groupSize := 3
  percentSymbol := "%"
  nanSymbol := "NaN"
  positiveInfinitySymbol := "Infinity"
  negativeInfinitySymbol := "-Infinity"

end NumberSymbols

inductive Symbol
  | negativeSign | positiveSign | decimalSeparator | groupSeparator | percent
  | nan | positiveInfinity | negativeInfinity
  deriving DecidableEq, Repr

def NumberSymbols.text (symbols : NumberSymbols) : Symbol → String
  | .negativeSign => symbols.negativeSign
  | .positiveSign => symbols.positiveSign
  | .decimalSeparator => symbols.decimalSeparator
  | .groupSeparator => symbols.groupSeparator
  | .percent => symbols.percentSymbol
  | .nan => symbols.nanSymbol
  | .positiveInfinity => symbols.positiveInfinitySymbol
  | .negativeInfinity => symbols.negativeInfinitySymbol

end ManagedTypes
