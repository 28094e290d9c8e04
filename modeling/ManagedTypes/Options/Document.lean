import ManagedTypes.Options.Basic
import ManagedTypes.Toml.Document

/-! Options as documents: reading over the defaults, and writing. -/
namespace ManagedTypes
open Toml

/-- The fields of a structure, by name from a table or by position from an array. A date-time counts
as a table of no known field. -/
inductive FieldSource
  | named (entries : Entries)
  | listed (elements : List Node)

namespace FieldSource

def ofNode? : Node → Option FieldSource
  | .table _ entries => some (named entries)
  | .array elements => some (listed elements)
  | .tables elements => some (listed (elements.map (.table .header)))
  | .scalar .moment => some (named [])
  | .scalar _ => none

/-- The field at a position, known by a name; it may be missing. -/
def get? (s : FieldSource) (position : Nat) (name : String) : Option Node :=
  match s with
  | named entries => Entries.find? entries name
  | listed elements => elements[position]?

/-- Reads a field with `decode`, a missing one as the default. -/
def field {α : Type} (s : FieldSource) (position : Nat) (name : String) (default : α)
    (decode : Node → Option α) : Option α :=
  match s.get? position name with
  | some node => decode node
  | none => some default

end FieldSource

def decodeText : Node → Option String
  | .scalar (.text s) => some s
  | _ => none

def decodeBoolean : Node → Option Bool
  | .scalar (.boolean b) => some b
  | _ => none

def decodeSize : Node → Option Nat
  | .scalar (.integer v) => if 0 ≤ v then some v.toNat else none
  | _ => none

def EnumerationOptions.ofSource (s : FieldSource) : Option EnumerationOptions := do
  return ⟨← s.field 0 "hide_root_fields" standard.hideRootFields decodeBoolean⟩

def NumberSymbols.ofSource (s : FieldSource) : Option NumberSymbols := do
  let d := invariant
  return {
    negativeSign := ← s.field 0 "negative_sign" d.negativeSign decodeText
    positiveSign := ← s.field 1 "positive_sign" d.positiveSign decodeText
    decimalSeparator := ← s.field 2 "decimal_separator" d.decimalSeparator decodeText
    groupSeparator := ← s.field 3 "group_separator" d.groupSeparator decodeText
    groupSize := ← s.field 4 "group_size" d.groupSize decodeSize
    percentSymbol := ← s.field 5 "percent_symbol" d.percentSymbol decodeText
    nanSymbol := ← s.field 6 "nan_symbol" d.nanSymbol decodeText
    positiveInfinitySymbol :=
      ← s.field 7 "positive_infinity_symbol" d.positiveInfinitySymbol decodeText
    negativeInfinitySymbol :=
      ← s.field 8 "negative_infinity_symbol" d.negativeInfinitySymbol decodeText }

namespace Options

def ofEntries (entries : Entries) : Option Options := do
  let source := FieldSource.named entries
  let enumeration ← source.field 0 "enumeration" standard.enumeration fun node =>
    FieldSource.ofNode? node >>= EnumerationOptions.ofSource
  let format ← source.field 1 "format" standard.format fun node =>
    FieldSource.ofNode? node >>= NumberSymbols.ofSource
  return ⟨enumeration, format⟩

/-- Options that pass validation, read from a document. -/
def read (text : String) : Except OptionsFault Options :=
  match Toml.parse text >>= ofEntries with
  | none => .error .malformed
  | some o => o.validate.map fun _ => o

/-- Options from the bytes of a file, if there is one. -/
def readBytes (bytes : Option ByteArray) : Except OptionsFault Options :=
  match bytes >>= String.fromUTF8? with
  | some text => read text
  | none => .error .unreadable

def textField (name value : String) : String :=
  name ++ " = " ++ String.ofList (writeQuoted value.toList) ++ "\n"

/-- The document of the options. Documents have no integers from `2 ^ 63` on. -/
def write (o : Options) : Except OptionsFault String :=
  let s := o.format
  if 0x7FFFFFFFFFFFFFFF < s.groupSize then .error .unwritable
  else .ok <| String.join
    ["[enumeration]\n",
      "hide_root_fields = ", if o.enumeration.hideRootFields then "true" else "false", "\n",
      "\n[format]\n",
      textField "negative_sign" s.negativeSign,
      textField "positive_sign" s.positiveSign,
      textField "decimal_separator" s.decimalSeparator,
      textField "group_separator" s.groupSeparator,
      "group_size = ", Numeral.text s.groupSize, "\n",
      textField "percent_symbol" s.percentSymbol,
      textField "nan_symbol" s.nanSymbol,
      textField "positive_infinity_symbol" s.positiveInfinitySymbol,
      textField "negative_infinity_symbol" s.negativeInfinitySymbol]

end Options

end ManagedTypes
