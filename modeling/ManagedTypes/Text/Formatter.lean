import ManagedTypes.Text.Standard

/-! Number formatters. A formatter writes a payload under a format string, or as canonical text;
without symbols of the caller's it uses its own. -/
namespace ManagedTypes

structure NumberFormatter where
  format : String → Option NumberSymbols → Payload → Except Fault String
  canonical : Payload → String

namespace NumberFormatter

def standard (symbols : NumberSymbols) : NumberFormatter where
  format text provider p :=
    match Standard.format (provider.getD symbols) text p with
    | .ok s => .ok s
    | .error fault => .error fault.toFault
  canonical := Standard.canonical

/-- Every text that the formatter writes, put between two marks. -/
def enclosed (opening closing : String) (f : NumberFormatter) : NumberFormatter where
  format text provider p := (f.format text provider p).map (opening ++ · ++ closing)
  canonical p := opening ++ f.canonical p ++ closing

end NumberFormatter

end ManagedTypes
