/-! Faults that operations on boxes, formats and host types report, and their wording. -/
namespace ManagedTypes

inductive Fault
  | indexOutOfRange (index length : Nat)
  | notSupported (detail : String)
  | argument (detail : String)
  | platformNotSupported (detail : String)
  | invalidCast (detail : String)
  | overflow (detail : String)
  | format (detail : String)
  deriving DecidableEq, Repr

namespace Fault

def message : Fault → String
  | indexOutOfRange index length =>
    "Index " ++ toString index ++ " out of range for array of length " ++ toString length
  | notSupported detail => "Not supported: " ++ detail
  | argument detail => "Argument error: " ++ detail
  | platformNotSupported detail => "Platform not supported: " ++ detail
  | invalidCast detail => "Invalid cast: " ++ detail
  | overflow detail => "Overflow: " ++ detail
  | format detail => "Format error: " ++ detail

/-- An operation that values of the named type do not have. -/
def unsupported (operation typeName : String) : Fault :=
  notSupported (operation ++ " on " ++ typeName)

/-- A value outside the range of the named type. -/
def outOfRange (target : String) : Fault :=
  overflow ("Value was either too large or too small for " ++ target)

/-- A conversion that the two named types do not have. -/
def noCast (source target : String) : Fault :=
  invalidCast ("Invalid cast from '" ++ source ++ "' to '" ++ target ++ "'")

end Fault

end ManagedTypes
