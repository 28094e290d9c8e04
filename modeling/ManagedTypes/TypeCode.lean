/-! Type codes of the managed type system, with their numbers and names. -/
namespace ManagedTypes

inductive TypeCode
  | empty | object | dbNull | boolean | char
  | sbyte | byte | int16 | uint16 | int32 | uint32 | int64 | uint64
  | single | double | decimal | dateTime | string
  deriving DecidableEq, Repr

namespace TypeCode

/-- Every code, in numeric order. -/
def all : List TypeCode :=
  [empty, object, dbNull, boolean, char, sbyte, byte, int16, uint16, int32, uint32, int64, uint64,
    single, double, decimal, dateTime, string]

/-- Seventeen is not assigned. -/
def number : TypeCode → Nat
  | empty => 0 | object => 1 | dbNull => 2 | boolean => 3 | char => 4
  | sbyte => 5 | byte => 6 | int16 => 7 | uint16 => 8 | int32 => 9 | uint32 => 10
  | int64 => 11 | uint64 => 12 | single => 13 | double => 14 | decimal => 15
  | dateTime => 16 | string => 18

def name : TypeCode → String
  | empty => "Empty" | object => "Object" | dbNull => "DBNull" | boolean => "Boolean"
  | char => "Char" | sbyte => "SByte" | byte => "Byte" | int16 => "Int16" | uint16 => "UInt16"
  | int32 => "Int32" | uint32 => "UInt32" | int64 => "Int64" | uint64 => "UInt64"
  | single => "Single" | double => "Double" | decimal => "Decimal" | dateTime => "DateTime"
  | string => "String"

def ofName? (text : String) : Option TypeCode := all.find? (·.name == text)

end TypeCode

end ManagedTypes
