/-! Flag words: binding flags, member types and member modifiers. Undefined bits are kept. -/
namespace ManagedTypes

abbrev Flags := BitVec 32

namespace Flags

def contains (flags other : Flags) : Bool := flags &&& other == other
def intersects (flags other : Flags) : Bool := flags &&& other != 0

/-- The bits of `flags` that `other` does not have. -/
def without (flags other : Flags) : Flags := flags &&& ~~~other

/-- Lower-case hexadecimal digits after `0x`. -/
def hexText (flags : Flags) : String :=
  String.ofList ('0' :: 'x' :: Nat.toDigits 16 flags.toNat)

end Flags

/-- The named constants of a kind of flags. -/
abbrev FlagSet := List (String × Flags)

namespace FlagSet

def all (s : FlagSet) : Flags := s.foldl (fun bits (_, flag) => bits ||| flag) 0

def known (s : FlagSet) (flags : Flags) : Flags := flags &&& s.all

def isValid (s : FlagSet) (flags : Flags) : Bool := flags.without s.all == 0

/-- The constants that make up the flags, in the order of their declaration. One that adds nothing to
those before it is left out. -/
def names (flags : Flags) : FlagSet → Flags → List String
  | [], _ => []
  | (name, flag) :: rest, remaining =>
    if flags.contains flag && remaining.intersects flag then
      name :: names flags rest (remaining.without flag)
    else names flags rest remaining

end FlagSet

namespace BindingFlags

def ignoreCase : Flags := 0x1
def declaredOnly : Flags := 0x2
def instanced : Flags := 0x4
def static : Flags := 0x8
def isPublic : Flags := 0x10
def nonPublic : Flags := 0x20

def constants : FlagSet :=
  [("IGNORE_CASE", ignoreCase), ("DECLARED_ONLY", declaredOnly), ("INSTANCE", instanced),
    ("STATIC", static), ("PUBLIC", isPublic), ("NON_PUBLIC", nonPublic),
    ("FLATTEN_HIERARCHY", 0x40), ("INVOKE_METHOD", 0x100), ("CREATE_INSTANCE", 0x200),
    ("GET_FIELD", 0x400), ("SET_FIELD", 0x800), ("GET_PROPERTY", 0x1000),
    ("SET_PROPERTY", 0x2000), ("PUT_DISP_PROPERTY", 0x4000),
    ("PUT_REF_DISP_PROPERTY", 0x8000), ("EXACT_BINDING", 0x10000),
    ("SUPPRESS_CHANGE_TYPE", 0x20000), ("OPTIONAL_PARAM_BINDING", 0x40000),
    ("IGNORE_RETURN", 0x1000000), ("DO_NOT_WRAP_EXCEPTIONS", 0x2000000)]

def visibility : Flags := isPublic ||| nonPublic
def lifetime : Flags := instanced ||| static

/-- The flags that an enumeration understands. -/
def enumeration : Flags := visibility ||| lifetime ||| declaredOnly

def defaultLookup : Flags := isPublic ||| instanced ||| static

def groups : List Flags := [visibility, lifetime, enumeration, defaultLookup]

end BindingFlags

namespace MemberTypes

def constructor : Flags := 0x1
def field : Flags := 0x4
def method : Flags := 0x8

def constants : FlagSet :=
  [("CONSTRUCTOR", constructor), ("EVENT", 0x2), ("FIELD", field), ("METHOD", method),
    ("PROPERTY", 0x10), ("TYPE_INFO", 0x20), ("CUSTOM", 0x40), ("NESTED_TYPE", 0x80),
    ("ALL", 0xbf)]

end MemberTypes

namespace Modifiers

def isPublic : Flags := 0x1
def isPrivate : Flags := 0x2
def isProtected : Flags := 0x4
def static : Flags := 0x8
def final : Flags := 0x10
def transient : Flags := 0x80
def native : Flags := 0x100
def synthetic : Flags := 0x1000

def constants : FlagSet :=
  [("PUBLIC", isPublic), ("PRIVATE", isPrivate), ("PROTECTED", isProtected),
    ("STATIC", static), ("FINAL", final), ("SYNCHRONIZED", 0x20), ("VOLATILE", 0x40),
    ("TRANSIENT", transient), ("NATIVE", native), ("INTERFACE", 0x200), ("ABSTRACT", 0x400),
    ("STRICT", 0x800), ("SYNTHETIC", synthetic)]

end Modifiers

end ManagedTypes
