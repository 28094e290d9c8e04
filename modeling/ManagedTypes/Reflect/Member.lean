import ManagedTypes.Fault
import ManagedTypes.Reflect.Flags

/-! Members of host types, hosts that report them, and queries compiled from binding flags. -/
namespace ManagedTypes

abbrev TypeId := Nat

def typeIdText (t : TypeId) : String := "#" ++ toString t

inductive MemberKind
  | constructor | method | field
  deriving DecidableEq, Repr

namespace MemberKind

def all : List MemberKind := [constructor, method, field]

def name : MemberKind → String
  | constructor => "Constructor"
  | method => "Method"
  | field => "Field"

/-- The kind that a member type stands for; combinations stand for none. -/
def ofMemberType (t : Flags) : Except Fault MemberKind :=
  if t = MemberTypes.constructor then .ok constructor
  else if t = MemberTypes.method then .ok method
  else if t = MemberTypes.field then .ok field
  else .error (.argument ("member type " ++ t.hexText ++ " cannot be enumerated"))

end MemberKind

structure Member where
  name : String
  kind : MemberKind
  declaring : TypeId
  modifiers : Flags
  deriving DecidableEq, Repr

def Member.isStatic (m : Member) : Bool := m.modifiers.contains Modifiers.static

/-- A host reports the members of one type at a time. Nothing is known of the base types: they may
loop, or lead past the root. -/
structure Host where
  declared : TypeId → MemberKind → List Member
  base : TypeId → Option TypeId
  root : TypeId

inductive HostCall
  | declared (t : TypeId) (kind : MemberKind)
  | base (t : TypeId)
  deriving DecidableEq, Repr

/-- A member matches if the bits under the mask are those of the value. -/
structure MemberQuery where
  mask : Flags
  value : Flags
  declaredOnly : Bool
  deriving DecidableEq, Repr

namespace MemberQuery

def badFlags (residual : Flags) : Fault :=
  .platformNotSupported ("bad binding flags " ++ residual.hexText)

/-- Flags without any visibility or any lifetime match nothing, whatever else they hold. Only the
lifetime is filtered on. -/
def compile (flags : Flags) : Except Fault (Option MemberQuery) :=
  if !flags.intersects BindingFlags.visibility || !flags.intersects BindingFlags.lifetime then
    .ok none
  else
    let residual := flags.without BindingFlags.enumeration
    if residual ≠ 0 then .error (badFlags residual)
    else
      let declaredOnly := flags.contains BindingFlags.declaredOnly
      match flags.contains BindingFlags.instanced, flags.contains BindingFlags.static with
      | true, false => .ok (some ⟨Modifiers.static, 0, declaredOnly⟩)
      | false, true => .ok (some ⟨Modifiers.static, Modifiers.static, declaredOnly⟩)
      | _, _ => .ok (some ⟨0, 0, declaredOnly⟩)

def accepts (q : MemberQuery) (modifiers : Flags) : Bool := modifiers &&& q.mask == q.value

end MemberQuery

end ManagedTypes
