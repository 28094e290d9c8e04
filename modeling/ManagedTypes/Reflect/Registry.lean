import ManagedTypes.Reflect.Walk

/-! Hosts that hold their types: a registry in which types are defined one after the other, each on
a base that is already there, and a plain table of types. -/
namespace ManagedTypes

structure HostType where
  id : TypeId
  name : String
  parent : Option TypeId
  members : List Member
  deriving DecidableEq, Repr

namespace HostType

def membersOf (t : HostType) (kind : MemberKind) : List Member := t.members.filter (·.kind == kind)

/-- Constructors, then methods, then fields. -/
def grouped (t : HostType) : List Member := MemberKind.all.flatMap t.membersOf

/-- The type with one more member, after the ones it has. -/
def declare (t : HostType) (m : Member) : HostType := { t with members := t.members ++ [m] }

end HostType

def constructorName : String := "<init>"
def rootName : String := "Object"

/-- What the root type has from the start. The fields hold the host's own bookkeeping. -/
def rootMembers : List Member :=
  let native := Modifiers.native
  let hidden := Modifiers.isPrivate ||| Modifiers.transient ||| Modifiers.synthetic
  [⟨constructorName, .constructor, 0, Modifiers.isPublic⟩,
    ⟨"equals", .method, 0, Modifiers.isPublic⟩,
    ⟨"hashCode", .method, 0, Modifiers.isPublic ||| native⟩,
    ⟨"toString", .method, 0, Modifiers.isPublic⟩,
    ⟨"getClass", .method, 0, Modifiers.isPublic ||| Modifiers.final ||| native⟩,
    ⟨"clone", .method, 0, Modifiers.isProtected ||| native⟩,
    ⟨"finalize", .method, 0, Modifiers.isProtected⟩,
    ⟨"shadow$_klass_", .field, 0, hidden⟩,
    ⟨"shadow$_monitor_", .field, 0, hidden⟩]

/-- Types are numbered in the order of their definition. The index leads from names to numbers. -/
structure Registry where
  types : List HostType
  index : List (String × TypeId)
  deriving DecidableEq, Repr

inductive RegistryOperation
  | defineType (name : String) (base : Option TypeId)
  | addMember (type : TypeId) (name : String) (kind : MemberKind) (modifiers : Flags)
  deriving DecidableEq, Repr

namespace RegistryOperation

def addConstructor (type : TypeId) (modifiers : Flags) : RegistryOperation :=
  addMember type constructorName .constructor modifiers

def addMethod (type : TypeId) (name : String) (modifiers : Flags) : RegistryOperation :=
  addMember type name .method modifiers

def addField (type : TypeId) (name : String) (modifiers : Flags) : RegistryOperation :=
  addMember type name .field modifiers

end RegistryOperation

namespace Registry

def root : TypeId := 0

def initial : Registry := ⟨[⟨root, rootName, none, rootMembers⟩], [(rootName, root)]⟩

def nextTypeId (r : Registry) : TypeId := r.types.length

def getType? (r : Registry) (t : TypeId) : Option HostType := r.types[t]?

def getTypeByName? (r : Registry) (name : String) : Option HostType :=
  (r.index.lookup name).bind r.getType?

/-- A new type without members, under the next number. The index shows the latest type of a name. -/
def insert (r : Registry) (name : String) (parent : Option TypeId) : Registry × TypeId :=
  (⟨r.types ++ [⟨r.nextTypeId, name, parent, []⟩], (name, r.nextTypeId) :: r.index⟩, r.nextTypeId)

/-- Names are looked at before bases. Without a base the root is meant. -/
def defineType (r : Registry) (name : String) (base : Option TypeId) :
    Except Fault (Registry × TypeId) :=
  let parent := base.getD root
  if (r.index.lookup name).isSome then .error (.argument ("type " ++ name ++ " already defined"))
  else if (r.getType? parent).isNone then
    .error (.argument ("unknown base type " ++ typeIdText parent))
  else .ok (r.insert name (some parent))

def addMember (r : Registry) (t : TypeId) (name : String) (kind : MemberKind) (modifiers : Flags) :
    Except Fault Registry :=
  if (r.getType? t).isNone then .error (.argument ("unknown type " ++ typeIdText t))
  else .ok { r with types := r.types.modify t (·.declare ⟨name, kind, t, modifiers⟩) }

/-- The registry afterwards, and the number of a type that was defined. -/
def apply (r : Registry) : RegistryOperation → Registry × Except Fault (Option TypeId)
  | .defineType name base => match r.defineType name base with
    | .ok (r, t) => (r, .ok (some t))
    | .error f => (r, .error f)
  | .addMember t name kind modifiers => match r.addMember t name kind modifiers with
    | .ok r => (r, .ok none)
    | .error f => (r, .error f)

def applyAll (r : Registry) (os : List RegistryOperation) : Registry :=
  os.foldl (fun r o => (r.apply o).1) r

def declaredMembers (r : Registry) (t : TypeId) (kind : MemberKind) : List Member :=
  match r.getType? t with
  | some h => h.membersOf kind
  | none => []

def baseType (r : Registry) (t : TypeId) : Option TypeId := (r.getType? t).bind (·.parent)

/-- A type and its base types, at most `fuel` of them. -/
def chain (r : Registry) : Nat → TypeId → List TypeId
  | 0, _ => []
  | fuel + 1, t => match r.getType? t with
    | none => []
    | some h => h.id :: match h.parent with
      | some p => r.chain fuel p
      | none => []

/-- Bases come before the types defined on them, so no chain is longer than the registry. -/
def walkBound (r : Registry) : Nat := r.types.length + 1

def hierarchy (r : Registry) (t : TypeId) : List TypeId := r.chain r.walkBound t

def host (r : Registry) : Host := ⟨r.declaredMembers, r.baseType, root⟩

end Registry

/-- Types with any bases, the first of a number counting. Types that are not in the table have no
members and no base. -/
structure HostTable where
  root : TypeId
  types : List HostType
  deriving DecidableEq, Repr

namespace HostTable

def getType? (h : HostTable) (t : TypeId) : Option HostType := h.types.find? (·.id == t)

def host (h : HostTable) : Host where
  declared t kind := match h.getType? t with
    | some found => found.membersOf kind
    | none => []
  base t := (h.getType? t).bind (·.parent)
  root := h.root

/-- A walk that has not ended after this many types offers its visitor nothing new any more, or a
visitor that stops after `count` members has been offered them. -/
def walkBound (h : HostTable) (count : Nat) : Nat := (h.types.length + 1) * (count + 2)

end HostTable

end ManagedTypes
