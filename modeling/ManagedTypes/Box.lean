import ManagedTypes.Fault
import ManagedTypes.Memory

/-! Boxes and array handles: typed references to cells and blocks of memory. -/
namespace ManagedTypes

/-- Handles of one block are handles of one array. -/
structure ArrayHandle where
  type : PayloadType
  block : Nat
  deriving DecidableEq

/-- A view aliases an element of an array; any other box owns its cell. -/
structure Box where
  type : PayloadType
  cell : Cell
  view : Bool
  deriving DecidableEq

namespace ArrayHandle

def length (a : ArrayHandle) (m : Memory) : Nat := (m.blockAt a.block).length

def element (a : ArrayHandle) (index : Nat) : Cell := ⟨a.block, index⟩

def payloads (a : ArrayHandle) (m : Memory) : List Payload :=
  (m.blockAt a.block).map (Payload.ofWord a.type)

def get? (a : ArrayHandle) (m : Memory) (index : Nat) : Option Payload :=
  (m.blockAt a.block)[index]?.map (Payload.ofWord a.type)

def set (a : ArrayHandle) (m : Memory) (index : Nat) (p : Payload) : Except Fault Memory :=
  if index < a.length m then .ok (m.write (a.element index) p.toWord)
  else .error (.indexOutOfRange index (a.length m))

end ArrayHandle

namespace Box

/-- A box that owns the only cell of a new block. -/
def inline (m : Memory) (p : Payload) : Memory × Box :=
  (m.allocate [p.toWord], ⟨p.type, ⟨m.next, 0⟩, false⟩)

def inArray (m : Memory) (a : ArrayHandle) (index : Nat) : Except Fault Box :=
  if index < a.length m then .ok ⟨a.type, a.element index, true⟩
  else .error (.indexOutOfRange index (a.length m))

def get (b : Box) (m : Memory) : Payload := .ofWord b.type (m.read b.cell)

def set (b : Box) (m : Memory) (p : Payload) : Memory := m.write b.cell p.toWord

/-- The index that a view aliases. -/
def index? (b : Box) : Option Nat := if b.view then some b.cell.index else none

@[simp] theorem get_type (b : Box) (m : Memory) : (b.get m).type = b.type := rfl

theorem get_set {b : Box} {m : Memory} (h : m.Has b.cell) {p : Payload} (hp : p.type = b.type) :
    b.get (b.set m p) = p := by
  rw [get, set, Memory.read_write_self h, ← hp, Payload.ofWord_toWord]

end Box

end ManagedTypes
