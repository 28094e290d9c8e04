import ManagedTypes.Box

/-! Volatile access to whole words. An accessor says at which byte offset of a payload's memory a
word lies; whatever it says, only an aligned word inside the payload is ever touched. -/
namespace ManagedTypes

inductive WordWidth
  | w32 | w64
  deriving DecidableEq, Repr

namespace WordWidth

def bytes : WordWidth → Nat
  | w32 => 4
  | w64 => 8

/-- The bits of a word that an access of this width moves. -/
def truncate : WordWidth → Word → Word
  | w32, w => (w.setWidth 32).setWidth 64
  | w64, w => w

theorem bytes_pos (w : WordWidth) : 0 < w.bytes := by cases w <;> decide

end WordWidth

/-- Payloads narrower than 32 bits have no word of their own. -/
def PayloadType.wordWidth? (t : PayloadType) : Option WordWidth :=
  match t.width with
  | 32 => some .w32
  | 64 => some .w64
  | _ => none

/-- A call to an accessor. -/
inductive SlotCall
  | fieldOffset (type : PayloadType) (width : WordWidth)
  | elementOffset (width : WordWidth) (index : Nat)
  | read (offset : Word) (width : WordWidth)
  | write (offset : Word) (width : WordWidth) (bits : Word)
  deriving DecidableEq

/-- How often each method of an accessor has been called. -/
structure SlotCounts where
  fieldOffset : Nat
  elementOffset : Nat
  read : Nat
  write : Nat
  deriving DecidableEq, Repr

namespace SlotCounts

def zero : SlotCounts := ⟨0, 0, 0, 0⟩

def add (n : SlotCounts) : SlotCall → SlotCounts
  | .fieldOffset .. => { n with fieldOffset := n.fieldOffset + 1 }
  | .elementOffset .. => { n with elementOffset := n.elementOffset + 1 }
  | .read .. => { n with read := n.read + 1 }
  | .write .. => { n with write := n.write + 1 }

def ofCalls (calls : List SlotCall) : SlotCounts := calls.foldl add zero

end SlotCounts

/-- Offsets are any 64-bit numbers, and may depend on the calls made before. -/
structure SlotAccessor where
  fieldOffset : List SlotCall → PayloadType → WordWidth → Word
  elementOffset : List SlotCall → WordWidth → Nat → Word

namespace SlotAccessor

/-- A payload of its own lies at offset 0, elements one after the other. -/
def native : SlotAccessor where
  fieldOffset _ _ _ := 0
  elementOffset _ width index := BitVec.ofNat 64 (index * width.bytes)

/-- The native offsets with a constant added to each, modulo `2 ^ 64`. -/
def displaced (field element : Word) : SlotAccessor where
  fieldOffset calls t width := native.fieldOffset calls t width + field
  elementOffset calls width index := native.elementOffset calls width index + element

end SlotAccessor

/-- The sum of a word and a number, unless it wraps around. -/
def checkedAdd (a : Word) (n : Nat) : Option Word :=
  if a.toNat + n ≤ 0xFFFFFFFFFFFFFFFF then some (a + BitVec.ofNat 64 n) else none

/-- The cell of an aligned word at a byte offset that ends within `extent` bytes. -/
def slotIndex? (offset : Word) (width : WordWidth) (extent : Nat) : Option Nat :=
  match checkedAdd offset width.bytes with
  | none => none
  | some last =>
    if last.toNat ≤ extent ∧ offset.toNat % width.bytes = 0 then some (offset.toNat / width.bytes)
    else none

/-- The accessor in force, if a use or an installation has fixed one, with the offsets that it gave
for payloads of their own and the calls made to it. -/
structure SlotState where
  accessor : Option SlotAccessor
  installed : Bool
  offsets : PayloadType → Option Word
  calls : List SlotCall

namespace SlotState

def initial : SlotState := ⟨none, false, fun _ => none, []⟩

def install (s : SlotState) (a : SlotAccessor) : SlotState × Bool :=
  match s.accessor with
  | some _ => (s, false)
  | none => ({ s with accessor := some a, installed := true }, true)

/-- The first use fixes the native accessor if none was installed. -/
def inForce (s : SlotState) : SlotAccessor := s.accessor.getD .native

/-- The state after a call to the accessor in force. -/
def called (s : SlotState) (c : SlotCall) : SlotState :=
  { s with accessor := some s.inForce, calls := s.calls ++ [c] }

/-- Asks for the offset of an element. -/
def askElement (s : SlotState) (width : WordWidth) (index : Nat) : SlotState × Word :=
  (s.called (.elementOffset width index), s.inForce.elementOffset s.calls width index)

/-- The offset of payloads of their own is asked for once per type. -/
def askField (s : SlotState) (t : PayloadType) (width : WordWidth) : SlotState × Word :=
  match s.offsets t with
  | some offset => ({ s with accessor := some s.inForce }, offset)
  | none =>
    let offset := s.inForce.fieldOffset s.calls t width
    ({ s.called (.fieldOffset t width) with
        offsets := fun u => if u = t then some offset else s.offsets u },
      offset)

def ask (s : SlotState) (b : Box) (width : WordWidth) : SlotState × Word :=
  if b.view then s.askElement width b.cell.index else s.askField b.type width

/-- What an installed accessor has been called for. -/
def counts (s : SlotState) : SlotCounts :=
  if s.installed then .ofCalls s.calls else .zero

end SlotState

namespace Box

/-- The bytes of memory that the box's payload lies in: its own cell, or the whole array. -/
def extent (b : Box) (m : Memory) (width : WordWidth) : Nat :=
  (m.blockAt b.cell.block).length * width.bytes

def slotFault (b : Box) (offset : Word) (width : WordWidth) (extent : Nat) : Fault :=
  .platformNotSupported
    ("slot offset " ++ toString offset.toNat ++ " does not address a " ++ toString width.bytes
      ++ "-byte word of a " ++ b.type.name ++ " payload of " ++ toString extent ++ " bytes")

/-- The offset that the accessor gives, and the cell that it leads to. -/
def slot (b : Box) (m : Memory) (s : SlotState) (width : WordWidth) :
    SlotState × Word × Except Fault Cell :=
  let (s, offset) := s.ask b width
  match slotIndex? offset width (b.extent m width) with
  | some index => (s, offset, .ok ⟨b.cell.block, index⟩)
  | none => (s, offset, .error (b.slotFault offset width (b.extent m width)))

def volatileGet (b : Box) (m : Memory) (s : SlotState) : SlotState × Except Fault Payload :=
  match b.type.wordWidth? with
  | none => (s, .error (.unsupported "volatile read" b.type.name))
  | some width => match b.slot m s width with
    | (s, _, .error fault) => (s, .error fault)
    | (s, offset, .ok cell) =>
      (s.called (.read offset width), .ok (.ofWord b.type (width.truncate (m.read cell))))

def volatileSet (b : Box) (m : Memory) (s : SlotState) (p : Payload) :
    SlotState × Except Fault Memory :=
  match b.type.wordWidth? with
  | none => (s, .error (.unsupported "volatile write" b.type.name))
  | some width => match b.slot m s width with
    | (s, _, .error fault) => (s, .error fault)
    | (s, offset, .ok cell) =>
      (s.called (.write offset width p.toWord), .ok (m.write cell (width.truncate p.toWord)))

end Box

/-- One access in a trial of the native accessor: to the word of its own or to an element, read
after an optional write. -/
structure SlotTrial where
  index : Option Nat
  put : Option Word
  deriving DecidableEq

namespace SlotTrial

/-- The offset and the word read, over a memory whose block 0 is the word of its own and whose
block 1 is the array. No such element, no access. -/
def run (width : WordWidth) (m : Memory) (t : SlotTrial) : Option (Memory × Nat × Word) :=
  let (block, offset) := match t.index with
    | some index => (1, SlotAccessor.native.elementOffset [] width index)
    | none => (0, SlotAccessor.native.fieldOffset [] .uint64 width)
  (slotIndex? offset width ((m.blockAt block).length * width.bytes)).map fun index =>
    let cell : Cell := ⟨block, index⟩
    let m := match t.put with
      | some w => m.write cell (width.truncate w)
      | none => m
    (m, offset.toNat, width.truncate (m.read cell))

def runAll (width : WordWidth) (m : Memory) : List SlotTrial → Option (List (Nat × Word))
  | [] => some []
  | t :: rest => do
    let (m, shown) ← t.run width m
    return shown :: (← runAll width m rest)

/-- Trials over zeroed words. -/
def onZeros (width : WordWidth) (length : Nat) (trials : List SlotTrial) :
    Option (List (Nat × Word)) :=
  runAll width ((Memory.empty.allocate [0]).allocate (List.replicate length 0)) trials

end SlotTrial

end ManagedTypes
