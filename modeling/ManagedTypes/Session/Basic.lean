import ManagedTypes.Options.Document
import ManagedTypes.Payload.Access
import ManagedTypes.Payload.Convert
import ManagedTypes.Payload.Order
import ManagedTypes.Slots
import ManagedTypes.Text.Inspect
import ManagedTypes.Text.FormatterState

/-! Sessions: a process's boxes and arrays, numbered in the order of their creation, with its number
formatter and its slot accessor; and what can be asked of them. -/
namespace ManagedTypes

structure Session where
  memory : Memory
  arrays : List ArrayHandle
  boxes : List Box
  text : FormatterState
  slots : SlotState

namespace Session

def initial : Session := ⟨.empty, [], [], .initial, .initial⟩

def boxPayloads (s : Session) : List Payload := s.boxes.map (·.get s.memory)

def arrayPayloads (s : Session) : List (List Payload) := s.arrays.map (·.payloads s.memory)

def boxType? (s : Session) (box : Nat) : Option PayloadType := s.boxes[box]?.map (·.type)

def arrayType? (s : Session) (array : Nat) : Option PayloadType := s.arrays[array]?.map (·.type)

end Session

/-- Creations of arrays and boxes. Values have the type that is named with them. -/
inductive Creation
  | arrayNew (type : PayloadType) (length : Nat)
  | arrayFrom (type : PayloadType) (values : List Payload)
  | arrayClone (array : Nat)
  | box (value : Payload)
  | inArray (array index : Nat)
  | boxClone (box : Nat)

inductive ArrayOperation
  | length
  | get (index : Nat)
  | set (index : Nat) (value : Payload)
  | same (other : Nat)
  | inspect

/-- Operations that leave everything as it is. Where the other box is taken as an object its type may
differ; elsewhere it has to agree. `equals` is what the equality operator asks, too. -/
inductive BoxQuery
  | get
  | storage
  | equals (other : Nat)
  | equalsObject (other : Nat)
  | equalsValue (value : Payload)
  | compareTo (value : Payload)
  | compareToObject (other : Option Nat)
  | hash
  | inspect
  | typeCode
  | number
  | view (access : Access)
  | classify
  | bits (pattern : Word)
  | supports

inductive BoxUpdate
  | set (value : Payload)
  | clear
  | copyTo (other : Nat)
  | copyToObject (other : Nat)
  | setView (access : Access) (value : Payload)

/-- Operations that write text, perhaps with the process's formatter. -/
inductive BoxText
  | display
  | format (text : Option String) (provider : Option NumberSymbols)
  | convert (target : Conversion)

inductive Volatile
  | get
  | set (value : Payload)

inductive Installation
  | formatter (formatter : LiveFormatter) (recording : Bool)
  | options (document : String)
  | slots (accessor : SlotAccessor)

inductive Operation
  | create (c : Creation)
  | array (array : Nat) (o : ArrayOperation)
  | query (box : Nat) (q : BoxQuery)
  | update (box : Nat) (u : BoxUpdate)
  | text (box : Nat) (t : BoxText)
  | volatile (box : Nat) (v : Volatile)
  | install (i : Installation)
  | formatterLog
  | slotCalls

/-- Whether the operation may write to memory. -/
def Operation.writes : Operation → Bool
  | array _ (.set ..) | update .. | volatile _ (.set _) => true
  | _ => false

inductive Answer
  | unit
  | created (number : Nat)
  | truth (b : Bool)
  | length (count : Nat)
  | payload (p : Payload)
  | payload? (p : Option Payload)
  | order (o : Ordering)
  | hash (code : HashCode) (fed : List HashCode)
  | storage (view : Option (Nat × Nat))
  | text (s : String)
  | typeCode (c : TypeCode)
  | number (n : Number)
  | converted (c : Converted)
  | classes (c : Payload.FloatClass)
  | bits (pattern : Word) (payload : Payload)
  | support (t : PayloadType)
  | formatterLog (calls : List FormatterCall)
  | slotCalls (counts : SlotCounts)

/-- An ill-formed operation names a box or array that does not exist, mixes types, or asks for an
array that no process can hold. -/
inductive Reply
  | answer (a : Answer)
  | fault (f : Fault)
  | optionsFault (f : OptionsFault)
  | illFormed

def Reply.ofExcept {α : Type} (answer : α → Answer) : Except Fault α → Reply
  | .ok a => .answer (answer a)
  | .error f => .fault f

end ManagedTypes
