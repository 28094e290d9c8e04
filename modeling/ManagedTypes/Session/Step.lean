import ManagedTypes.Session.Basic

/-! What each operation does to a session and what it answers. -/
namespace ManagedTypes.Session

def addArray (s : Session) (a : ArrayHandle) : Session × Reply :=
  ({ s with arrays := s.arrays ++ [a] }, .answer (.created s.arrays.length))

def addBox (s : Session) (b : Box) : Session × Reply :=
  ({ s with boxes := s.boxes ++ [b] }, .answer (.created s.boxes.length))

/-- The most bytes that one allocation can have. -/
def maxBytes : Nat := 0x7FFFFFFFFFFFFFFF

/-- A new array of given cells. -/
def allocateArray (s : Session) (t : PayloadType) (cells : List Word) : Session × Reply :=
  if cells.length * t.bytes ≤ maxBytes then
    addArray { s with memory := s.memory.allocate cells } ⟨t, s.memory.next⟩
  else (s, .illFormed)

/-- A new box with a cell of its own. -/
def allocateBox (s : Session) (p : Payload) : Session × Reply :=
  let (memory, b) := Box.inline s.memory p
  addBox { s with memory } b

def create (s : Session) : Creation → Session × Reply
  | .arrayNew t length => s.allocateArray t (List.replicate length 0)
  | .arrayFrom t values =>
    if values.all (·.type == t) then s.allocateArray t (values.map Payload.toWord)
    else (s, .illFormed)
  | .arrayClone array => match s.arrays[array]? with
    | some a => s.addArray a
    | none => (s, .illFormed)
  | .box value => s.allocateBox value
  | .inArray array index => match s.arrays[array]? with
    | none => (s, .illFormed)
    | some a => match Box.inArray s.memory a index with
      | .ok b => s.addBox b
      | .error f => (s, .fault f)
  | .boxClone box => match s.boxes[box]? with
    | some b => s.allocateBox (b.get s.memory)
    | none => (s, .illFormed)

def onArray (s : Session) (a : ArrayHandle) : ArrayOperation → Session × Reply
  | .length => (s, .answer (.length (a.length s.memory)))
  | .get index => (s, .answer (.payload? (a.get? s.memory index)))
  | .set index value =>
    if value.type ≠ a.type then (s, .illFormed)
    else match a.set s.memory index value with
      | .ok memory => ({ s with memory }, .answer .unit)
      | .error f => (s, .fault f)
  | .same other => match s.arrays[other]? with
    | some b => (s, .answer (.truth (decide (a = b))))
    | none => (s, .illFormed)
  | .inspect => (s, .answer (.text (Inspect.array a.type (a.payloads s.memory))))

/-- The array that a view aliases, as the first handle of it, and the index there. -/
def viewOf (s : Session) (b : Box) : Option (Nat × Nat) :=
  b.index?.bind fun index =>
    (s.arrays.findIdx? (·.block == b.cell.block)).map fun array => (array, index)

/-- Payloads of boxes of one type only. -/
def withSameType (b c : Box) (r : Reply) : Reply := if b.type = c.type then r else .illFormed

def query (s : Session) (b : Box) (q : BoxQuery) : Reply :=
  let p := b.get s.memory
  match q with
  | .get => .answer (.payload p)
  | .storage => .answer (.storage (s.viewOf b))
  | .equals other => match s.boxes[other]? with
    | some c => withSameType b c (.answer (.truth (p.equal (c.get s.memory))))
    | none => .illFormed
  | .equalsObject other => match s.boxes[other]? with
    | some c => .answer (.truth (p.equal (c.get s.memory)))
    | none => .illFormed
  | .equalsValue value =>
    if value.type = b.type then .answer (.truth (p.equal value)) else .illFormed
  | .compareTo value =>
    if value.type = b.type then .answer (.order (p.order value)) else .illFormed
  | .compareToObject none => .answer (.order .gt)
  | .compareToObject (some other) => match s.boxes[other]? with
    | some c =>
      if c.type = b.type then .answer (.order (p.order (c.get s.memory)))
      else .fault (.argument ("Object must be of type " ++ b.type.name))
    | none => .illFormed
  | .hash => .answer (.hash p.hashCode p.hashed)
  | .inspect => .answer (.text (Inspect.box p b.index?))
  | .typeCode => .answer (.typeCode b.type.code)
  | .number => .answer (.number p.number)
  | .view access => .ofExcept .payload (p.view access)
  | .classify => match p.classify? with
    | some c => .answer (.classes c)
    | none => .illFormed
  | .bits pattern => .answer (.bits p.toWord (.ofWord b.type pattern))
  | .supports => .answer (.support b.type)

/-- Writes a payload to a box. -/
def store (s : Session) (b : Box) (p : Payload) : Session × Reply :=
  ({ s with memory := b.set s.memory p }, .answer .unit)

def update (s : Session) (b : Box) : BoxUpdate → Session × Reply
  | .set value => if value.type = b.type then s.store b value else (s, .illFormed)
  | .clear => s.store b (.zero b.type)
  | .copyTo other => match s.boxes[other]? with
    | some c => if c.type = b.type then s.store c (b.get s.memory) else (s, .illFormed)
    | none => (s, .illFormed)
  | .copyToObject other => match s.boxes[other]? with
    | some c =>
      if c.type = b.type then s.store c (b.get s.memory)
      else (s, .fault (.noCast b.type.name c.type.name))
    | none => (s, .illFormed)
  | .setView access value =>
    if !access.writable || value.type != access.type then (s, .illFormed)
    else match (b.get s.memory).throughView access value with
      | .ok p => s.store b p
      | .error f => (s, .fault f)

def write (s : Session) (b : Box) (t : BoxText) : Session × Reply :=
  let p := b.get s.memory
  match t with
  | .display =>
    let (text, shown) := p.display s.text
    ({ s with text }, .answer (.text shown))
  | .format format provider =>
    let (text, shown) := p.formatted format provider s.text
    ({ s with text }, .ofExcept .text shown)
  | .convert target =>
    let (text, shown) := p.display s.text
    let s := if target.readsText then { s with text } else s
    (s, .ofExcept .converted (p.convert shown target))

def volatile (s : Session) (b : Box) : Volatile → Session × Reply
  | .get =>
    let (slots, r) := b.volatileGet s.memory s.slots
    ({ s with slots }, .ofExcept .payload r)
  | .set value =>
    if value.type ≠ b.type then (s, .illFormed)
    else match b.volatileSet s.memory s.slots value with
      | (slots, .ok memory) => ({ s with slots, memory }, .answer .unit)
      | (slots, .error f) => ({ s with slots }, .fault f)

def install (s : Session) : Installation → Session × Reply
  | .formatter f recording =>
    let (text, done) := s.text.install f recording
    ({ s with text }, .answer (.truth done))
  | .options document => match Options.read document with
    | .error f => (s, .optionsFault f)
    | .ok o =>
      let (text, done) := s.text.install (NumberFormatter.standard o.format) false
      ({ s with text }, if done then .answer .unit else .optionsFault .formatterInstalled)
  | .slots a =>
    let (slots, done) := s.slots.install a
    ({ s with slots }, .answer (.truth done))

def onBox (s : Session) (box : Nat) (f : Box → Session × Reply) : Session × Reply :=
  match s.boxes[box]? with
  | some b => f b
  | none => (s, .illFormed)

def step (s : Session) : Operation → Session × Reply
  | .create c => s.create c
  | .array array o => match s.arrays[array]? with
    | some a => s.onArray a o
    | none => (s, .illFormed)
  | .query box q => s.onBox box fun b => (s, s.query b q)
  | .update box u => s.onBox box fun b => s.update b u
  | .text box t => s.onBox box fun b => s.write b t
  | .volatile box v => s.onBox box fun b => s.volatile b v
  | .install i => s.install i
  | .formatterLog =>
    let (text, calls) := s.text.readLog
    ({ s with text }, .answer (.formatterLog calls))
  | .slotCalls => (s, .answer (.slotCalls s.slots.counts))

def run (s : Session) : List Operation → Session × List Reply
  | [] => (s, [])
  | o :: rest =>
    let (s, r) := s.step o
    let (s, rs) := s.run rest
    (s, r :: rs)

end ManagedTypes.Session
