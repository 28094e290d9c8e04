import ManagedTypes.Proofs.SessionTrace
import ManagedTypes.Proofs.SlotAccess

/-! What an operation does to memory, arrays and boxes, and what it then answers. The few ways are told apart
once. What is written, if anything, is of the place that the operation is aimed at. -/
namespace ManagedTypes

/-- A box or an array, by its number. -/
inductive Place
  | box (number : ℕ)
  | array (number : ℕ)
  deriving DecidableEq

/-- The box that an update is aimed at: a copy goes to the other box. -/
def BoxUpdate.destination (box : ℕ) : BoxUpdate → ℕ
  | copyTo other | copyToObject other => other
  | set _ | clear | setView .. => box

/-- The place that the operation is aimed at, if it may write at all. -/
def Operation.destination? : Operation → Option Place
  | array n (.set ..) => some (.array n)
  | update n u => some (.box (u.destination n))
  | volatile n (.set _) => some (.box n)
  | _ => none

/-- Creations and writes. They are answered only with a changed store. -/
def Operation.stores : Operation → Bool
  | create _ => true
  | o => o.writes

theorem Operation.stores_of_writes {o : Operation} (h : o.writes = true) : o.stores = true := by
  cases o with
  | create => rfl
  | _ => exact h

/-- The word has nothing above the payloads of the type. -/
def PayloadType.Fits (t : PayloadType) (w : Word) : Prop := w.toNat < 2 ^ t.width

namespace Payload

theorem fits_toWord (p : Payload) : p.type.Fits p.toWord := by
  have hlt : p.bits.toNat < 2 ^ p.type.width := p.bits.isLt
  rw [PayloadType.Fits, toWord, BitVec.toNat_setWidth]
  exact (Nat.mod_le _ _).trans_lt hlt

theorem fits_toWord_of_type {p : Payload} {t : PayloadType} (h : p.type = t) : t.Fits p.toWord :=
  h ▸ p.fits_toWord

end Payload

namespace Session

/-- The block that holds the payloads of a place. -/
def blockOf? (s : Session) : Place → Option ℕ
  | .box n => s.boxes[n]?.map (·.cell.block)
  | .array n => s.arrays[n]?.map (·.block)

/-- The block's words are payloads of the type: it is the block of a box or of an array of that type. -/
def Holds (s : Session) (t : PayloadType) (block : ℕ) : Prop :=
  (∃ b ∈ s.boxes, b.type = t ∧ b.cell.block = block) ∨ ∃ a ∈ s.arrays, a.type = t ∧ a.block = block

theorem holds_box {s : Session} {b : Box} (h : b ∈ s.boxes) : s.Holds b.type b.cell.block :=
  .inl ⟨b, h, rfl, rfl⟩

theorem holds_array {s : Session} {a : ArrayHandle} (h : a ∈ s.arrays) : s.Holds a.type a.block :=
  .inr ⟨a, h, rfl, rfl⟩

/-- Something of the type refers to the cell: a box, or an element of an array. -/
def Refers (s : Session) (t : PayloadType) (cell : Cell) : Prop :=
  (∃ b ∈ s.boxes, b.type = t ∧ b.cell = cell) ∨
    ∃ a ∈ s.arrays, ∃ index, index < a.length s.memory ∧ a.type = t ∧ a.element index = cell

theorem Refers.holds {s : Session} {t : PayloadType} {cell : Cell} (h : s.Refers t cell) :
    s.Holds t cell.block := by
  rcases h with ⟨b, hb, rfl, rfl⟩ | ⟨a, ha, index, -, rfl, rfl⟩
  · exact holds_box hb
  · exact holds_array ha

/-- The cell that an operation is to write, and the payload to be written there. -/
def target? (s : Session) : Operation → Option (Cell × Payload)
  | .array array (.set index value) => s.arrays[array]?.map fun a => (a.element index, value)
  | .update box u => s.boxes[box]?.bind fun b => match u with
    | .set value => some (b.cell, value)
    | .clear => some (b.cell, .zero b.type)
    | .copyTo other => s.boxes[other]?.map fun c => (c.cell, b.get s.memory)
    | .copyToObject other => s.boxes[other]?.map fun c => (c.cell, b.get s.memory)
    | .setView _ value => some (b.cell, value.reinterpret b.type)
  | .volatile box (.set value) => s.boxes[box]?.map fun b => (b.cell, value)
  | _ => none

/-- Memory, arrays and boxes are as they were. -/
structure SameStore (s t : Session) : Prop where
  memory : t.memory = s.memory
  arrays : t.arrays = s.arrays
  boxes : t.boxes = s.boxes

section Creation
variable {s : Session} {n : ℕ}

theorem step_arrayClone {a : ArrayHandle} (h : s.arrays[n]? = some a) :
    s.step (.create (.arrayClone n)) = s.addArray a := by
  simp only [step, create, h]

theorem step_inArray {a : ArrayHandle} (h : s.arrays[n]? = some a) (index : ℕ) :
    s.step (.create (.inArray n index)) =
      if index < a.length s.memory then s.addBox ⟨a.type, a.element index, true⟩
      else (s, .fault (.indexOutOfRange index (a.length s.memory))) := by
  by_cases hlt : index < a.length s.memory
  · simp only [step, create, h, Box.inArray, if_pos hlt]
  · simp only [step, create, h, Box.inArray, if_neg hlt]

/-- A clone is a new box of what the source holds. -/
theorem step_boxClone {b : Box} (h : s.boxes[n]? = some b) :
    s.step (.create (.boxClone n)) = s.allocateBox (b.get s.memory) := by
  simp only [step, create, h]

end Creation

end Session

namespace Event

/-- What a write that is aimed at a cell comes to: the cell itself or, by volatile access, the cell of the
same block that the accessor leads to. -/
inductive Reaches (e : Event) : Cell → Cell → Prop
  | direct {aim : Cell} : e.Reaches aim aim
  | led {box index : ℕ} {v : Volatile} {b : Box} {w : WordWidth}
      (operation : e.operation = .volatile box v) (found : e.before.boxes[box]? = some b)
      (width : b.type.wordWidth? = some w)
      (slot : slotIndex? (e.before.slots.ask b w).2 w (b.extent e.before.memory w) = some index) :
    e.Reaches b.cell ⟨b.cell.block, index⟩

theorem Reaches.block_eq {e : Event} {aim cell : Cell} (h : e.Reaches aim cell) :
    aim.block = cell.block := by
  cases h with
  | direct | led => rfl

/-- What an event does to the store: nothing, or it writes one cell of the place that it is aimed at, or it
creates an array or a box. -/
inductive StoreEffect (e : Event) : Prop
  | stay (same : e.before.SameStore e.after)
      (unanswered : e.operation.stores = true → ∀ a, e.reply ≠ .answer a)
  | write (p : Place) (destination : e.operation.destination? = some p) (cell : Cell) (value : Payload)
      (block : e.before.blockOf? p = some cell.block) (reply : e.reply = .answer .unit)
      (memory : e.after.memory = e.before.memory.write cell value.toWord)
      (arrays : e.after.arrays = e.before.arrays) (boxes : e.after.boxes = e.before.boxes) (aim : Cell)
      (target : e.before.target? e.operation = some (aim, value))
      (refers : e.before.Refers value.type aim) (reaches : e.Reaches aim cell)
  | newArray (type : PayloadType) (cells : List Word)
      (fits : cells.length * type.bytes ≤ Session.maxBytes)
      (anew : ∀ i, e.operation ≠ .create (.arrayClone i))
      (reply : e.reply = .answer (.created e.before.arrays.length))
      (memory : e.after.memory = e.before.memory.allocate cells)
      (arrays : e.after.arrays = e.before.arrays ++ [⟨type, e.before.memory.next⟩])
      (boxes : e.after.boxes = e.before.boxes) (fit : ∀ word ∈ cells, type.Fits word)
  | shareArray (source : ℕ) (a : ArrayHandle) (operation : e.operation = .create (.arrayClone source))
      (handle : e.before.arrays[source]? = some a)
      (reply : e.reply = .answer (.created e.before.arrays.length))
      (memory : e.after.memory = e.before.memory) (arrays : e.after.arrays = e.before.arrays ++ [a])
      (boxes : e.after.boxes = e.before.boxes)
  | newBox (p : Payload) (anew : ∀ i, e.operation ≠ .create (.arrayClone i))
      (reply : e.reply = .answer (.created e.before.boxes.length))
      (memory : e.after.memory = e.before.memory.allocate [p.toWord])
      (arrays : e.after.arrays = e.before.arrays)
      (boxes : e.after.boxes = e.before.boxes ++ [⟨p.type, ⟨e.before.memory.next, 0⟩, false⟩])
  | newView (a : ArrayHandle) (mem : a ∈ e.before.arrays) (index : ℕ)
      (lt : index < a.length e.before.memory) (anew : ∀ i, e.operation ≠ .create (.arrayClone i))
      (reply : e.reply = .answer (.created e.before.boxes.length))
      (memory : e.after.memory = e.before.memory) (arrays : e.after.arrays = e.before.arrays)
      (boxes : e.after.boxes = e.before.boxes ++ [⟨a.type, a.element index, true⟩])

variable {s : Session} {o : Operation}

theorem storeEffect_stay {r : Reply} (hstep : s.step o = (s, r))
    (h : o.stores = false ∨ ∀ a, r ≠ .answer a) : StoreEffect ⟨s, o⟩ := by
  refine .stay ?_ fun hstores => ?_
  · rw [after, hstep]
    exact ⟨rfl, rfl, rfl⟩
  · rw [reply, hstep]
    exact h.resolve_left (ne_false_of_eq_true hstores)

theorem storeEffect_store {n : ℕ} {b : Box} (hbox : s.boxes[n]? = some b)
    (hdestination : o.destination? = some (.box n)) {value : Payload} (htype : value.type = b.type)
    (htarget : s.target? o = some (b.cell, value)) (hstep : s.step o = s.store b value) :
    StoreEffect ⟨s, o⟩ := by
  refine .write (.box n) hdestination b.cell value (by rw [Session.blockOf?, hbox]; rfl) ?_ ?_ ?_ ?_
    b.cell htarget (.inl ⟨b, List.mem_of_getElem? hbox, htype.symm, rfl⟩) .direct
  · rw [reply, hstep]; rfl
  all_goals rw [after, hstep]; rfl

theorem storeEffect_allocateArray {t : PayloadType} {cells : List Word}
    (hstep : s.step o = s.allocateArray t cells) (hanew : ∀ i, o ≠ .create (.arrayClone i))
    (hfit : ∀ word ∈ cells, t.Fits word) : StoreEffect ⟨s, o⟩ := by
  unfold Session.allocateArray at hstep
  split at hstep
  next hfits =>
    refine .newArray t cells hfits hanew ?_ ?_ ?_ ?_ hfit
    · rw [reply, hstep]; rfl
    all_goals rw [after, hstep]; rfl
  · exact storeEffect_stay hstep (.inr nofun)

theorem storeEffect_allocateBox {p : Payload} (hstep : s.step o = s.allocateBox p)
    (hanew : ∀ i, o ≠ .create (.arrayClone i)) : StoreEffect ⟨s, o⟩ := by
  refine .newBox p hanew ?_ ?_ ?_ ?_
  · rw [reply, hstep]; rfl
  all_goals rw [after, hstep]; rfl

theorem storeEffect_create (c : Creation) : StoreEffect ⟨s, .create c⟩ := by
  cases c with
  | arrayNew t length =>
    have hstep : s.step (.create (.arrayNew t length)) =
        s.allocateArray t (List.replicate length 0) := by simp only [Session.step, Session.create]
    refine storeEffect_allocateArray hstep nofun fun word hword => ?_
    rw [List.eq_of_mem_replicate hword]
    exact Nat.two_pow_pos _
  | arrayFrom t values =>
    have hstep : s.step (.create (.arrayFrom t values)) =
        if values.all (·.type == t) then s.allocateArray t (values.map Payload.toWord)
        else (s, .illFormed) := by simp only [Session.step, Session.create]
    split at hstep
    next htyped =>
      refine storeEffect_allocateArray hstep nofun fun word hword => ?_
      obtain ⟨p, hp, rfl⟩ := List.mem_map.mp hword
      exact Payload.fits_toWord_of_type (by simpa using List.all_eq_true.mp htyped p hp)
    · exact storeEffect_stay hstep (.inr nofun)
  | arrayClone array =>
    cases harray : s.arrays[array]? with
    | none =>
      exact storeEffect_stay (r := .illFormed) (by simp only [Session.step, Session.create, harray])
        (.inr nofun)
    | some a =>
      have hstep := Session.step_arrayClone harray
      refine .shareArray array a rfl harray ?_ ?_ ?_ ?_
      · rw [reply, hstep]; rfl
      all_goals rw [after, hstep]; rfl
  | box value =>
    have hstep : s.step (.create (.box value)) = s.allocateBox value := by
      simp only [Session.step, Session.create]
    exact storeEffect_allocateBox hstep nofun
  | inArray array index =>
    cases harray : s.arrays[array]? with
    | none =>
      exact storeEffect_stay (r := .illFormed) (by simp only [Session.step, Session.create, harray])
        (.inr nofun)
    | some a =>
      have hstep := Session.step_inArray harray index
      split at hstep
      next hlt =>
        refine .newView a (List.mem_of_getElem? harray) index hlt nofun ?_ ?_ ?_ ?_
        · rw [reply, hstep]; rfl
        all_goals rw [after, hstep]; rfl
      · exact storeEffect_stay hstep (.inr nofun)
  | boxClone box =>
    cases hbox : s.boxes[box]? with
    | none =>
      exact storeEffect_stay (r := .illFormed) (by simp only [Session.step, Session.create, hbox])
        (.inr nofun)
    | some b => exact storeEffect_allocateBox (Session.step_boxClone hbox) nofun

theorem storeEffect_array {array : ℕ} {a : ArrayHandle} (harray : s.arrays[array]? = some a)
    (o : ArrayOperation) : StoreEffect ⟨s, .array array o⟩ := by
  have hstep : s.step (.array array o) = s.onArray a o := by simp only [Session.step, harray]
  cases o with
  | length | get | inspect => exact storeEffect_stay hstep (.inl rfl)
  | same other =>
    simp only [Session.onArray] at hstep
    split at hstep
    · exact storeEffect_stay hstep (.inl rfl)
    · exact storeEffect_stay hstep (.inl rfl)
  | set index value =>
    simp only [Session.onArray, ArrayHandle.set] at hstep
    split at hstep
    · exact storeEffect_stay hstep (.inr nofun)
    next htype =>
      by_cases hlt : index < a.length s.memory
      · simp only [if_pos hlt] at hstep
        have ha := List.mem_of_getElem? harray
        exact .write (.array array) rfl (a.element index) value
          (by rw [Session.blockOf?, harray]; rfl) (congrArg Prod.snd hstep)
          (congrArg (·.1.memory) hstep) (congrArg (·.1.arrays) hstep) (congrArg (·.1.boxes) hstep)
          (a.element index) (by rw [Session.target?, harray]; rfl)
          (.inr ⟨a, ha, index, hlt, (not_ne_iff.mp htype).symm, rfl⟩) .direct
      · simp only [if_neg hlt] at hstep
        exact storeEffect_stay hstep (.inr nofun)

theorem storeEffect_onBox {box : ℕ} {f : Box → Session × Reply} (hstep : s.step o = s.onBox box f)
    (h : ∀ b, s.boxes[box]? = some b → s.step o = f b → StoreEffect ⟨s, o⟩) : StoreEffect ⟨s, o⟩ := by
  unfold Session.onBox at hstep
  split at hstep
  next b hbox => exact h b hbox hstep
  · exact storeEffect_stay hstep (.inr nofun)

section Box
variable {box : ℕ} {b : Box}

theorem storeEffect_update {u : BoxUpdate} (hbox : s.boxes[box]? = some b)
    (hstep : s.step (.update box u) = s.update b u) : StoreEffect ⟨s, .update box u⟩ := by
  cases u with
  | clear => exact storeEffect_store hbox rfl rfl (by rw [Session.target?, hbox]; rfl) hstep
  | set value =>
    simp only [Session.update] at hstep
    split at hstep
    next htype =>
      exact storeEffect_store hbox rfl htype (by rw [Session.target?, hbox]; rfl) hstep
    · exact storeEffect_stay hstep (.inr nofun)
  | copyTo other | copyToObject other =>
    simp only [Session.update] at hstep
    split at hstep
    next c hother =>
      split at hstep
      next htype =>
        exact storeEffect_store hother rfl htype.symm (by simp [Session.target?, hbox, hother]) hstep
      · exact storeEffect_stay hstep (.inr nofun)
    · exact storeEffect_stay hstep (.inr nofun)
  | setView access value =>
    simp only [Session.update, Payload.throughView_eq_ite] at hstep
    split at hstep
    · exact storeEffect_stay hstep (.inr nofun)
    · by_cases hsupports : (b.get s.memory).type.supports access = true
      · rw [if_pos hsupports] at hstep
        exact storeEffect_store hbox rfl rfl (by rw [Session.target?, hbox]; rfl) hstep
      · rw [if_neg hsupports] at hstep
        exact storeEffect_stay hstep (.inr nofun)

theorem storeEffect_volatile {v : Volatile} (hbox : s.boxes[box]? = some b)
    (hstep : s.step (.volatile box v) = s.volatile b v) : StoreEffect ⟨s, .volatile box v⟩ := by
  cases v with
  | get =>
    refine .stay ?_ nofun
    rw [after, hstep]
    exact ⟨rfl, rfl, rfl⟩
  | set value =>
    simp only [Session.volatile] at hstep
    split at hstep
    · exact storeEffect_stay hstep (.inr nofun)
    next htype =>
      have htype : value.type = b.type := not_ne_iff.mp htype
      cases hw : b.type.wordWidth? with
      | none =>
        rw [b.volatileSet_of_none _ _ hw] at hstep
        exact storeEffect_stay hstep (.inr nofun)
      | some w =>
        cases hslot : slotIndex? (s.slots.ask b w).2 w (b.extent s.memory w) with
        | none =>
          rw [Box.volatileSet_rejected hw hslot] at hstep
          refine .stay ?_ fun _ a => ?_
          · rw [after, hstep]
            exact ⟨rfl, rfl, rfl⟩
          · rw [reply, hstep]
            exact nofun
        | some index =>
          -- whichever cell the accessor leads to, it is one of the box's block
          have hword : value.type.wordWidth? = some w := by rw [htype, hw]
          rw [Box.volatileSet_accepted hw hslot, Payload.truncate_toWord hword] at hstep
          exact .write (.box box) rfl ⟨b.cell.block, index⟩ value
            (by rw [Session.blockOf?, hbox]; rfl) (congrArg Prod.snd hstep)
            (congrArg (·.1.memory) hstep) (congrArg (·.1.arrays) hstep) (congrArg (·.1.boxes) hstep)
            b.cell (by rw [Session.target?, hbox]; rfl)
            (.inl ⟨b, List.mem_of_getElem? hbox, htype.symm, rfl⟩) (.led rfl hbox hw hslot)

theorem storeEffect_text {t : BoxText} (hstep : s.step (.text box t) = s.write b t) :
    StoreEffect ⟨s, .text box t⟩ := by
  refine .stay ?_ nofun
  rw [after, hstep]
  cases t with
  | display | format => exact ⟨rfl, rfl, rfl⟩
  | convert target =>
    simp only [Session.write]
    split
    · exact ⟨rfl, rfl, rfl⟩
    · exact ⟨rfl, rfl, rfl⟩

end Box

theorem storeEffect_install (i : Installation) : StoreEffect ⟨s, .install i⟩ := by
  refine .stay ?_ nofun
  cases i with
  | formatter | slots => exact ⟨rfl, rfl, rfl⟩
  | options document =>
    simp only [after, Session.step, Session.install]
    split
    · exact ⟨rfl, rfl, rfl⟩
    · exact ⟨rfl, rfl, rfl⟩

/-- Every event does one of these. -/
theorem storeEffect (e : Event) : e.StoreEffect := by
  obtain ⟨s, o⟩ := e
  cases o with
  | create c => exact storeEffect_create c
  | array array o =>
    cases harray : s.arrays[array]? with
    | some a => exact storeEffect_array harray o
    | none => exact storeEffect_stay (r := .illFormed) (by simp only [Session.step, harray]) (.inr nofun)
  | query box q => exact storeEffect_onBox rfl fun b hbox hstep => storeEffect_stay hstep (.inl rfl)
  | update box u => exact storeEffect_onBox rfl fun b hbox hstep => storeEffect_update hbox hstep
  | text box t => exact storeEffect_onBox rfl fun b hbox hstep => storeEffect_text hstep
  | volatile box v => exact storeEffect_onBox rfl fun b hbox hstep => storeEffect_volatile hbox hstep
  | install i => exact storeEffect_install i
  | formatterLog => exact .stay ⟨rfl, rfl, rfl⟩ nofun
  | slotCalls => exact .stay ⟨rfl, rfl, rfl⟩ nofun

end Event

end ManagedTypes
