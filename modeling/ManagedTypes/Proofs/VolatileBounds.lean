import ManagedTypes.Proofs.CellUpdate

/-! However an accessor chooses its offsets, a volatile access either moves one whole cell of the payload
or moves nothing. -/
namespace ManagedTypes

/-- Whether a call moves a word, and does not only ask where one lies. -/
def SlotCall.moves : SlotCall → Bool
  | read .. | write .. => true
  | fieldOffset .. | elementOffset .. => false

namespace SlotState

/-- The offset that an access uses. For a payload of its own it is the first one given for the type. -/
def offset (s : SlotState) (b : Box) (w : WordWidth) : Word :=
  if b.view then s.inForce.elementOffset s.calls w b.cell.index
  else (s.offsets b.type).getD (s.inForce.fieldOffset s.calls b.type w)

/-- The words that have been moved. -/
def moves (s : SlotState) : List SlotCall := s.calls.filter SlotCall.moves

variable (s : SlotState) (b : Box) (w : WordWidth)

theorem ask_offset : (s.ask b w).2 = s.offset b w := by
  unfold ask offset
  split
  · rfl
  · unfold askField
    cases s.offsets b.type <;> rfl

theorem moves_called (c : SlotCall) :
    (s.called c).moves = if c.moves then s.moves ++ [c] else s.moves := by
  simp only [moves, called, List.filter_append, List.filter_cons, List.filter_nil]
  split <;> simp

/-- Asking for an offset moves nothing. -/
theorem moves_ask : (s.ask b w).1.moves = s.moves := by
  unfold ask
  split
  · exact s.moves_called _
  · unfold askField
    split
    · rfl
    · exact s.moves_called (.fieldOffset b.type w)

end SlotState

/-- Cutting a word to the width of the payload's type loses nothing of the payload. -/
theorem Payload.ofWord_truncate {t : PayloadType} {w : WordWidth} (h : t.wordWidth? = some w)
    (word : Word) : ofWord t (w.truncate word) = ofWord t word := by
  cases t <;> cases h
  all_goals first
    | rfl
    | exact congrArg (Payload.mk _) (BitVec.setWidth_setWidth_of_le _ (by decide))

/-- The array that a view aliases. -/
def Box.array (b : Box) : ArrayHandle := ⟨b.type, b.cell.block⟩

namespace Session
variable {s t : Session}

/-- The bytes that a box may touch: those of its own cell, or of the whole array that it views. -/
def payloadBytes (s : Session) (b : Box) : ℕ :=
  if b.view then b.array.length s.memory * b.type.bytes else b.type.bytes

/-- The block of a box that is no view holds its cell alone. -/
def Compact (s : Session) : Prop :=
  ∀ b ∈ s.boxes, b.view = false → (s.memory.blockAt b.cell.block).length = 1

theorem compact_initial : initial.Compact := by
  intro b hb
  simp [initial] at hb

theorem Compact.event {e : Event} (h : e.before.Compact) (hc : e.before.Coherent) :
    e.after.Compact := by
  intro b hb hinline
  have hkept (hold : b ∈ e.before.boxes) : (e.after.memory.blockAt b.cell.block).length = 1 := by
    rw [e.length_blockAt_after (hc.cell b hold).lt_next]
    exact h b hold hinline
  cases e.storeEffect with
  | stay hsame => exact hkept (hsame.boxes ▸ hb)
  | write p hdestination cell value hblock hreply hmemory harrays hboxes => exact hkept (hboxes ▸ hb)
  | newArray type cells hfits hanew hreply hmemory harrays hboxes => exact hkept (hboxes ▸ hb)
  | shareArray source a hop hhandle hreply hmemory harrays hboxes => exact hkept (hboxes ▸ hb)
  | newBox p hanew hreply hmemory harrays hboxes =>
    rw [hboxes] at hb
    rcases List.mem_append.mp hb with hold | hnew
    · exact hkept hold
    · obtain rfl := List.mem_singleton.mp hnew
      rw [hmemory, Memory.blockAt_allocate, if_pos rfl, List.length_singleton]
  | newView a ha index hlt hanew hreply hmemory harrays hboxes =>
    rw [hboxes] at hb
    rcases List.mem_append.mp hb with hold | hnew
    · exact hkept hold
    · obtain rfl := List.mem_singleton.mp hnew
      cases hinline

theorem Compact.run (h : s.Compact) (hc : s.Coherent) (os : List Operation) :
    (s.run os).1.Compact :=
  (s.run_invariant (P := fun t => t.Coherent ∧ t.Compact)
    (fun _ ht => ⟨ht.1.event, ht.2.event ht.1⟩) ⟨hc, h⟩ os).2

section Access
variable {b : Box} {w : WordWidth}

theorem Coherent.array_mem (hc : s.Coherent) (hb : b ∈ s.boxes) (hview : b.view = true) :
    b.array ∈ s.arrays := by
  obtain ⟨a, ha, htype, hblock⟩ := hc.view b hb hview
  rwa [Box.array, ← htype, ← hblock]

/-- The bounds that are checked are those of the payload. -/
theorem Compact.extent_eq (h : s.Compact) (hb : b ∈ s.boxes) (hw : b.type.wordWidth? = some w) :
    b.extent s.memory w = s.payloadBytes b := by
  rw [Box.extent, payloadBytes, PayloadType.wordWidth?_bytes hw]
  split
  · rfl
  next hview => rw [h b hb (by simpa using hview), one_mul]

theorem Coherent.payloadBytes_lt (hc : s.Coherent) (hb : b ∈ s.boxes) :
    s.payloadBytes b < 2 ^ 64 := by
  unfold payloadBytes
  split
  next hview =>
    have hbytes := hc.array_bytes _ (hc.array_mem hb hview)
    change b.array.length s.memory * b.type.bytes ≤ maxBytes at hbytes
    unfold maxBytes at hbytes
    omega
  · cases b.type <;> decide

/-- A word that fits is one whole cell: the box's own, or an element of the array it views. -/
theorem Coherent.reached (hc : s.Coherent) (hb : b ∈ s.boxes) (hw : b.type.wordWidth? = some w)
    {offset : Word} (hend : offset.toNat + w.bytes ≤ s.payloadBytes b) :
    (b.view = false → offset = 0 ∧ (⟨b.cell.block, offset.toNat / w.bytes⟩ : Cell) = b.cell) ∧
      (b.view = true → b.array ∈ s.arrays ∧ offset.toNat / w.bytes < b.array.length s.memory) := by
  have hpos := w.bytes_pos
  rw [payloadBytes, ← PayloadType.wordWidth?_bytes hw] at hend
  constructor
  · intro hinline
    rw [hinline, if_neg Bool.false_ne_true] at hend
    have hzero : offset.toNat = 0 := by omega
    refine ⟨BitVec.eq_of_toNat_eq hzero, ?_⟩
    rw [hzero, Nat.zero_div, ← (hc.inline b hb hinline).1]
  · intro hview
    rw [if_pos hview] at hend
    refine ⟨hc.array_mem hb hview, ?_⟩
    rw [Nat.div_lt_iff_lt_mul hpos]
    omega

theorem Coherent.reached_refers (hc : s.Coherent) (hb : b ∈ s.boxes)
    (hw : b.type.wordWidth? = some w) {offset : Word}
    (hend : offset.toNat + w.bytes ≤ s.payloadBytes b) :
    s.Refers b.type ⟨b.cell.block, offset.toNat / w.bytes⟩ := by
  obtain ⟨hinline, hview⟩ := hc.reached hb hw hend
  cases hb' : b.view with
  | false => exact .inl ⟨b, hb, rfl, (hinline hb').2.symm⟩
  | true =>
    obtain ⟨harray, hlt⟩ := hview hb'
    exact .inr ⟨b.array, harray, _, hlt, rfl, rfl⟩

section Step
variable {box index : ℕ} (hbox : s.boxes[box]? = some b) (hw : b.type.wordWidth? = some w)
include hbox hw

theorem step_get (hslot : slotIndex? (s.slots.offset b w) w (b.extent s.memory w) = some index) :
    s.step (.volatile box .get) =
      ({ s with slots := (s.slots.ask b w).1.called (.read (s.slots.offset b w) w) },
        .answer (.payload (.ofWord b.type (s.memory.read ⟨b.cell.block, index⟩)))) := by
  rw [← SlotState.ask_offset] at hslot ⊢
  simp only [step, onBox, hbox]
  rw [volatile, Box.volatileGet_accepted hw hslot, Payload.ofWord_truncate hw]
  rfl

theorem step_set (hslot : slotIndex? (s.slots.offset b w) w (b.extent s.memory w) = some index)
    {p : Payload} (hp : p.type = b.type) :
    s.step (.volatile box (.set p)) =
      ({ s with slots := (s.slots.ask b w).1.called (.write (s.slots.offset b w) w p.toWord)
                memory := s.memory.write ⟨b.cell.block, index⟩ p.toWord }, .answer .unit) := by
  have hword : p.type.wordWidth? = some w := by rw [hp, hw]
  rw [← SlotState.ask_offset] at hslot ⊢
  simp only [step, onBox, hbox]
  rw [volatile, if_neg (not_ne_iff.mpr hp), Box.volatileSet_accepted hw hslot,
    Payload.truncate_toWord hword]

/-- A refused offset was asked for, and that is all that happens. -/
theorem step_refused (hslot : slotIndex? (s.slots.offset b w) w (b.extent s.memory w) = none)
    {v : Volatile} (hv : ∀ p, v = .set p → p.type = b.type) :
    s.step (.volatile box v) = ({ s with slots := (s.slots.ask b w).1 },
      .fault (b.slotFault (s.slots.offset b w) w (b.extent s.memory w))) := by
  rw [← SlotState.ask_offset] at hslot ⊢
  simp only [step, onBox, hbox]
  cases v with
  | get => rw [volatile, Box.volatileGet_rejected hw hslot]; rfl
  | set p =>
    rw [volatile, if_neg (not_ne_iff.mpr (hv p rfl)), Box.volatileSet_rejected hw hslot]

end Step

end Access

/-- Volatile access in every session that has come about by operations, whichever accessor was installed
and whatever it answers. An offset is used where its word lies inside the payload, aligned; the one cell
that it leads to is then read or written. Any other offset is refused before a word is moved. -/
theorem volatile_confined (os : List Operation) {box : ℕ} {b : Box} {w : WordWidth}
    (hbox : (initial.run os).1.boxes[box]? = some b) (hw : b.type.wordWidth? = some w) :
    let s := (initial.run os).1
    let offset := s.slots.offset b w
    let cell : Cell := ⟨b.cell.block, offset.toNat / w.bytes⟩
    let after (v : Volatile) := s.step (.volatile box v)
    if w.bytes ∣ offset.toNat ∧ offset.toNat + w.bytes ≤ s.payloadBytes b then
      (b.view = false → offset = 0 ∧ cell = b.cell) ∧
      (b.view = true → b.array ∈ s.arrays ∧ offset.toNat / w.bytes < b.array.length s.memory) ∧
      ((after .get).2 = .answer (.payload (.ofWord b.type (s.memory.read cell))) ∧
        (after .get).1.slots.moves = s.slots.moves ++ [.read offset w] ∧
        (after .get).1.memory = s.memory ∧ (after .get).1.boxes = s.boxes ∧
        (after .get).1.arrays = s.arrays) ∧
      ∀ p : Payload, p.type = b.type →
        (after (.set p)).2 = .answer .unit ∧
        (after (.set p)).1.slots.moves = s.slots.moves ++ [.write offset w p.toWord] ∧
        (∀ c ∈ s.boxes, c.get (after (.set p)).1.memory =
          if c.cell = cell then p else c.get s.memory) ∧
        (∀ a ∈ s.arrays, ∀ index, a.get? (after (.set p)).1.memory index =
          if a.element index = cell then some p else a.get? s.memory index) ∧
        (after (.set p)).1.boxes = s.boxes ∧ (after (.set p)).1.arrays = s.arrays
    else
      ∀ v : Volatile, (∀ p, v = .set p → p.type = b.type) →
        (after v).2 = .fault (b.slotFault offset w (s.payloadBytes b)) ∧
        (after v).1.slots.moves = s.slots.moves ∧
        (after v).1.memory = s.memory ∧ (after v).1.boxes = s.boxes ∧
        (after v).1.arrays = s.arrays := by
  intro s offset cell after
  have hc : s.Coherent := coherent_initial.run os
  have hcompact : s.Compact := compact_initial.run coherent_initial os
  have hb : b ∈ s.boxes := List.mem_of_getElem? hbox
  have hextent := hcompact.extent_eq hb hw
  have hsmall := hc.payloadBytes_lt hb
  split
  next hfits =>
    obtain ⟨hinline, hview⟩ := hc.reached hb hw hfits.2
    have hslot : slotIndex? offset w (b.extent s.memory w) = some (offset.toNat / w.bytes) := by
      rw [hextent, slotIndex?_eq_some_iff]
      exact ⟨hfits, by omega, rfl⟩
    refine ⟨hinline, hview, ?_, fun p hp => ?_⟩
    · rw [show after .get = _ from step_get hbox hw hslot]
      refine ⟨rfl, ?_, rfl, rfl, rfl⟩
      rw [SlotState.moves_called, SlotState.moves_ask]
      rfl
    · have hset : after (.set p) = _ := step_set hbox hw hslot hp
      have hwrites : Writes s (after (.set p)).1 cell p := by
        rw [hset]
        exact ⟨hp ▸ hc.reached_refers hb hw hfits.2, rfl, rfl, rfl⟩
      refine ⟨by rw [hset], ?_, fun c hmem => hwrites.box_get hc hmem,
        fun a ha index => hwrites.array_get? hc ha index, hwrites.boxes, hwrites.arrays⟩
      rw [hset, SlotState.moves_called, SlotState.moves_ask]
      rfl
  next hmisfit =>
    intro v hv
    have hslot : slotIndex? offset w (b.extent s.memory w) = none := by
      rw [hextent, slotIndex?_eq_none_iff hsmall]
      exact hmisfit
    rw [show after v = _ from step_refused hbox hw hslot hv, hextent]
    exact ⟨rfl, s.slots.moves_ask b w, rfl, rfl, rfl⟩

/-- An accessor that lays every word 64 bytes too far, and a view of the first of ten elements. -/
def displaced : List Operation :=
  [.install (.slots (.displaced 64 64)),
    .create (.arrayFrom .int64 ((List.range 10).map (.ofNat .int64))), .create (.inArray 0 0)]

/-- The view then reads the ninth element. -/
theorem volatile_confined_displaced :
    (initial.run displaced).1.boxes[0]? = some ⟨.int64, ⟨0, 0⟩, true⟩ ∧
      PayloadType.int64.wordWidth? = some .w64 ∧
      ((initial.run displaced).1.step (.volatile 0 .get)).2 =
        .answer (.payload (.ofNat .int64 8)) := by
  have hbox : (initial.run displaced).1.boxes[0]? = some ⟨.int64, ⟨0, 0⟩, true⟩ := rfl
  have hconfined := volatile_confined displaced hbox rfl
  dsimp only at hconfined
  rw [if_pos (by decide)] at hconfined
  exact ⟨hbox, rfl, hconfined.2.2.1.1⟩

end Session

end ManagedTypes
