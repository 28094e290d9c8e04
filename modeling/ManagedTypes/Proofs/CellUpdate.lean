import ManagedTypes.Proofs.SessionCoherence

/-! A successful write reaches one cell. Whatever refers to the cell reads what was written, and
whatever refers to another cell reads what it read before. -/
namespace ManagedTypes

theorem ArrayHandle.get?_eq (a : ArrayHandle) (m : Memory) (index : ℕ) :
    a.get? m index =
      if index < a.length m then some (.ofWord a.type (m.read (a.element index))) else none := by
  unfold ArrayHandle.get? ArrayHandle.length Memory.read ArrayHandle.element
  split
  next hlt =>
    rw [List.getElem?_eq_getElem hlt, Option.map_some, List.getD_eq_getElem?_getD,
      List.getElem?_eq_getElem hlt, Option.getD_some]
  next hge => rw [List.getElem?_eq_none (by omega), Option.map_none]

namespace Session
variable {s : Session}

/-- Boxes of different numbers share a block only if both are views. -/
theorem Coherent.block_ne (h : s.Coherent) {i j : ℕ} {b c : Box} (hi : s.boxes[i]? = some b)
    (hj : s.boxes[j]? = some c) (hne : i ≠ j) (hinline : b.view = false ∨ c.view = false) :
    b.cell.block ≠ c.cell.block := by
  have halone := List.pairwise_iff_getElem.mp h.alone
  obtain ⟨hilt, rfl⟩ := List.getElem?_eq_some_iff.mp hi
  obtain ⟨hjlt, rfl⟩ := List.getElem?_eq_some_iff.mp hj
  rcases Nat.lt_or_gt_of_ne hne with hlt | hgt
  · exact halone i j hilt hjlt hlt hinline
  · exact (halone j i hjlt hilt hgt hinline.symm).symm

theorem Coherent.box_array_type (h : s.Coherent) {b : Box} (hb : b ∈ s.boxes) {a : ArrayHandle}
    (ha : a ∈ s.arrays) (hblock : a.block = b.cell.block) : b.type = a.type := by
  cases hview : b.view with
  | false => exact absurd hblock ((h.inline b hb hview).2 a ha)
  | true =>
    obtain ⟨c, hc, htype, hcb⟩ := h.view b hb hview
    rw [← htype]
    exact h.array_type c hc a ha (hcb.trans hblock.symm)

theorem Coherent.box_type (h : s.Coherent) {b c : Box} (hb : b ∈ s.boxes) (hc : c ∈ s.boxes)
    (hblock : b.cell.block = c.cell.block) : b.type = c.type := by
  obtain ⟨i, hi⟩ := List.mem_iff_getElem?.mp hb
  obtain ⟨j, hj⟩ := List.mem_iff_getElem?.mp hc
  by_cases heq : i = j
  · rw [heq, hj] at hi
    rw [Option.some.inj hi]
  cases hview : b.view with
  | false => exact absurd hblock (h.block_ne hi hj heq (.inl hview))
  | true =>
    obtain ⟨a, ha, htype, hab⟩ := h.view b hb hview
    rw [← htype]
    exact (h.box_array_type hc ha (hab.trans hblock)).symm

theorem Coherent.refers_type (h : s.Coherent) {t u : PayloadType} {cell : Cell}
    (ht : s.Refers t cell) (hu : s.Refers u cell) : t = u := by
  rcases ht with ⟨b, hb, rfl, rfl⟩ | ⟨a, ha, i, _, rfl, rfl⟩ <;>
    rcases hu with ⟨c, hc, rfl, hcell⟩ | ⟨d, hd, j, _, rfl, hcell⟩
  · exact h.box_type hb hc (by rw [hcell])
  · exact h.box_array_type hb hd (by rw [← hcell]; rfl)
  · exact (h.box_array_type hc ha (by rw [hcell]; rfl)).symm
  · exact h.array_type a ha d hd (congrArg Cell.block hcell).symm

theorem Coherent.refers_has (h : s.Coherent) {t : PayloadType} {cell : Cell} (ht : s.Refers t cell) :
    s.memory.Has cell := by
  rcases ht with ⟨b, hb, _, rfl⟩ | ⟨a, _, i, hlt, _, rfl⟩
  · exact h.cell b hb
  · exact hlt

section Native
variable {b : Box} {w : WordWidth} (h : s.Coherent) (hb : b ∈ s.boxes)
include h hb

/-- The word of a box's cell lies inside its block. -/
theorem Coherent.word_end_le (w : WordWidth) :
    b.cell.index * w.bytes + w.bytes ≤ b.extent s.memory w := by
  rw [← Nat.succ_mul]
  exact Nat.mul_le_mul_right _ (h.cell b hb)

theorem Coherent.word_end_lt (hw : b.type.wordWidth? = some w) :
    b.cell.index * w.bytes + w.bytes < 2 ^ 64 := by
  cases hview : b.view with
  | false =>
    rw [(h.inline b hb hview).1]
    cases w <;> decide
  | true =>
    obtain ⟨a, ha, htype, hblock⟩ := h.view b hb hview
    have hbytes := h.array_bytes a ha
    rw [ArrayHandle.length, hblock, htype, ← PayloadType.wordWidth?_bytes hw] at hbytes
    change b.extent s.memory w ≤ maxBytes at hbytes
    exact (h.word_end_le hb w).trans_lt (hbytes.trans_lt (by decide))

theorem Coherent.ask_native (hf : s.slots.Faithful) (hnative : s.slots.inForce = .native)
    (w : WordWidth) : (s.slots.ask b w).2 = BitVec.ofNat 64 (b.cell.index * w.bytes) := by
  rw [hf.ask_native hnative]
  cases hview : b.view with
  | false =>
    rw [(h.inline b hb hview).1, Nat.zero_mul]
    rfl
  | true => rfl

/-- The native accessor's offsets lead to the box's own cell, without wrapping. -/
theorem Coherent.slotIndex?_ask (hf : s.slots.Faithful) (hnative : s.slots.inForce = .native)
    (hw : b.type.wordWidth? = some w) :
    slotIndex? (s.slots.ask b w).2 w (b.extent s.memory w) = some b.cell.index := by
  rw [h.ask_native hb hf hnative]
  exact slotIndex?_native (h.word_end_le hb w) (h.word_end_lt hb hw)

end Native

/-- A step that puts a payload into a cell of its type, and does nothing else to the store. -/
structure Writes (s t : Session) (cell : Cell) (p : Payload) : Prop where
  refers : s.Refers p.type cell
  memory : t.memory = s.memory.write cell p.toWord
  arrays : t.arrays = s.arrays
  boxes : t.boxes = s.boxes

/-- Every write that succeeds puts the payload into the cell that it is aimed at. -/
theorem writes_step (h : s.Coherent) (hf : s.slots.Faithful) {o : Operation} (hwrites : o.writes = true)
    (hok : (s.step o).2 = .answer .unit)
    (hnative : ∀ box v, o = .volatile box v → s.slots.inForce = .native) :
    ∃ cell p, s.target? o = some (cell, p) ∧ Writes s (s.step o).1 cell p := by
  cases Event.storeEffect ⟨s, o⟩ with
  | stay hsame hunanswered => exact absurd hok (hunanswered (Operation.stores_of_writes hwrites) _)
  | write p hdestination cell value hblock hreply hmemory harrays hboxes aim htarget hrefers hreaches =>
    -- an accessor of one's own could lead a volatile write to another cell of the block
    have hcell : cell = aim := by
      cases hreaches with
      | direct => rfl
      | led hop hbox hw hslot =>
        rw [h.slotIndex?_ask (List.mem_of_getElem? hbox) hf (hnative _ _ hop) hw] at hslot
        rw [← Option.some.inj hslot]
    subst hcell
    exact ⟨cell, value, htarget, hrefers, hmemory, harrays, hboxes⟩
  | newArray type cells hfits hanew hreply => cases hok.symm.trans hreply
  | shareArray source a hop hhandle hreply => cases hok.symm.trans hreply
  | newBox p hanew hreply => cases hok.symm.trans hreply
  | newView a ha index hlt hanew hreply => cases hok.symm.trans hreply

section Reads
variable {t : Session} {cell : Cell} {p : Payload} (h : s.Coherent) (hw : Writes s t cell p)
include h hw

theorem Writes.read (c : Cell) :
    t.memory.read c = if c = cell then p.toWord else s.memory.read c := by
  rw [hw.memory]
  split
  next heq => rw [heq, Memory.read_write_self (h.refers_has hw.refers)]
  next hne => rw [Memory.read_write_of_ne _ (Ne.symm hne)]

theorem Writes.box_get {b : Box} (hb : b ∈ s.boxes) :
    b.get t.memory = if b.cell = cell then p else b.get s.memory := by
  rw [Box.get, hw.read h]
  split
  next heq =>
    have htype : b.type = p.type := h.refers_type (.inl ⟨b, hb, rfl, heq⟩) hw.refers
    rw [htype, Payload.ofWord_toWord]
  · rfl

theorem Writes.array_get? {a : ArrayHandle} (ha : a ∈ s.arrays) (index : ℕ) :
    a.get? t.memory index = if a.element index = cell then some p else a.get? s.memory index := by
  have hlength : a.length t.memory = a.length s.memory := by
    rw [ArrayHandle.length, hw.memory, Memory.length_blockAt_write]
    rfl
  rw [a.get?_eq, a.get?_eq, hlength, hw.read h]
  by_cases heq : a.element index = cell
  · have hlt : index < a.length s.memory := by
      have hhas := h.refers_has hw.refers
      rw [← heq] at hhas
      exact hhas
    have htype : a.type = p.type := h.refers_type (.inr ⟨a, ha, index, hlt, rfl, heq⟩) hw.refers
    rw [if_pos hlt, if_pos heq, if_pos heq, htype, Payload.ofWord_toWord]
  · rw [if_neg heq, if_neg heq]

end Reads

/-- Writes in every session that has come about by operations. The one cell written is the target's;
an inline box's is its own alone. -/
theorem write_single_cell (os : List Operation) (o : Operation) (hwrites : o.writes = true)
    (hok : ((initial.run os).1.step o).2 = .answer .unit)
    (hnative : ∀ box v, o = .volatile box v → (initial.run os).1.slots.inForce = .native) :
    let s := (initial.run os).1
    let t := (s.step o).1
    ∃ cell p, s.target? o = some (cell, p) ∧ s.memory.Has cell ∧
      t.boxes = s.boxes ∧ t.arrays = s.arrays ∧
      (∀ c, t.memory.read c = if c = cell then p.toWord else s.memory.read c) ∧
      (∀ b ∈ s.boxes, b.get t.memory = if b.cell = cell then p else b.get s.memory) ∧
      (∀ a ∈ s.arrays, ∀ index,
        a.get? t.memory index = if a.element index = cell then some p else a.get? s.memory index) ∧
      ∀ (i : ℕ) (b : Box), s.boxes[i]? = some b → b.view = false → b.cell = cell →
        (∀ (j : ℕ) (c : Box), s.boxes[j]? = some c → c.cell = cell → j = i) ∧
        ∀ a ∈ s.arrays, ∀ index, a.element index ≠ cell := by
  intro s t
  have h : s.Coherent := coherent_initial.run os
  have hf : s.slots.Faithful := faithful_run SlotState.faithful_initial os
  obtain ⟨cell, p, htarget, hw⟩ := writes_step h hf hwrites hok hnative
  refine ⟨cell, p, htarget, h.refers_has hw.refers, hw.boxes, hw.arrays, hw.read h,
    fun b hb => hw.box_get h hb, fun a ha index => hw.array_get? h ha index, ?_⟩
  rintro i b hi hinline rfl
  have hb := List.mem_of_getElem? hi
  refine ⟨fun j c hj hcell => ?_, fun a ha index heq => ?_⟩
  · by_contra hne
    exact h.block_ne hi hj (Ne.symm hne) (.inl hinline) (congrArg Cell.block hcell).symm
  · exact (h.inline b hb hinline).2 a ha (congrArg Cell.block heq)

/-- An array of two elements and two boxes of the second one. -/
def aliasing : List Operation :=
  [.create (.arrayNew .int32 2), .create (.inArray 0 1), .create (.inArray 0 1)]

/-- Written through the second box. -/
theorem write_single_cell_aliased :
    ((initial.run aliasing).1.step (.volatile 1 (.set (.ofNat .int32 7)))).2 = .answer .unit ∧
      (initial.run aliasing).1.slots.inForce = .native ∧
      ∃ cell p, (initial.run aliasing).1.target? (.volatile 1 (.set (.ofNat .int32 7))) = some (cell, p) ∧
        ∀ b ∈ (initial.run aliasing).1.boxes,
          b.get ((initial.run aliasing).1.step (.volatile 1 (.set (.ofNat .int32 7)))).1.memory =
            if b.cell = cell then p else b.get (initial.run aliasing).1.memory := by
  have hok : ((initial.run aliasing).1.step (.volatile 1 (.set (.ofNat .int32 7)))).2 =
      .answer .unit := rfl
  have hnative : (initial.run aliasing).1.slots.inForce = .native := rfl
  obtain ⟨cell, p, htarget, _, _, _, _, hboxes, _⟩ :=
    write_single_cell aliasing _ rfl hok fun _ _ _ => hnative
  exact ⟨hok, hnative, cell, p, htarget, hboxes⟩

end Session

end ManagedTypes
