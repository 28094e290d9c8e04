import ManagedTypes.Proofs.StoreEffect

/-! What holds of the boxes, the arrays and the slots of every session that has come about by steps. -/
namespace ManagedTypes

namespace Memory

@[simp] theorem next_write (m : Memory) (c : Cell) (w : Word) : (m.write c w).next = m.next := by
  simp [next, write]

@[simp] theorem next_allocate (m : Memory) (cells : List Word) :
    (m.allocate cells).next = m.next + 1 := by
  simp [next, allocate]

theorem Has.lt_next {m : Memory} {c : Cell} (h : m.Has c) : c.block < m.next := by
  by_contra hle
  have hnil : m.blockAt c.block = [] := by
    rw [blockAt, List.getD_eq_getElem?_getD, List.getElem?_eq_none (by simpa [next] using hle),
      Option.getD_none]
  simp [Has, hnil] at h

theorem blockAt_allocate_of_lt (m : Memory) (cells : List Word) {block : ℕ} (h : block < m.next) :
    (m.allocate cells).blockAt block = m.blockAt block := by
  rw [blockAt_allocate, if_neg h.ne]

theorem Has.allocate {m : Memory} {c : Cell} (h : m.Has c) (cells : List Word) :
    (m.allocate cells).Has c := by
  rwa [Has, blockAt_allocate_of_lt m cells h.lt_next]

end Memory

/-- No block changes its length. -/
theorem Event.length_blockAt_after (e : Event) {block : ℕ} (hlt : block < e.before.memory.next) :
    (e.after.memory.blockAt block).length = (e.before.memory.blockAt block).length := by
  cases e.storeEffect with
  | stay hsame => rw [hsame.memory]
  | write p hdestination cell value hblock hreply hmemory =>
    rw [hmemory, Memory.length_blockAt_write]
  | newArray type cells hfits hanew hreply hmemory | newBox p hanew hreply hmemory =>
    rw [hmemory, Memory.blockAt_allocate_of_lt _ _ hlt]
  | shareArray source a hop hhandle hreply hmemory => rw [hmemory]
  | newView a ha index hindex hanew hreply hmemory => rw [hmemory]

namespace Session

/-- Handles refer to existing cells and agree on their types; a box of its own payload shares its cell
with nothing. -/
structure Coherent (s : Session) : Prop where
  array_block : ∀ a ∈ s.arrays, a.block < s.memory.next
  array_bytes : ∀ a ∈ s.arrays, a.length s.memory * a.type.bytes ≤ maxBytes
  array_type : ∀ a ∈ s.arrays, ∀ b ∈ s.arrays, a.block = b.block → a.type = b.type
  cell : ∀ b ∈ s.boxes, s.memory.Has b.cell
  view : ∀ b ∈ s.boxes, b.view = true → ∃ a ∈ s.arrays, a.type = b.type ∧ a.block = b.cell.block
  inline : ∀ b ∈ s.boxes, b.view = false → b.cell.index = 0 ∧ ∀ a ∈ s.arrays, a.block ≠ b.cell.block
  alone : s.boxes.Pairwise fun b c => b.view = false ∨ c.view = false → b.cell.block ≠ c.cell.block

theorem coherent_initial : initial.Coherent := by
  constructor <;> simp [initial]

variable {s t : Session}

/-- Only the lengths of the blocks matter, not what is in them. -/
theorem Coherent.of_length (h : s.Coherent) (hnext : t.memory.next = s.memory.next)
    (hlength : ∀ block, (t.memory.blockAt block).length = (s.memory.blockAt block).length)
    (harrays : t.arrays = s.arrays) (hboxes : t.boxes = s.boxes) : t.Coherent := by
  constructor
  · rw [harrays, hnext]
    exact h.array_block
  · rw [harrays]
    intro a ha
    rw [ArrayHandle.length, hlength]
    exact h.array_bytes a ha
  · rw [harrays]
    exact h.array_type
  · rw [hboxes]
    intro b hb
    rw [Memory.Has, hlength]
    exact h.cell b hb
  · rw [harrays, hboxes]
    exact h.view
  · rw [harrays, hboxes]
    exact h.inline
  · rw [hboxes]
    exact h.alone

theorem Coherent.newArray (h : s.Coherent) {type : PayloadType} {cells : List Word}
    (hfits : cells.length * type.bytes ≤ maxBytes)
    (hmemory : t.memory = s.memory.allocate cells)
    (harrays : t.arrays = s.arrays ++ [⟨type, s.memory.next⟩]) (hboxes : t.boxes = s.boxes) :
    t.Coherent := by
  have hold {a : ArrayHandle} (ha : a ∈ s.arrays) : a.block ≠ s.memory.next :=
    (h.array_block a ha).ne
  have hmem {a : ArrayHandle} (ha : a ∈ t.arrays) :
      a ∈ s.arrays ∨ a = ⟨type, s.memory.next⟩ := by simpa [harrays] using ha
  constructor
  · intro a ha
    rw [hmemory, Memory.next_allocate]
    rcases hmem ha with ha | rfl
    · exact Nat.lt_succ_of_lt (h.array_block a ha)
    · exact Nat.lt_succ_self _
  · intro a ha
    rw [hmemory, ArrayHandle.length, Memory.blockAt_allocate]
    rcases hmem ha with ha | rfl
    · rw [if_neg (hold ha)]
      exact h.array_bytes a ha
    · rw [if_pos rfl]
      exact hfits
  · intro a ha b hb hblock
    rcases hmem ha with ha | rfl <;> rcases hmem hb with hb | rfl
    · exact h.array_type a ha b hb hblock
    · exact absurd hblock (hold ha)
    · exact absurd hblock.symm (hold hb)
    · rfl
  · rw [hboxes, hmemory]
    exact fun b hb => (h.cell b hb).allocate cells
  · rw [hboxes, harrays]
    intro b hb hview
    obtain ⟨a, ha, hab⟩ := h.view b hb hview
    exact ⟨a, List.mem_append_left _ ha, hab⟩
  · rw [hboxes]
    intro b hb hinline
    refine ⟨(h.inline b hb hinline).1, fun a ha => ?_⟩
    rcases hmem ha with ha | rfl
    · exact (h.inline b hb hinline).2 a ha
    · exact (h.cell b hb).lt_next.ne'
  · rw [hboxes]
    exact h.alone

theorem Coherent.shareArray (h : s.Coherent) {a : ArrayHandle} (ha : a ∈ s.arrays)
    (hmemory : t.memory = s.memory) (harrays : t.arrays = s.arrays ++ [a])
    (hboxes : t.boxes = s.boxes) : t.Coherent := by
  have hmem (c : ArrayHandle) : c ∈ t.arrays ↔ c ∈ s.arrays := by
    rw [harrays, List.mem_append, List.mem_singleton]
    exact ⟨fun hc => hc.elim id fun hc => hc ▸ ha, .inl⟩
  constructor
  · rw [hmemory]
    exact fun c hc => h.array_block c ((hmem c).mp hc)
  · rw [hmemory]
    exact fun c hc => h.array_bytes c ((hmem c).mp hc)
  · exact fun c hc d hd => h.array_type c ((hmem c).mp hc) d ((hmem d).mp hd)
  · rw [hmemory, hboxes]
    exact h.cell
  · rw [hboxes]
    intro b hb hview
    obtain ⟨c, hc, hcb⟩ := h.view b hb hview
    exact ⟨c, (hmem c).mpr hc, hcb⟩
  · rw [hboxes]
    exact fun b hb hinline =>
      ⟨(h.inline b hb hinline).1, fun c hc => (h.inline b hb hinline).2 c ((hmem c).mp hc)⟩
  · rw [hboxes]
    exact h.alone

theorem Coherent.newBox (h : s.Coherent) {p : Payload}
    (hmemory : t.memory = s.memory.allocate [p.toWord]) (harrays : t.arrays = s.arrays)
    (hboxes : t.boxes = s.boxes ++ [⟨p.type, ⟨s.memory.next, 0⟩, false⟩]) : t.Coherent := by
  have hmem {b : Box} (hb : b ∈ t.boxes) :
      b ∈ s.boxes ∨ b = ⟨p.type, ⟨s.memory.next, 0⟩, false⟩ := by simpa [hboxes] using hb
  constructor
  · rw [harrays, hmemory, Memory.next_allocate]
    exact fun a ha => Nat.lt_succ_of_lt (h.array_block a ha)
  · rw [harrays, hmemory]
    intro a ha
    rw [ArrayHandle.length, Memory.blockAt_allocate_of_lt _ _ (h.array_block a ha)]
    exact h.array_bytes a ha
  · rw [harrays]
    exact h.array_type
  · intro b hb
    rw [hmemory]
    rcases hmem hb with hb | rfl
    · exact (h.cell b hb).allocate _
    · simp [Memory.Has, Memory.blockAt_allocate]
  · intro b hb hview
    rw [harrays]
    rcases hmem hb with hb | rfl
    · exact h.view b hb hview
    · simp at hview
  · intro b hb hinline
    rw [harrays]
    rcases hmem hb with hb | rfl
    · exact h.inline b hb hinline
    · exact ⟨rfl, fun a ha => (h.array_block a ha).ne⟩
  · rw [hboxes, List.pairwise_append]
    refine ⟨h.alone, List.pairwise_singleton _ _, fun b hb c hc _ => ?_⟩
    rw [List.mem_singleton.mp hc]
    exact (h.cell b hb).lt_next.ne

theorem Coherent.newView (h : s.Coherent) {a : ArrayHandle} (ha : a ∈ s.arrays) {index : ℕ}
    (hlt : index < a.length s.memory) (hmemory : t.memory = s.memory) (harrays : t.arrays = s.arrays)
    (hboxes : t.boxes = s.boxes ++ [⟨a.type, a.element index, true⟩]) : t.Coherent := by
  have hmem {b : Box} (hb : b ∈ t.boxes) :
      b ∈ s.boxes ∨ b = ⟨a.type, a.element index, true⟩ := by simpa [hboxes] using hb
  constructor
  · rw [harrays, hmemory]
    exact h.array_block
  · rw [harrays, hmemory]
    exact h.array_bytes
  · rw [harrays]
    exact h.array_type
  · intro b hb
    rw [hmemory]
    rcases hmem hb with hb | rfl
    · exact h.cell b hb
    · exact hlt
  · intro b hb hview
    rw [harrays]
    rcases hmem hb with hb | rfl
    · exact h.view b hb hview
    · exact ⟨a, ha, rfl, rfl⟩
  · intro b hb hinline
    rw [harrays]
    rcases hmem hb with hb | rfl
    · exact h.inline b hb hinline
    · simp at hinline
  · rw [hboxes, List.pairwise_append]
    refine ⟨h.alone, List.pairwise_singleton _ _, fun b hb c hc hinline => ?_⟩
    obtain rfl := List.mem_singleton.mp hc
    have hb0 : b.view = false := by simpa using hinline
    exact ((h.inline b hb hb0).2 a ha).symm

/-- Coherence is kept, whatever an event does to the store. -/
theorem Coherent.event {e : Event} (h : e.before.Coherent) : e.after.Coherent := by
  cases e.storeEffect with
  | stay hsame =>
    exact h.of_length (by rw [hsame.memory]) (fun _ => by rw [hsame.memory]) hsame.arrays hsame.boxes
  | write p hdestination cell value hblock hreply hmemory harrays hboxes =>
    exact h.of_length (by rw [hmemory, Memory.next_write])
      (fun _ => by rw [hmemory, Memory.length_blockAt_write]) harrays hboxes
  | newArray type cells hfits hanew hreply hmemory harrays hboxes =>
    exact h.newArray hfits hmemory harrays hboxes
  | shareArray source a hop hhandle hreply hmemory harrays hboxes =>
    exact h.shareArray (List.mem_of_getElem? hhandle) hmemory harrays hboxes
  | newBox p hanew hreply hmemory harrays hboxes => exact h.newBox hmemory harrays hboxes
  | newView a ha index hlt hanew hreply hmemory harrays hboxes =>
    exact h.newView ha hlt hmemory harrays hboxes

theorem Coherent.run (h : s.Coherent) (os : List Operation) : (s.run os).1.Coherent :=
  s.run_invariant (fun _ => Coherent.event) h os

/-! The formatter and the accessor change in texts, volatile accesses and installations alone. -/

/-- The formatter and the accessor are as they were. -/
structure SameServices (s t : Session) : Prop where
  text : t.text = s.text
  slots : t.slots = s.slots

variable (s)

theorem services_create (c : Creation) : SameServices s (s.step (.create c)).1 := by
  cases c <;> simp only [step, create, allocateArray, allocateBox, addArray, addBox] <;>
    repeat' split
  all_goals exact ⟨rfl, rfl⟩

theorem services_array (n : ℕ) (o : ArrayOperation) : SameServices s (s.step (.array n o)).1 := by
  simp only [step]
  split
  · cases o <;> simp only [onArray] <;> repeat' split
    all_goals exact ⟨rfl, rfl⟩
  · exact ⟨rfl, rfl⟩

theorem services_query (n : ℕ) (q : BoxQuery) : SameServices s (s.step (.query n q)).1 := by
  simp only [step, onBox]
  split
  all_goals exact ⟨rfl, rfl⟩

theorem services_update (n : ℕ) (u : BoxUpdate) : SameServices s (s.step (.update n u)).1 := by
  simp only [step, onBox]
  split
  · cases u <;> simp only [update, store] <;> repeat' split
    all_goals exact ⟨rfl, rfl⟩
  · exact ⟨rfl, rfl⟩

theorem slots_text (n : ℕ) (t : BoxText) : (s.step (.text n t)).1.slots = s.slots := by
  simp only [step, onBox]
  split
  · cases t with
    | display | format => rfl
    | convert target =>
      simp only [write]
      split <;> rfl
  · rfl

theorem text_volatile (n : ℕ) (v : Volatile) : (s.step (.volatile n v)).1.text = s.text := by
  simp only [step, onBox]
  split
  · cases v with
    | get => rfl
    | set value =>
      simp only [volatile]
      repeat' split
      all_goals rfl
  · rfl

variable {s}

theorem faithful_volatile (h : s.slots.Faithful) (b : Box) (v : Volatile) :
    (s.volatile b v).1.slots.Faithful := by
  cases v with
  | get => exact h.volatileGet b s.memory
  | set value =>
    have hset := h.volatileSet b s.memory value
    simp only [volatile]
    split
    · exact h
    · split
      next slots memory heq => rwa [heq] at hset
      next slots f heq => rwa [heq] at hset

theorem faithful_step (h : s.slots.Faithful) (o : Operation) : (s.step o).1.slots.Faithful := by
  cases o with
  | create c => exact (s.services_create c).slots.symm ▸ h
  | array n o => exact (s.services_array n o).slots.symm ▸ h
  | query n q => exact (s.services_query n q).slots.symm ▸ h
  | update n u => exact (s.services_update n u).slots.symm ▸ h
  | text n t => exact (s.slots_text n t).symm ▸ h
  | volatile box v =>
    simp only [step, onBox]
    split
    next b _ => exact faithful_volatile h b v
    · exact h
  | install i =>
    cases i with
    | formatter f recording => exact h
    | options document =>
      simp only [step, install]
      split
      · exact h
      · exact h
    | slots a => exact h.install a
  | formatterLog => exact h
  | slotCalls => exact h

theorem faithful_run (h : s.slots.Faithful) (os : List Operation) : (s.run os).1.slots.Faithful :=
  s.run_invariant (P := fun t => t.slots.Faithful) (fun e he => faithful_step he e.operation) h os

end Session

end ManagedTypes
