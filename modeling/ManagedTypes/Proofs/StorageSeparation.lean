import Mathlib.Logic.Relation
import ManagedTypes.Proofs.VolatileBounds

/-! Who shares storage with whom. Handles of one array are clones of one another, views alias elements that
exist, and a box of its own payload has its cell to itself; so the clone of a box goes its own way. -/
namespace ManagedTypes

theorem Box.get_congr (b : Box) {m n : Memory} (h : m.blockAt b.cell.block = n.blockAt b.cell.block) :
    b.get m = b.get n := by
  simp only [get, Memory.read, h]

theorem ArrayHandle.payloads_congr (a : ArrayHandle) {m n : Memory}
    (h : m.blockAt a.block = n.blockAt a.block) : a.payloads m = a.payloads n := by
  simp only [payloads, h]

/-- A new box holds the payload that it was made for. -/
theorem Box.get_inline (m : Memory) (p : Payload) : (Box.inline m p).2.get (Box.inline m p).1 = p := by
  simp only [Box.inline, get, Memory.read, Memory.blockAt_allocate, if_true, List.getD_cons_zero,
    Payload.ofWord_toWord]

namespace Event

/-- A block that the event is not aimed at is as it was. -/
theorem blockAt_after (e : Event) {block : ℕ} (hlt : block < e.before.memory.next)
    (haside : ∀ p ∈ e.operation.destination?, e.before.blockOf? p ≠ some block) :
    e.after.memory.blockAt block = e.before.memory.blockAt block := by
  cases e.storeEffect with
  | write p hdestination cell value hblock hreply hmemory =>
    have hne : cell.block ≠ block := fun heq => haside p hdestination (heq ▸ hblock)
    rw [hmemory, Memory.blockAt_write, if_neg hne]
  | newArray type cells hfits hanew hreply hmemory | newBox p hanew hreply hmemory =>
    rw [hmemory, Memory.blockAt_allocate_of_lt _ _ hlt]
  | stay hsame => rw [hsame.memory]
  | shareArray source a hop hhandle hreply hmemory => rw [hmemory]
  | newView a ha index hindex hanew hreply hmemory => rw [hmemory]

/-- The array handle that the event has cloned, and the clone. -/
def clonedArray? (e : Event) : Option (ℕ × ℕ) :=
  match e.operation, e.reply with
  | .create (.arrayClone i), .answer (.created j) => some (i, j)
  | _, _ => none

theorem clonedArray?_eq_none {e : Event}
    (h : ∀ i, e.operation = .create (.arrayClone i) → ∀ a, e.reply ≠ .answer a) :
    e.clonedArray? = none := by
  unfold clonedArray?
  split
  next i j hop hreply => exact absurd hreply (h i hop _)
  · rfl

end Event

namespace Session
variable {s t : Session}

/-- Arrays and boxes stay what they were when they were created, and no array changes its length. -/
structure Extends (s t : Session) : Prop where
  arrays : s.arrays <+: t.arrays
  boxes : s.boxes <+: t.boxes
  lengths : ∀ a ∈ s.arrays, a.length t.memory = a.length s.memory

theorem Extends.refl (s : Session) : Extends s s := ⟨List.prefix_rfl, List.prefix_rfl, fun _ _ => rfl⟩

theorem Extends.trans {u : Session} (h : Extends s t) (h' : Extends t u) : Extends s u where
  arrays := h.arrays.trans h'.arrays
  boxes := h.boxes.trans h'.boxes
  lengths a ha := (h'.lengths a (h.arrays.subset ha)).trans (h.lengths a ha)

theorem Extends.box (h : Extends s t) {n : ℕ} {b : Box} (hn : s.boxes[n]? = some b) :
    t.boxes[n]? = some b := by
  obtain ⟨new, hnew⟩ := h.boxes
  rw [← hnew, List.getElem?_append_left (List.getElem?_eq_some_iff.mp hn).1, hn]

theorem Coherent.extends_event {e : Event} (h : e.before.Coherent) : Extends e.before e.after := by
  have hlengths (a : ArrayHandle) (ha : a ∈ e.before.arrays) :
      a.length e.after.memory = a.length e.before.memory :=
    e.length_blockAt_after (h.array_block a ha)
  cases e.storeEffect with
  | stay hsame => exact ⟨hsame.arrays ▸ List.prefix_rfl, hsame.boxes ▸ List.prefix_rfl, hlengths⟩
  | write p hdestination cell value hblock hreply hmemory harrays hboxes =>
    exact ⟨harrays ▸ List.prefix_rfl, hboxes ▸ List.prefix_rfl, hlengths⟩
  | newArray type cells hfits hanew hreply hmemory harrays hboxes =>
    exact ⟨harrays ▸ List.prefix_append .., hboxes ▸ List.prefix_rfl, hlengths⟩
  | shareArray source a hop hhandle hreply hmemory harrays hboxes =>
    exact ⟨harrays ▸ List.prefix_append .., hboxes ▸ List.prefix_rfl, hlengths⟩
  | newBox p hanew hreply hmemory harrays hboxes =>
    exact ⟨harrays ▸ List.prefix_rfl, hboxes ▸ List.prefix_append .., hlengths⟩
  | newView a ha index hlt hanew hreply hmemory harrays hboxes =>
    exact ⟨harrays ▸ List.prefix_rfl, hboxes ▸ List.prefix_append .., hlengths⟩

theorem Coherent.extends_run (h : s.Coherent) (os : List Operation) : Extends s (s.run os).1 :=
  (s.run_invariant (P := fun t => t.Coherent ∧ Extends s t)
    (fun _ ht => ⟨ht.1.event, ht.2.trans ht.1.extends_event⟩) ⟨h, .refl s⟩ os).2

section Sharing

/-- The second array handle was made by cloning the first. -/
def Cloned (es : List Event) (i j : ℕ) : Prop := (i, j) ∈ es.filterMap Event.clonedArray?

theorem cloned_snoc (es : List Event) (e : Event) (i j : ℕ) :
    Cloned (es ++ [e]) i j ↔ Cloned es i j ∨ e.clonedArray? = some (i, j) := by
  simp [Cloned, List.filterMap_append]

/-- Cloned handles are equal, and equal handles are connected by clonings. -/
structure Sharing (es : List Event) (s : Session) : Prop where
  sound : ∀ i j, Cloned es i j → ∃ a, s.arrays[i]? = some a ∧ s.arrays[j]? = some a
  complete : ∀ i j a, s.arrays[i]? = some a → s.arrays[j]? = some a → Relation.EqvGen (Cloned es) i j

variable {es : List Event} {e : Event}

theorem Sharing.kept (h : Sharing es e.before) (hcloned : e.clonedArray? = none)
    (harrays : e.after.arrays = e.before.arrays) : Sharing (es ++ [e]) e.after := by
  have hsame : Cloned (es ++ [e]) = Cloned es := by
    ext i j
    rw [cloned_snoc, hcloned]
    simp
  constructor
  · rw [hsame, harrays]
    exact h.sound
  · rw [hsame, harrays]
    exact h.complete

/-- One more handle, connected with those that it is equal to. -/
theorem Sharing.push (h : Sharing es e.before) {a : ArrayHandle}
    (harrays : e.after.arrays = e.before.arrays ++ [a])
    (hcloned : ∀ i j, e.clonedArray? = some (i, j) →
      e.before.arrays[i]? = some a ∧ j = e.before.arrays.length)
    (hjoin : ∀ i, e.before.arrays[i]? = some a →
      Relation.EqvGen (Cloned (es ++ [e])) i e.before.arrays.length) :
    Sharing (es ++ [e]) e.after := by
  have hold {i : ℕ} {c : ArrayHandle} (hi : e.before.arrays[i]? = some c) :
      e.after.arrays[i]? = some c := by
    rw [harrays, List.getElem?_append_left (List.getElem?_eq_some_iff.mp hi).1, hi]
  have hlast : e.after.arrays[e.before.arrays.length]? = some a := by
    rw [harrays, List.getElem?_concat_length]
  have hcases {i : ℕ} {c : ArrayHandle} (hi : e.after.arrays[i]? = some c) :
      e.before.arrays[i]? = some c ∨ i = e.before.arrays.length ∧ c = a := by
    rw [harrays] at hi
    grind
  have hmono : Relation.EqvGen (Cloned es) ≤ Relation.EqvGen (Cloned (es ++ [e])) :=
    Relation.EqvGen.mono fun i j hij => (cloned_snoc es e i j).mpr (.inl hij)
  constructor
  · intro i j hij
    rcases (cloned_snoc es e i j).mp hij with hij | hij
    · obtain ⟨c, hi, hj⟩ := h.sound i j hij
      exact ⟨c, hold hi, hold hj⟩
    · obtain ⟨hi, rfl⟩ := hcloned i j hij
      exact ⟨a, hold hi, hlast⟩
  · intro i j c hi hj
    rcases hcases hi with hi | ⟨rfl, rfl⟩ <;> rcases hcases hj with hj | ⟨rfl, hc⟩
    · exact hmono i j (h.complete i j c hi hj)
    · exact hjoin i (hc ▸ hi)
    · exact (hjoin j hj).symm
    · exact .refl _

theorem Sharing.event (h : Sharing es e.before) (hc : e.before.Coherent) :
    Sharing (es ++ [e]) e.after := by
  have hnone (hanew : ∀ i, e.operation ≠ .create (.arrayClone i)) : e.clonedArray? = none :=
    Event.clonedArray?_eq_none fun i hop => absurd hop (hanew i)
  cases e.storeEffect with
  | stay hsame hunanswered =>
    exact h.kept (Event.clonedArray?_eq_none fun i hop => hunanswered (hop ▸ rfl)) hsame.arrays
  | write p hdestination cell value hblock hreply hmemory harrays =>
    refine h.kept (hnone fun i hop => ?_) harrays
    rw [hop] at hdestination
    cases hdestination
  | newBox p hanew hreply hmemory harrays => exact h.kept (hnone hanew) harrays
  | newView a ha index hlt hanew hreply hmemory harrays => exact h.kept (hnone hanew) harrays
  | newArray type cells hfits hanew hreply hmemory harrays =>
    refine h.push harrays (fun i j hij => ?_) fun i hi => ?_
    · rw [hnone hanew] at hij
      cases hij
    · exact absurd (hc.array_block _ (List.mem_of_getElem? hi)) (lt_irrefl _)
  | shareArray source a hop hhandle hreply hmemory harrays =>
    have hcloned : e.clonedArray? = some (source, e.before.arrays.length) := by
      simp only [Event.clonedArray?, hop, hreply]
    refine h.push harrays (fun i j hij => ?_) fun i hi => ?_
    · rw [hcloned] at hij
      cases hij
      exact ⟨hhandle, rfl⟩
    · have hsource : Relation.EqvGen (Cloned (es ++ [e])) i source :=
        Relation.EqvGen.mono (fun i j hij => (cloned_snoc es e i j).mpr (.inl hij)) i source
          (h.complete i source a hi hhandle)
      exact hsource.trans _ _ _ (.rel _ _ ((cloned_snoc es e _ _).mpr (.inr hcloned)))

theorem sharing_run (os : List Operation) : Sharing (initial.trace os) (initial.run os).1 := by
  have hnil : Sharing [] initial := ⟨fun i j hij => by simp [Cloned] at hij, by simp [initial]⟩
  refine (run_induction initial (motive := fun es s => s.Coherent ∧ Sharing es s)
    ⟨coherent_initial, hnil⟩ (fun es e ih => ?_) os).2
  exact ⟨ih.1.event, ih.2.event ih.1⟩

/-- Handles of one block are those connected by clonings. -/
theorem Sharing.block_eq_iff (h : Sharing es s) (hc : s.Coherent) {i j : ℕ} {a c : ArrayHandle}
    (hi : s.arrays[i]? = some a) (hj : s.arrays[j]? = some c) :
    a.block = c.block ↔ Relation.EqvGen (Cloned es) i j := by
  constructor
  · intro hblock
    have htype := hc.array_type a (List.mem_of_getElem? hi) c (List.mem_of_getElem? hj) hblock
    obtain rfl : a = c := by cases a; cases c; simp_all
    exact h.complete i j a hi hj
  · intro hconnected
    have hequal : s.arrays[i]? = s.arrays[j]? := by
      clear hi hj
      induction hconnected with
      | rel i j hij =>
        obtain ⟨a, hi, hj⟩ := h.sound i j hij
        rw [hi, hj]
      | refl i => rfl
      | symm i j _ ih => exact ih.symm
      | trans i j k _ _ ih ih' => exact ih.trans ih'
    rw [hi, hj] at hequal
    rw [Option.some.inj hequal]

end Sharing

/-- The payload of box `n` is the box's alone: what is not aimed at the box leaves it, and what is aimed at
nothing else leaves everything else. -/
structure Separate (s : Session) (n : ℕ) (b : Box) : Prop where
  box : s.boxes[n]? = some b
  kept : ∀ o : Operation, o.destination? ≠ some (.box n) →
    b.get (s.step o).1.memory = b.get s.memory
  others : ∀ o : Operation, (∀ p ∈ o.destination?, p = .box n) →
    (∀ i c, i ≠ n → s.boxes[i]? = some c → c.get (s.step o).1.memory = c.get s.memory) ∧
      ∀ a ∈ s.arrays, a.payloads (s.step o).1.memory = a.payloads s.memory

section Inline
variable {n : ℕ} {b : Box}

/-- No other place has the block of a box that is no view. -/
theorem Coherent.blockOf?_ne (h : s.Coherent) (hn : s.boxes[n]? = some b) (hinline : b.view = false)
    {p : Place} (hp : p ≠ .box n) : s.blockOf? p ≠ some b.cell.block := by
  intro hblock
  cases p with
  | box i =>
    obtain ⟨c, hi, hcb⟩ := Option.map_eq_some_iff.mp hblock
    have hne : i ≠ n := fun heq => hp (congrArg Place.box heq)
    exact h.block_ne hi hn hne (.inr hinline) hcb
  | array i =>
    obtain ⟨a, hi, hab⟩ := Option.map_eq_some_iff.mp hblock
    exact (h.inline b (List.mem_of_getElem? hn) hinline).2 a (List.mem_of_getElem? hi) hab

theorem Coherent.separate (h : s.Coherent) (hn : s.boxes[n]? = some b) (hinline : b.view = false) :
    s.Separate n b := by
  have hb := List.mem_of_getElem? hn
  -- a block of another place is aside of what is aimed at the box, or at nothing
  have haside {o : Operation} (ho : ∀ p ∈ o.destination?, p = .box n) {block : ℕ}
      (hne : b.cell.block ≠ block) : ∀ p ∈ o.destination?, s.blockOf? p ≠ some block := by
    intro p hp hblock
    rw [ho p hp, blockOf?, hn] at hblock
    exact hne (Option.some.inj hblock)
  refine ⟨hn, fun o ho => ?_, fun o ho => ⟨fun i c hi hc => ?_, fun a ha => ?_⟩⟩
  · refine b.get_congr (Event.blockAt_after ⟨s, o⟩ (h.cell b hb).lt_next fun p hp => ?_)
    exact h.blockOf?_ne hn hinline fun heq => ho (heq ▸ hp)
  · have hne := (h.block_ne hc hn hi (.inr hinline)).symm
    exact c.get_congr (Event.blockAt_after ⟨s, o⟩ (h.cell c (List.mem_of_getElem? hc)).lt_next
      (haside ho hne))
  · have hne := ((h.inline b hb hinline).2 a ha).symm
    exact a.payloads_congr (Event.blockAt_after ⟨s, o⟩ (h.array_block a ha) (haside ho hne))

/-- Without an operation aimed at it, a box of its own payload keeps it. -/
theorem Coherent.get_run (h : s.Coherent) (hn : s.boxes[n]? = some b) (hinline : b.view = false)
    {os : List Operation} (hos : ∀ o ∈ os, o.destination? ≠ some (.box n)) :
    b.get (s.run os).1.memory = b.get s.memory := by
  induction os generalizing s with
  | nil => rfl
  | cons o os ih =>
    have hcoherent : (s.step o).1.Coherent := Coherent.event (e := ⟨s, o⟩) h
    have hextends : Extends s (s.step o).1 := Coherent.extends_event (e := ⟨s, o⟩) h
    rw [List.forall_mem_cons] at hos
    rw [← (h.separate hn hinline).kept o hos.1]
    exact ih hcoherent (hextends.box hn) hos.2

end Inline

theorem Coherent.payloads_allocateBox (h : s.Coherent) (p : Payload) :
    (s.allocateBox p).1.boxPayloads = s.boxPayloads ++ [p] ∧
      (s.allocateBox p).1.arrayPayloads = s.arrayPayloads := by
  have hold {block : ℕ} (hlt : block < s.memory.next) :=
    Memory.blockAt_allocate_of_lt s.memory [p.toWord] hlt
  constructor
  · have hboxes : s.boxes.map (·.get (s.memory.allocate [p.toWord])) = s.boxPayloads :=
      List.map_congr_left fun b hb => b.get_congr (hold (h.cell b hb).lt_next)
    have hnew : (Box.inline s.memory p).2.get (s.memory.allocate [p.toWord]) = p :=
      Box.get_inline s.memory p
    change (s.boxes ++ [(Box.inline s.memory p).2]).map (·.get (s.memory.allocate [p.toWord])) = _
    rw [List.map_append, hboxes, List.map_singleton, hnew]
  · exact List.map_congr_left fun a ha => a.payloads_congr (hold (h.array_block a ha))

/-- The storage of every session that has come about by operations, failed ones among them. -/
theorem storage_separated (os : List Operation) :
    let s := (initial.run os).1
    (∀ b ∈ s.boxes, b.view = true → b.array ∈ s.arrays ∧ b.cell.index < b.array.length s.memory) ∧
    (∀ rest, Extends s (s.run rest).1) ∧
    (∀ i j a c, s.arrays[i]? = some a → s.arrays[j]? = some c →
      (a.block = c.block ↔ Relation.EqvGen (Cloned (initial.trace os)) i j)) ∧
    (∀ n b, s.boxes[n]? = some b → b.view = false →
      (∀ i c, s.boxes[i]? = some c → c.cell = b.cell → i = n) ∧
      (∀ a ∈ s.arrays, ∀ index, a.element index ≠ b.cell) ∧ s.Separate n b) ∧
    (∀ i a index, s.arrays[i]? = some a → s.step (.create (.inArray i index)) =
      if index < a.length s.memory then s.addBox ⟨a.type, a.element index, true⟩
      else (s, .fault (.indexOutOfRange index (a.length s.memory)))) ∧
    ∀ source b, s.boxes[source]? = some b →
      let n := s.boxes.length
      let cloning : Event := ⟨s, .create (.boxClone source)⟩
      cloning.reply = .answer (.created n) ∧
      cloning.after.boxPayloads = s.boxPayloads ++ [b.get s.memory] ∧
      cloning.after.arrayPayloads = s.arrayPayloads ∧
      ∃ clone : Box, clone.view = false ∧ ∀ rest,
        let t := (cloning.after.run rest).1
        t.Separate n clone ∧
        ((∀ o ∈ rest, o.destination? ≠ some (.box n)) → clone.get t.memory = b.get s.memory) := by
  intro s
  have h : s.Coherent := coherent_initial.run os
  refine ⟨fun b hb hview => ⟨h.array_mem hb hview, h.cell b hb⟩, h.extends_run, ?_, ?_, ?_, ?_⟩
  · intro i j a c hi hj
    exact (sharing_run os).block_eq_iff h hi hj
  · intro n b hn hinline
    refine ⟨fun i c hi hcell => ?_, fun a ha index hcell => ?_, h.separate hn hinline⟩
    · by_contra hne
      exact h.block_ne hi hn hne (.inr hinline) (congrArg Cell.block hcell)
    · exact (h.inline b (List.mem_of_getElem? hn) hinline).2 a ha (congrArg Cell.block hcell)
  · exact fun i a index hi => step_inArray hi index
  · intro source b hsource n cloning
    have hstep : s.step (.create (.boxClone source)) = _ := step_boxClone hsource
    have hafter : cloning.after = (s.allocateBox (b.get s.memory)).1 := congrArg Prod.fst hstep
    obtain ⟨hboxes, harrays⟩ := h.payloads_allocateBox (b.get s.memory)
    let clone := (Box.inline s.memory (b.get s.memory)).2
    have hcoherent : cloning.after.Coherent := Coherent.event (e := cloning) h
    have hn : cloning.after.boxes[n]? = some clone := by
      rw [hafter]
      exact List.getElem?_concat_length
    have hvalue : clone.get cloning.after.memory = b.get s.memory := by
      rw [hafter]
      exact Box.get_inline s.memory (b.get s.memory)
    refine ⟨congrArg Prod.snd hstep, hafter ▸ hboxes, hafter ▸ harrays, clone, rfl, fun rest => ⟨?_, ?_⟩⟩
    · exact (hcoherent.run rest).separate ((hcoherent.extends_run rest).box hn) rfl
    · intro hrest
      rw [hcoherent.get_run hn rfl hrest, hvalue]

/-- The clone of a view keeps what it was made with while the array goes on. -/
example : (initial.run [.create (.arrayNew .int32 1), .create (.inArray 0 0), .create (.boxClone 0),
    .array 0 (.set 0 (.ofNat .int32 7))]).1.boxPayloads = [.ofNat .int32 7, .ofNat .int32 0] := rfl

end Session

end ManagedTypes
