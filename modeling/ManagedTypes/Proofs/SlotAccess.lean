import Mathlib
import ManagedTypes.Slots

/-! Volatile access step by step: the offset asked for, the word it leads to, the call that moves the
word. The native accessor leads to the cell that plain access goes to. -/
namespace ManagedTypes

theorem PayloadType.wordWidth?_bytes {t : PayloadType} {w : WordWidth} (h : t.wordWidth? = some w) :
    w.bytes = t.bytes := by
  cases t <;> cases h <;> rfl

/-- A payload that has a word of its own fills it. -/
theorem Payload.truncate_toWord {p : Payload} {w : WordWidth} (h : p.type.wordWidth? = some w) :
    w.truncate p.toWord = p.toWord := by
  obtain ⟨t, bits⟩ := p
  cases t <;> cases h
  all_goals first
    | rfl
    | exact congrArg (BitVec.setWidth 64) (BitVec.setWidth_setWidth_of_le bits (by decide))

theorem checkedAdd_eq_some_iff {a b : Word} {n : ℕ} :
    checkedAdd a n = some b ↔ b.toNat = a.toNat + n := by
  have hb := b.isLt
  unfold checkedAdd
  split
  next hfit =>
    have hsum : (a + BitVec.ofNat 64 n).toNat = a.toNat + n := by
      rw [BitVec.toNat_add, BitVec.toNat_ofNat, Nat.add_mod_mod, Nat.mod_eq_of_lt (by omega)]
    rw [Option.some.injEq, ← BitVec.toNat_inj, hsum, eq_comm]
  next hwrap =>
    simp only [reduceCtorEq, false_iff]
    omega

/-- The check refuses what would wrap around, and is otherwise one on natural numbers. -/
theorem slotIndex?_eq_some_iff {offset : Word} {w : WordWidth} {extent index : ℕ} :
    slotIndex? offset w extent = some index ↔
      (w.bytes ∣ offset.toNat ∧ offset.toNat + w.bytes ≤ extent) ∧
        offset.toNat + w.bytes < 2 ^ 64 ∧ index = offset.toNat / w.bytes := by
  unfold slotIndex?
  cases hlast : checkedAdd offset w.bytes with
  | some last =>
    have hlt := last.isLt
    rw [checkedAdd_eq_some_iff] at hlast
    rw [hlast] at hlt
    simp only [hlast, hlt, true_and, Option.ite_none_right_eq_some, Option.some.injEq,
      Nat.dvd_iff_mod_eq_zero, eq_comm (a := index), and_comm (a := offset.toNat % w.bytes = 0)]
  | none =>
    have hwrap : ¬ offset.toNat + w.bytes ≤ 0xFFFFFFFFFFFFFFFF := by
      intro hfit
      rw [checkedAdd, if_pos hfit] at hlast
      cases hlast
    simp only [reduceCtorEq, false_iff]
    omega

theorem slotIndex?_eq_none_iff {offset : Word} {w : WordWidth} {extent : ℕ}
    (hextent : extent < 2 ^ 64) :
    slotIndex? offset w extent = none ↔
      ¬ (w.bytes ∣ offset.toNat ∧ offset.toNat + w.bytes ≤ extent) := by
  rw [Option.eq_none_iff_forall_ne_some]
  simp only [ne_eq, slotIndex?_eq_some_iff]
  constructor
  · intro h hfits
    exact h _ ⟨hfits, by omega, rfl⟩
  · intro h index hsome
    exact h hsome.1

/-- An aligned word inside the extent is found at its index. -/
theorem slotIndex?_native {w : WordWidth} {index extent : ℕ}
    (h : index * w.bytes + w.bytes ≤ extent) (hword : index * w.bytes + w.bytes < 2 ^ 64) :
    slotIndex? (BitVec.ofNat 64 (index * w.bytes)) w extent = some index := by
  have hpos := w.bytes_pos
  have hoffset : (BitVec.ofNat 64 (index * w.bytes)).toNat = index * w.bytes := by
    rw [BitVec.toNat_ofNat, Nat.mod_eq_of_lt (by omega)]
  rw [slotIndex?_eq_some_iff, hoffset]
  exact ⟨⟨Dvd.intro_left _ rfl, h⟩, hword, (Nat.mul_div_cancel _ hpos).symm⟩

namespace SlotState

/-- The offsets kept are ones that the accessor in force has given. -/
def Faithful (s : SlotState) : Prop :=
  ∀ t o, s.offsets t = some o →
    ∃ a, s.accessor = some a ∧ ∃ calls w, o = a.fieldOffset calls t w

variable {s : SlotState}

theorem faithful_initial : initial.Faithful := by
  intro t o h
  simp [initial] at h

theorem Faithful.install (h : s.Faithful) (a : SlotAccessor) : (s.install a).1.Faithful := by
  unfold SlotState.install
  split
  · exact h
  next hnone =>
    intro t o ho
    obtain ⟨b, hb, _⟩ := h t o ho
    rw [hnone] at hb
    simp at hb

/-- Once there are offsets, the accessor in force is the one that gave them. -/
theorem inForce_eq {a : SlotAccessor} (h : s.accessor = some a) : s.inForce = a := by
  rw [inForce, h, Option.getD_some]

theorem Faithful.called (h : s.Faithful) (c : SlotCall) : (s.called c).Faithful := by
  intro t o ho
  obtain ⟨a, ha, hoffset⟩ := h t o ho
  exact ⟨a, by rw [SlotState.called, inForce_eq ha], hoffset⟩

theorem Faithful.ask (h : s.Faithful) (b : Box) (w : WordWidth) : (s.ask b w).1.Faithful := by
  unfold SlotState.ask
  split
  · exact h.called _
  · unfold askField
    split
    next o ho =>
      intro t p hp
      obtain ⟨a, ha, hoffset⟩ := h t p hp
      exact ⟨a, by rw [inForce_eq ha], hoffset⟩
    next hnone =>
      intro t p hp
      dsimp only at hp
      split at hp
      next ht =>
        refine ⟨s.inForce, rfl, s.calls, w, ?_⟩
        rw [ht]
        exact (Option.some.inj hp).symm
      next ht => exact h.called (.fieldOffset b.type w) t p hp

/-- What the native accessor says, first or again. -/
theorem Faithful.ask_native (h : s.Faithful) (hnative : s.inForce = .native) (b : Box) (w : WordWidth) :
    (s.ask b w).2 = if b.view then BitVec.ofNat 64 (b.cell.index * w.bytes) else 0 := by
  unfold SlotState.ask
  split
  · simp only [askElement, hnative]
    rfl
  · unfold askField
    split
    next o ho =>
      obtain ⟨a, ha, calls, v, rfl⟩ := h _ _ ho
      rw [inForce_eq ha] at hnative
      rw [hnative]
      rfl
    · simp only [hnative]
      rfl

end SlotState

namespace Box
variable (b : Box) (m : Memory) (s : SlotState)

theorem volatileGet_of_none (h : b.type.wordWidth? = none) :
    b.volatileGet m s = (s, .error (.unsupported "volatile read" b.type.name)) := by
  simp only [volatileGet, h]

theorem volatileSet_of_none (h : b.type.wordWidth? = none) (p : Payload) :
    b.volatileSet m s p = (s, .error (.unsupported "volatile write" b.type.name)) := by
  simp only [volatileSet, h]

variable {b m s} {w : WordWidth} (hw : b.type.wordWidth? = some w)
include hw

theorem volatileGet_rejected (h : slotIndex? (s.ask b w).2 w (b.extent m w) = none) :
    b.volatileGet m s = ((s.ask b w).1, .error (b.slotFault (s.ask b w).2 w (b.extent m w))) := by
  simp only [volatileGet, slot, hw, h]

theorem volatileSet_rejected (h : slotIndex? (s.ask b w).2 w (b.extent m w) = none) (p : Payload) :
    b.volatileSet m s p = ((s.ask b w).1, .error (b.slotFault (s.ask b w).2 w (b.extent m w))) := by
  simp only [volatileSet, slot, hw, h]

theorem volatileGet_accepted {index : ℕ}
    (h : slotIndex? (s.ask b w).2 w (b.extent m w) = some index) :
    b.volatileGet m s = ((s.ask b w).1.called (.read (s.ask b w).2 w),
      .ok (.ofWord b.type (w.truncate (m.read ⟨b.cell.block, index⟩)))) := by
  simp only [volatileGet, slot, hw, h]

theorem volatileSet_accepted {index : ℕ}
    (h : slotIndex? (s.ask b w).2 w (b.extent m w) = some index) (p : Payload) :
    b.volatileSet m s p = ((s.ask b w).1.called (.write (s.ask b w).2 w p.toWord),
      .ok (m.write ⟨b.cell.block, index⟩ (w.truncate p.toWord))) := by
  simp only [volatileSet, slot, hw, h]

end Box

namespace SlotState
variable {s : SlotState} (h : s.Faithful) (b : Box) (m : Memory)
include h

theorem Faithful.volatileGet : (b.volatileGet m s).1.Faithful := by
  cases hw : b.type.wordWidth? with
  | none => rwa [b.volatileGet_of_none m s hw]
  | some w =>
    cases hslot : slotIndex? (s.ask b w).2 w (b.extent m w) with
    | none =>
      rw [Box.volatileGet_rejected hw hslot]
      exact h.ask b w
    | some index =>
      rw [Box.volatileGet_accepted hw hslot]
      exact (h.ask b w).called _

theorem Faithful.volatileSet (p : Payload) : (b.volatileSet m s p).1.Faithful := by
  cases hw : b.type.wordWidth? with
  | none => rwa [b.volatileSet_of_none m s hw]
  | some w =>
    cases hslot : slotIndex? (s.ask b w).2 w (b.extent m w) with
    | none =>
      rw [Box.volatileSet_rejected hw hslot]
      exact h.ask b w
    | some index =>
      rw [Box.volatileSet_accepted hw hslot]
      exact (h.ask b w).called _

end SlotState

end ManagedTypes
