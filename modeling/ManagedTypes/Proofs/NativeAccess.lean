import ManagedTypes.Proofs.BitViews
import ManagedTypes.Proofs.SlotHistory

/-! Volatile access to whole words refines plain access where the native accessor is in force: it reads and
writes the cell that plain access does, and only what is kept of the accessor tells the two apart. -/
namespace ManagedTypes

theorem PayloadType.exists_wordWidth {t : PayloadType} (h : t.width = 32 ∨ t.width = 64) :
    ∃ w, t.wordWidth? = some w ∧ 8 * w.bytes = t.width := by
  rcases h with h | h
  · exact ⟨.w32, by simp only [wordWidth?, h], h.symm⟩
  · exact ⟨.w64, by simp only [wordWidth?, h], h.symm⟩

theorem PayloadType.wordWidth?_of_narrow {t : PayloadType} (h : t.width = 8 ∨ t.width = 16) :
    t.wordWidth? = none := by
  rcases h with h | h <;> simp only [wordWidth?, h]

/-- Plain access in place of volatile access. -/
def Volatile.plain (box : ℕ) : Volatile → Operation
  | get => .query box .get
  | set p => .update box (.set p)

/-- Whether the operation installs a slot accessor or asks what the one in force was called for. -/
def Operation.onSlots : Operation → Bool
  | install (.slots _) | slotCalls => true
  | _ => false

theorem Volatile.onSlots_plain (box : ℕ) (v : Volatile) : (v.plain box).onSlots = false := by
  cases v <;> rfl

theorem Volatile.plain_ne_volatile {box n : ℕ} {v w : Volatile} : v.plain box ≠ .volatile n w := by
  cases v <;> simp [plain]

namespace Session
variable {s t : Session} {box : ℕ} {b : Box} {w : WordWidth}

/-- The native accessor gives the offset of the box's cell, computed without wrapping around. -/
theorem Coherent.offset_native (hc : s.Coherent) (hb : b ∈ s.boxes) (hw : b.type.wordWidth? = some w)
    (hf : s.slots.Faithful) (hnative : s.slots.inForce = .native) :
    (s.slots.offset b w).toNat = b.cell.index * w.bytes := by
  have hend := hc.word_end_lt hb hw
  rw [← SlotState.ask_offset, hc.ask_native hb hf hnative, BitVec.toNat_ofNat]
  exact Nat.mod_eq_of_lt (by omega)

/-! What has nothing to do with the accessor neither asks it nor depends on it. -/
section Frame
variable (s) (slots : SlotState)

theorem create_withSlots (c : Creation) :
    create { s with slots } c = ({ (s.create c).1 with slots }, (s.create c).2) := by
  cases c <;> simp only [create, allocateArray] <;> (repeat' split) <;> rfl

theorem onArray_withSlots (a : ArrayHandle) (o : ArrayOperation) :
    onArray { s with slots } a o = ({ (s.onArray a o).1 with slots }, (s.onArray a o).2) := by
  cases o <;> simp only [onArray] <;> (repeat' split) <;> rfl

theorem update_withSlots (b : Box) (u : BoxUpdate) :
    update { s with slots } b u = ({ (s.update b u).1 with slots }, (s.update b u).2) := by
  cases u <;> simp only [update] <;> (repeat' split) <;> rfl

theorem write_withSlots (b : Box) (t : BoxText) :
    write { s with slots } b t = ({ (s.write b t).1 with slots }, (s.write b t).2) := by
  cases t with
  | display | format => rfl
  | convert target =>
    simp only [write]
    split <;> rfl

theorem onBox_withSlots (box : ℕ) {f g : Box → Session × Reply}
    (h : ∀ b, s.boxes[box]? = some b → g b = ({ (f b).1 with slots }, (f b).2)) :
    onBox { s with slots } box g = ({ (s.onBox box f).1 with slots }, (s.onBox box f).2) := by
  simp only [onBox]
  split
  next b hbox => exact h b hbox
  · rfl

theorem step_withSlots {o : Operation} (hslots : o.onSlots = false)
    (hvolatile : ∀ box v, o ≠ .volatile box v) :
    step { s with slots } o = ({ (s.step o).1 with slots }, (s.step o).2) := by
  cases o with
  | create c => exact s.create_withSlots slots c
  | array n o =>
    simp only [step]
    split
    · exact s.onArray_withSlots slots _ o
    · rfl
  | query box q => exact s.onBox_withSlots slots box fun b _ => rfl
  | update box u => exact s.onBox_withSlots slots box fun b _ => s.update_withSlots slots b u
  | text box t => exact s.onBox_withSlots slots box fun b _ => s.write_withSlots slots b t
  | volatile box v => exact absurd rfl (hvolatile box v)
  | install i =>
    cases i with
    | formatter f recording => rfl
    | options document =>
      simp only [step, install]
      split <;> rfl
    | slots a => cases hslots
  | formatterLog => rfl
  | slotCalls => cases hslots

end Frame

theorem step_onBox (hbox : s.boxes[box]? = some b) (v : Volatile) :
    s.step (.volatile box v) = s.volatile b v := by
  simp only [step, onBox, hbox]

/-- A payload with no word of its own is refused before the accessor is asked. -/
theorem volatile_narrow (hw : b.type.wordWidth? = none) (v : Volatile) :
    s.volatile b v = (s, match v with
      | .get => .fault (.unsupported "volatile read" b.type.name)
      | .set p =>
        if p.type = b.type then .fault (.unsupported "volatile write" b.type.name) else .illFormed) := by
  cases v with
  | get =>
    rw [volatile, b.volatileGet_of_none s.memory s.slots hw]
    rfl
  | set p =>
    by_cases hp : p.type = b.type
    · simp only [volatile, if_neg (not_ne_iff.mpr hp), b.volatileSet_of_none s.memory s.slots hw,
        if_pos hp]
    · simp only [volatile, ne_eq, if_pos hp, if_neg hp]

/-- A session whose store is coherent, with the native accessor in force. -/
structure Native (s : Session) : Prop where
  coherent : s.Coherent
  faithful : s.slots.Faithful
  inForce : s.slots.inForce = .native

theorem native_run (os : List Operation) (h : (initial.run os).1.slots.inForce = .native) :
    (initial.run os).1.Native :=
  ⟨coherent_initial.run os, faithful_run SlotState.faithful_initial os, h⟩

namespace Native
variable (h : s.Native)
include h

theorem slotIndex? (hb : b ∈ s.boxes) (hw : b.type.wordWidth? = some w) :
    slotIndex? (s.slots.offset b w) w (b.extent s.memory w) = some b.cell.index := by
  rw [← SlotState.ask_offset]
  exact h.coherent.slotIndex?_ask hb h.faithful h.inForce hw

/-- Only an installation could put another accessor in force. -/
theorem step {o : Operation} (ho : o.onSlots = false) : (s.step o).1.Native := by
  refine ⟨Coherent.event (e := ⟨s, o⟩) h.coherent, faithful_step h.faithful o, ?_⟩
  cases Event.slotEffect ⟨s, o⟩ with
  | access a haccess hinstalls hfixes haccessor =>
    exact (SlotState.inForce_eq haccessor).trans h.inForce
  | install a hop | refused a hop =>
    obtain rfl : o = .install (.slots a) := hop
    cases ho
  | idle haccess hop hinstalls hfixes hslots => exact (congrArg SlotState.inForce hslots).trans h.inForce

/-- Volatile access to a whole word leads where plain access does. -/
theorem step_volatile (hbox : s.boxes[box]? = some b) (hw : b.type.wordWidth? = some w)
    (v : Volatile) : ∃ slots : SlotState, s.step (.volatile box v) =
      ({ (s.step (v.plain box)).1 with slots }, (s.step (v.plain box)).2) := by
  have hslot := h.slotIndex? (List.mem_of_getElem? hbox) hw
  cases v with
  | get =>
    rw [step_get hbox hw hslot, Volatile.plain, step_query hbox]
    exact ⟨_, rfl⟩
  | set p =>
    by_cases hp : p.type = b.type
    · have hplain : s.step (.update box (.set p)) = s.store b p := by
        simp only [Session.step, onBox, hbox, update, if_pos hp]
      rw [step_set hbox hw hslot hp, Volatile.plain, hplain]
      exact ⟨_, rfl⟩
    · refine ⟨s.slots, ?_⟩
      simp only [Volatile.plain, Session.step, onBox, hbox, volatile, update, ne_eq, hp,
        not_false_eq_true, if_true, if_false]

end Native

/-- The operation with plain access in place of volatile access to a whole word. -/
def plainOf (s : Session) : Operation → Operation
  | .volatile box v =>
    if ((s.boxType? box).bind PayloadType.wordWidth?).isSome then v.plain box else .volatile box v
  | o => o

/-- A run with plain access in place of volatile access to whole words. -/
def plainRun (s : Session) : List Operation → Session × List Reply
  | [] => (s, [])
  | o :: rest =>
    let (s, r) := s.step (s.plainOf o)
    let (s, rs) := s.plainRun rest
    (s, r :: rs)

theorem plainOf_of_ne {o : Operation} (h : ∀ box v, o ≠ .volatile box v) : s.plainOf o = o := by
  cases o with
  | volatile box v => exact absurd rfl (h box v)
  | _ => rfl

/-- One operation, in sessions that only what is kept of the accessor tells apart. -/
theorem Native.step_plainOf (h : s.Native) (slots : SlotState) {o : Operation}
    (ho : o.onSlots = false) :
    let t := { s with slots }
    t.step (t.plainOf o) = ({ (s.step o).1 with slots }, (s.step o).2) := by
  intro t
  by_cases hvolatile : ∀ box v, o ≠ .volatile box v
  · rw [plainOf_of_ne hvolatile]
    exact s.step_withSlots slots ho hvolatile
  · push Not at hvolatile
    obtain ⟨box, v, rfl⟩ := hvolatile
    have hplain : t.plainOf (.volatile box v) =
        if ((s.boxType? box).bind PayloadType.wordWidth?).isSome then v.plain box
        else .volatile box v := rfl
    rw [hplain]
    cases hword : (s.boxType? box).bind PayloadType.wordWidth? with
    | none =>
      rw [Option.isSome_none, if_neg Bool.false_ne_true]
      refine s.onBox_withSlots slots box fun b hbox => ?_
      rw [boxType?, hbox] at hword
      rw [volatile_narrow hword, volatile_narrow hword]
    | some w =>
      rw [Option.isSome_some, if_pos rfl]
      obtain ⟨type, htype, hw⟩ := Option.bind_eq_some_iff.mp hword
      obtain ⟨b, hbox, rfl⟩ := Option.map_eq_some_iff.mp htype
      obtain ⟨kept, hstep⟩ := h.step_volatile hbox hw v
      rw [hstep]
      exact s.step_withSlots slots (v.onSlots_plain box) fun _ _ => Volatile.plain_ne_volatile

/-- A process that never asks about the accessor cannot tell volatile access to whole words from plain
access, whatever it does in whatever order. -/
theorem Native.plainRun_withSlots {os : List Operation} (hos : ∀ o ∈ os, o.onSlots = false)
    (h : s.Native) (slots : SlotState) :
    plainRun { s with slots } os = ({ (s.run os).1 with slots }, (s.run os).2) := by
  induction os generalizing s with
  | nil => rfl
  | cons o os ih =>
    obtain ⟨ho, hrest⟩ := List.forall_mem_cons.mp hos
    simp only [plainRun, run, h.step_plainOf slots ho, ih hrest (h.step ho)]

/-- Volatile access in every session that has come about by operations and has the native accessor in force,
to a box of its own payload or a view of any element of any array. The offset of a whole word is that of
the box's cell, computed without wrapping around, aligned and never refused; reading gives the payload and
writing succeeds, and either leads where plain access does but for what is kept of the accessor, in one
operation as in all that follow. Narrower payloads are refused. -/
theorem volatile_refines_plain (os : List Operation)
    (hnative : (initial.run os).1.slots.inForce = .native) {box : ℕ} {b : Box}
    (hbox : (initial.run os).1.boxes[box]? = some b) :
    let s := (initial.run os).1
    let t := b.type
    (t.width = 32 ∨ t.width = 64 →
      (∃ w, t.wordWidth? = some w ∧ 8 * w.bytes = t.width ∧
        let offset := s.slots.offset b w
        offset.toNat = b.cell.index * w.bytes ∧ w.bytes ∣ offset.toNat ∧
          offset.toNat + w.bytes ≤ s.payloadBytes b ∧
          slotIndex? offset w (b.extent s.memory w) = some b.cell.index) ∧
      (s.step (.volatile box .get)).2 = .answer (.payload (b.get s.memory)) ∧
      (∀ p : Payload, p.type = t → (s.step (.volatile box (.set p))).2 = .answer .unit) ∧
      ∀ v : Volatile, ∃ slots : SlotState, slots.inForce = .native ∧
        s.step (.volatile box v) =
          ({ (s.step (v.plain box)).1 with slots }, (s.step (v.plain box)).2)) ∧
    (t.width = 8 ∨ t.width = 16 →
      s.step (.volatile box .get) = (s, .fault (.notSupported ("volatile read" ++ " on " ++ t.name))) ∧
      ∀ p : Payload, p.type = t → s.step (.volatile box (.set p)) =
        (s, .fault (.notSupported ("volatile write" ++ " on " ++ t.name)))) ∧
    ∀ ps : List Operation, (∀ o ∈ ps, o.onSlots = false) →
      s.plainRun ps = ({ (s.run ps).1 with slots := s.slots }, (s.run ps).2) := by
  intro s t
  have h : s.Native := native_run os hnative
  have hb : b ∈ s.boxes := List.mem_of_getElem? hbox
  refine ⟨fun hwide => ?_, fun hnarrow => ?_, fun ps hps => h.plainRun_withSlots hps s.slots⟩
  · obtain ⟨w, hw, hbits⟩ := PayloadType.exists_wordWidth hwide
    have hoffset := h.coherent.offset_native hb hw h.faithful h.inForce
    refine ⟨⟨w, hw, hbits, hoffset, ?_, ?_, h.slotIndex? hb hw⟩, ?_, fun p hp => ?_, fun v => ?_⟩
    · rw [hoffset]
      exact Nat.dvd_mul_left ..
    · rw [hoffset, ← (compact_initial.run coherent_initial os).extent_eq hb hw]
      exact h.coherent.word_end_le hb w
    · rw [step_get hbox hw (h.slotIndex? hb hw)]
      rfl
    · rw [step_set hbox hw (h.slotIndex? hb hw) hp]
    · obtain ⟨slots, hstep⟩ := h.step_volatile hbox hw v
      refine ⟨slots, ?_, hstep⟩
      have hafter : (s.step (.volatile box v)).1.Native := h.step rfl
      rw [hstep] at hafter
      exact hafter.inForce
  · have hw := PayloadType.wordWidth?_of_narrow hnarrow
    refine ⟨?_, fun p hp => ?_⟩
    · rw [step_onBox hbox, volatile_narrow hw]
      rfl
    · rw [step_onBox hbox, volatile_narrow hw]
      exact congrArg (Prod.mk s) (if_pos hp)

/-- A view of the last of three doubles. -/
def lastOfThree : List Operation :=
  [.create (.arrayNew .double 3), .create (.inArray 0 2)]

/-- Its word is the one at byte 16, and the last that there is. -/
theorem volatile_refines_plain_last :
    let s := (initial.run lastOfThree).1
    let b : Box := ⟨.double, ⟨0, 2⟩, true⟩
    s.slots.inForce = .native ∧ s.boxes[0]? = some b ∧
      ∃ w, b.type.wordWidth? = some w ∧ (s.slots.offset b w).toNat = 2 * w.bytes ∧
        (s.slots.offset b w).toNat + w.bytes ≤ s.payloadBytes b := by
  intro s b
  have hbox : s.boxes[0]? = some b := rfl
  obtain ⟨hwide, -⟩ := volatile_refines_plain lastOfThree rfl hbox
  obtain ⟨⟨w, hw, -, hoffset, -, hend, -⟩, -⟩ := hwide (.inr rfl)
  exact ⟨rfl, hbox, w, hw, hoffset, hend⟩

end Session

end ManagedTypes
