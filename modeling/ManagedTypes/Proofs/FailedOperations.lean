import ManagedTypes.Proofs.VolatileBounds

/-! Operations that fail leave memory, arrays and boxes alone, and the operations that write fail in known
cases only. -/
namespace ManagedTypes

theorem PayloadType.code_inj {t u : PayloadType} : t.code = u.code ↔ t = u := by
  refine ⟨fun h => Option.some.inj ?_, congrArg code⟩
  rw [← ofCode?_code t, ← ofCode?_code u, h]

/-- Whatever is answered without success, nothing was written and nothing created. -/
theorem Event.sameStore_of_failed {e : Event} (h : ∀ a, e.reply ≠ .answer a) :
    e.before.SameStore e.after := by
  cases e.storeEffect with
  | stay hsame => exact hsame
  | write p hdestination cell value hblock hreply => exact absurd hreply (h _)
  | newArray type cells hfits hanew hreply => exact absurd hreply (h _)
  | shareArray source a hop hhandle hreply => exact absurd hreply (h _)
  | newBox p hanew hreply => exact absurd hreply (h _)
  | newView a ha index hlt hanew hreply => exact absurd hreply (h _)

namespace Session
variable {s : Session}

theorem SameStore.payloads {t : Session} (h : SameStore s t) :
    t.boxPayloads = s.boxPayloads ∧ t.arrayPayloads = s.arrayPayloads := by
  unfold boxPayloads arrayPayloads
  rw [h.memory, h.boxes, h.arrays]
  exact ⟨rfl, rfl⟩

theorem reply_arraySet {n : ℕ} {a : ArrayHandle} (harray : s.arrays[n]? = some a) (index : ℕ)
    {value : Payload} (htype : value.type = a.type) :
    (s.step (.array n (.set index value))).2 =
      if index < a.length s.memory then .answer .unit
      else .fault (.indexOutOfRange index (a.length s.memory)) := by
  simp only [step, harray, onArray, if_neg (not_ne_iff.mpr htype), ArrayHandle.set]
  by_cases hlt : index < a.length s.memory
  · simp only [if_pos hlt]
  · simp only [if_neg hlt]

section Box
variable {n : ℕ} {b : Box} (hbox : s.boxes[n]? = some b)
include hbox

theorem reply_update (u : BoxUpdate) : (s.step (.update n u)).2 = (s.update b u).2 := by
  simp only [step, onBox, hbox]

theorem reply_set {value : Payload} (htype : value.type = b.type) :
    (s.step (.update n (.set value))).2 = .answer .unit := by
  rw [reply_update hbox, update, if_pos htype]
  rfl

theorem reply_clear : (s.step (.update n .clear)).2 = .answer .unit := by
  rw [reply_update hbox]
  rfl

theorem reply_copyTo {m : ℕ} {c : Box} (hother : s.boxes[m]? = some c) (htype : c.type = b.type) :
    (s.step (.update n (.copyTo m))).2 = .answer .unit := by
  simp only [reply_update hbox, update, hother, if_pos htype]
  rfl

theorem reply_copyToObject {m : ℕ} {c : Box} (hother : s.boxes[m]? = some c) :
    (s.step (.update n (.copyToObject m))).2 =
      if c.type.code = b.type.code then .answer .unit
      else .fault (.noCast b.type.name c.type.name) := by
  simp only [reply_update hbox, update, hother, PayloadType.code_inj]
  split <;> rfl

theorem reply_setView {access : Access} (hwritable : access.writable = true) {value : Payload}
    (htype : value.type = access.type) :
    (s.step (.update n (.setView access value))).2 =
      if b.type.supports access then .answer .unit
      else .fault (.unsupported access.name b.type.name) := by
  have hguard : ¬ (!access.writable || value.type != access.type) = true := by simp [hwritable, htype]
  rw [reply_update hbox, update, if_neg hguard, Payload.throughView_eq_ite]
  rw [← b.get_type s.memory]
  by_cases hsupports : (b.get s.memory).type.supports access = true
  · rw [if_pos hsupports, if_pos hsupports]
    rfl
  · rw [if_neg hsupports, if_neg hsupports]

theorem reply_volatileSet (hc : s.Coherent) (hcompact : s.Compact) {value : Payload}
    (htype : value.type = b.type) :
    (s.step (.volatile n (.set value))).2 = match b.type.wordWidth? with
      | none => .fault (.unsupported "volatile write" b.type.name)
      | some w =>
        let offset := s.slots.offset b w
        let bytes := s.payloadBytes b
        if w.bytes ∣ offset.toNat ∧ offset.toNat + w.bytes ≤ bytes then .answer .unit
        else .fault (b.slotFault offset w bytes) := by
  cases hw : b.type.wordWidth? with
  | none =>
    simp only [step, onBox, hbox, volatile, if_neg (not_ne_iff.mpr htype),
      b.volatileSet_of_none s.memory s.slots hw]
  | some w =>
    have hb := List.mem_of_getElem? hbox
    have hextent := hcompact.extent_eq hb hw
    have hsmall := hc.payloadBytes_lt hb
    dsimp only
    split
    next hfits =>
      rw [← hextent] at hfits hsmall
      rw [step_set hbox hw (slotIndex?_eq_some_iff.mpr ⟨hfits, by omega, rfl⟩) htype]
    next hmisfit =>
      have hslot : slotIndex? (s.slots.offset b w) w (b.extent s.memory w) = none := by
        rw [hextent]
        exact (slotIndex?_eq_none_iff hsmall).mpr hmisfit
      rw [step_refused hbox hw hslot (v := .set value) (by rintro p ⟨⟩; exact htype), hextent]

end Box

/-- Failures in every session that has come about by operations, whichever formatter and accessor were
installed. A reply that is no answer goes with a store left as it was. Given what they are typed for, the
operations that write either succeed or fail for the one reason stated. -/
theorem failure_keeps_store (os : List Operation) :
    let s := (initial.run os).1
    let reply (o : Operation) := (s.step o).2
    (∀ o, (∀ a, reply o ≠ .answer a) →
      let t := (s.step o).1
      s.SameStore t ∧ t.boxPayloads = s.boxPayloads ∧ t.arrayPayloads = s.arrayPayloads) ∧
    (∀ (n : ℕ) a, s.arrays[n]? = some a → ∀ index (value : Payload), value.type = a.type →
      reply (.array n (.set index value)) =
        if index < a.length s.memory then .answer .unit
        else .fault (.indexOutOfRange index (a.length s.memory))) ∧
    ∀ (n : ℕ) b, s.boxes[n]? = some b →
      (∀ value : Payload, value.type = b.type → reply (.update n (.set value)) = .answer .unit) ∧
      reply (.update n .clear) = .answer .unit ∧
      (∀ (m : ℕ) c, s.boxes[m]? = some c →
        (c.type = b.type → reply (.update n (.copyTo m)) = .answer .unit) ∧
        reply (.update n (.copyToObject m)) =
          if c.type.code = b.type.code then .answer .unit
          else .fault (.noCast b.type.name c.type.name)) ∧
      (∀ access : Access, access.writable = true → ∀ value : Payload, value.type = access.type →
        reply (.update n (.setView access value)) =
          if b.type.supports access then .answer .unit
          else .fault (.unsupported access.name b.type.name)) ∧
      ∀ value : Payload, value.type = b.type →
        reply (.volatile n (.set value)) = match b.type.wordWidth? with
          | none => .fault (.unsupported "volatile write" b.type.name)
          | some w =>
            let offset := s.slots.offset b w
            let bytes := s.payloadBytes b
            if w.bytes ∣ offset.toNat ∧ offset.toNat + w.bytes ≤ bytes then .answer .unit
            else .fault (b.slotFault offset w bytes) := by
  intro s reply
  have hc : s.Coherent := coherent_initial.run os
  have hcompact : s.Compact := compact_initial.run coherent_initial os
  refine ⟨fun o ho => ?_, fun n a harray index value htype => reply_arraySet harray index htype,
    fun n b hbox => ⟨fun value htype => reply_set hbox htype, reply_clear hbox, fun m c hother => ?_,
      fun access hwritable value htype => reply_setView hbox hwritable htype,
      fun value htype => reply_volatileSet hbox hc hcompact htype⟩⟩
  · have hsame : s.SameStore (s.step o).1 := Event.sameStore_of_failed (e := ⟨s, o⟩) ho
    exact ⟨hsame, hsame.payloads⟩
  · exact ⟨reply_copyTo hbox hother, reply_copyToObject hbox hother⟩

end Session

end ManagedTypes
