import ManagedTypes.Proofs.SessionTrace
import ManagedTypes.Proofs.VolatileBounds

/-! The slot accessor over whole runs. An installation or the first volatile access to a whole word fixes
it; its offset for the payloads of a type is asked for once, an element's each time, and every word that is
moved is moved by one call. -/
namespace ManagedTypes

/-- A volatile access to a payload that fills a word, with what it writes, if anything. -/
structure WordAccess where
  box : Box
  width : WordWidth
  value : Option Payload

namespace WordAccess

/-- Whether it is a payload of the type, in the box itself, that is accessed. -/
def ofField (a : WordAccess) (t : PayloadType) : Bool := !a.box.view && a.box.type == t

def volatile (a : WordAccess) : Volatile :=
  match a.value with
  | none => .get
  | some p => .set p

/-- The call that moves the word. -/
def move (a : WordAccess) (offset : Word) : SlotCall :=
  match a.value with
  | none => .read offset a.width
  | some p => .write offset a.width p.toWord

end WordAccess

namespace SlotCall

def isFieldOf (t : PayloadType) : SlotCall → Bool
  | fieldOffset u _ => u == t
  | _ => false

def isElement : SlotCall → Bool
  | elementOffset .. => true
  | _ => false

def isRead : SlotCall → Bool
  | read .. => true
  | _ => false

def isWrite : SlotCall → Bool
  | write .. => true
  | _ => false

end SlotCall

namespace SlotState
variable (s : SlotState) (b : Box) (w : WordWidth)

/-- What is asked of the accessor before an access. -/
def asked (s : SlotState) (b : Box) (w : WordWidth) : List SlotCall :=
  if b.view then [.elementOffset w b.cell.index]
  else if (s.offsets b.type).isSome then []
  else [.fieldOffset b.type w]

theorem ask_accessor : (s.ask b w).1.accessor = some s.inForce := by
  unfold ask
  split
  · rfl
  · unfold askField
    split <;> rfl

theorem ask_calls : (s.ask b w).1.calls = s.calls ++ s.asked b w := by
  unfold ask asked
  split
  · rfl
  · unfold askField
    cases s.offsets b.type with
    | some o => exact (List.append_nil _).symm
    | none => rfl

theorem ask_offsets (t : PayloadType) :
    (s.ask b w).1.offsets t =
      if b.view = false ∧ b.type = t then some (s.offset b w) else s.offsets t := by
  unfold ask offset
  cases b.view with
  | true => rfl
  | false =>
    simp only [Bool.false_eq_true, if_false, true_and]
    unfold askField
    cases h : s.offsets b.type with
    | some o =>
      by_cases heq : b.type = t
      · rw [if_pos heq]
        exact heq ▸ h
      · rw [if_neg heq]
    | none => simp only [Option.getD_none, eq_comm (a := t)]

/-- Asking moves no word. -/
theorem countP_asked {q : SlotCall → Bool} (hq : ∀ c, c.moves = false → q c = false) :
    (s.asked b w).countP q = 0 := by
  rw [List.countP_eq_zero]
  intro c hc
  rw [hq c, Bool.not_eq_true]
  unfold asked at hc
  repeat' split at hc
  all_goals simp_all [SlotCall.moves]

end SlotState

namespace Event

/-- The access to a whole word that the operation is. -/
def access? (e : Event) : Option WordAccess :=
  match e.operation with
  | .volatile box v => e.before.boxes[box]?.bind fun b => b.type.wordWidth?.bind fun w =>
    match v with
    | .get => some ⟨b, w, none⟩
    | .set p => if p.type = b.type then some ⟨b, w, some p⟩ else none
  | _ => none

theorem access_spec {e : Event} {a : WordAccess} (h : e.access? = some a) :
    ∃ box, e.operation = .volatile box a.volatile ∧ e.before.boxes[box]? = some a.box ∧
      a.box.type.wordWidth? = some a.width ∧ ∀ p, a.value = some p → p.type = a.box.type := by
  unfold access? at h
  split at h
  next box v heq =>
    obtain ⟨b, hbox, h⟩ := Option.bind_eq_some_iff.mp h
    obtain ⟨w, hw, h⟩ := Option.bind_eq_some_iff.mp h
    cases v with
    | get =>
      obtain rfl := Option.some.inj h
      exact ⟨box, heq, hbox, hw, by simp⟩
    | set p =>
      obtain ⟨htype, h⟩ := Option.ite_none_right_eq_some.mp h
      obtain rfl := Option.some.inj h
      exact ⟨box, heq, hbox, hw, by simpa using htype⟩
  · cases h

/-- Whether the operation was answered without a fault. -/
def accepted (e : Event) : Bool :=
  match e.reply with
  | .answer _ => true
  | _ => false

/-- An access asks for its offset, and moves the word if the offset leads to one. -/
theorem access_after {e : Event} {a : WordAccess} (h : e.access? = some a) :
    let offset := e.before.slots.offset a.box a.width
    let extent := a.box.extent e.before.memory a.width
    let asked := (e.before.slots.ask a.box a.width).1
    ((slotIndex? offset a.width extent).isSome ∧ e.accepted = true ∧
      e.after.slots = asked.called (a.move offset)) ∨
    (slotIndex? offset a.width extent = none ∧ e.accepted = false ∧ e.after.slots = asked ∧
      e.reply = .fault (a.box.slotFault offset a.width extent)) := by
  intro offset extent asked
  obtain ⟨box, hop, hbox, hw, htyped⟩ := access_spec h
  obtain ⟨s, o⟩ := e
  obtain rfl : o = .volatile box a.volatile := hop
  cases hslot : slotIndex? offset a.width extent with
  | some index =>
    refine .inl ⟨rfl, ?_⟩
    obtain ⟨b, w, value⟩ := a
    cases value with
    | none =>
      have hstep := Session.step_get hbox hw hslot
      exact ⟨by simp only [accepted, reply, WordAccess.volatile, hstep],
        by simp only [after, WordAccess.volatile, hstep]; rfl⟩
    | some p =>
      have hstep := Session.step_set hbox hw hslot (htyped p rfl)
      exact ⟨by simp only [accepted, reply, WordAccess.volatile, hstep],
        by simp only [after, WordAccess.volatile, hstep]; rfl⟩
  | none =>
    have hv : ∀ p, a.volatile = .set p → p.type = a.box.type := by
      obtain ⟨b, w, value⟩ := a
      cases value with
      | none => intro p hp; cases hp
      | some q => intro p hp; cases hp; exact htyped _ rfl
    have hstep := Session.step_refused hbox hw hslot hv
    exact .inr ⟨rfl, by simp only [accepted, reply, hstep], by simp only [after, hstep]; rfl,
      by simp only [reply, hstep]; rfl⟩

/-- Whether a payload of the type is accessed in the box itself. -/
def accessesField (t : PayloadType) (e : Event) : Bool := e.access?.any (·.ofField t)

/-- Whether an element of an array is accessed. -/
def accessesElement (e : Event) : Bool := e.access?.any (·.box.view)

/-- Whether a word is read. -/
def reads (e : Event) : Bool := e.accepted && e.access?.any (·.value.isNone)

/-- Whether a word is written. -/
def writes (e : Event) : Bool := e.accepted && e.access?.any (·.value.isSome)

/-- Whether the operation has installed an accessor. -/
def installsSlots (e : Event) : Bool :=
  match e.operation, e.reply with
  | .install (.slots _), .answer (.truth done) => done
  | _, _ => false

/-- The accessor that is in force from the event on, where none was before. -/
def fixesSlots? (e : Event) : Option SlotAccessor :=
  match e.operation with
  | .install (.slots a) => if e.installsSlots then some a else none
  | _ => e.access?.map fun _ => .native

/-- What an event does about the accessor: it is an access, installs an accessor, tries to install one where
there is one already, or has nothing to do with it. -/
inductive SlotEffect (e : Event) : Prop
  | access (a : WordAccess) (access : e.access? = some a) (installs : e.installsSlots = false)
      (fixes : e.fixesSlots? = some .native)
      (accessor : e.after.slots.accessor = some e.before.slots.inForce)
      (offsets : ∀ t, e.after.slots.offsets t =
        if a.ofField t then some (e.before.slots.offset a.box a.width) else e.before.slots.offsets t)
      (calls : e.after.slots.calls = e.before.slots.calls ++ e.before.slots.asked a.box a.width ++
        if e.accepted then [a.move (e.before.slots.offset a.box a.width)] else [])
  | install (a : SlotAccessor) (operation : e.operation = .install (.slots a))
      (access : e.access? = none) (installs : e.installsSlots = true) (fixes : e.fixesSlots? = some a)
      (free : e.before.slots.accessor = none)
      (slots : e.after.slots = { e.before.slots with accessor := some a, installed := true })
      (reply : e.reply = .answer (.truth true))
  | refused (a : SlotAccessor) (operation : e.operation = .install (.slots a))
      (access : e.access? = none) (installs : e.installsSlots = false) (fixes : e.fixesSlots? = none)
      (taken : e.before.slots.accessor ≠ none) (after : e.after = e.before)
      (reply : e.reply = .answer (.truth false))
  | idle (access : e.access? = none) (operation : ∀ a, e.operation ≠ .install (.slots a))
      (installs : e.installsSlots = false) (fixes : e.fixesSlots? = none)
      (slots : e.after.slots = e.before.slots)

variable {s : Session}

theorem slotEffect_access {e : Event} {a : WordAccess} (h : e.access? = some a) : e.SlotEffect := by
  obtain ⟨box, hop, -, -, -⟩ := access_spec h
  have hinstalls : e.installsSlots = false := by simp only [installsSlots, hop]
  have hfixes : e.fixesSlots? = some .native := by simp only [fixesSlots?, hop, h, Option.map_some]
  have hfield (t : PayloadType) :
      a.ofField t = true ↔ a.box.view = false ∧ a.box.type = t := by simp [WordAccess.ofField]
  have hoffsets (t : PayloadType) : (e.before.slots.ask a.box a.width).1.offsets t =
      if a.ofField t then some (e.before.slots.offset a.box a.width) else e.before.slots.offsets t := by
    rw [SlotState.ask_offsets]
    simp only [hfield]
  have haccessor := e.before.slots.ask_accessor a.box a.width
  have hcalls := e.before.slots.ask_calls a.box a.width
  rcases access_after h with ⟨-, haccepted, hslots⟩ | ⟨-, haccepted, hslots, -⟩
  · refine .access a h hinstalls hfixes ?_ (fun t => ?_) ?_
    · rw [hslots, SlotState.called, SlotState.inForce_eq haccessor]
    · rw [hslots]
      exact hoffsets t
    · rw [hslots, haccepted, if_pos rfl, ← hcalls]
      rfl
  · refine .access a h hinstalls hfixes (by rw [hslots, haccessor]) (fun t => ?_) ?_
    · rw [hslots, hoffsets]
    · rw [hslots, haccepted, if_neg Bool.false_ne_true, List.append_nil, hcalls]

theorem slotEffect_install (a : SlotAccessor) : SlotEffect ⟨s, .install (.slots a)⟩ := by
  cases haccessor : s.slots.accessor with
  | none =>
    have hstep : s.step (.install (.slots a)) =
        ({ s with slots := { s.slots with accessor := some a, installed := true } },
          .answer (.truth true)) := by
      simp only [Session.step, Session.install, SlotState.install, haccessor]
    have hinstalls : installsSlots ⟨s, .install (.slots a)⟩ = true := by
      simp only [installsSlots, reply, hstep]
    exact .install a rfl rfl hinstalls (if_pos hinstalls) haccessor (by rw [after, hstep])
      (by rw [reply, hstep])
  | some b =>
    have hstep : s.step (.install (.slots a)) = (s, .answer (.truth false)) := by
      simp only [Session.step, Session.install, SlotState.install, haccessor]
    have hinstalls : installsSlots ⟨s, .install (.slots a)⟩ = false := by
      simp only [installsSlots, reply, hstep]
    exact .refused a rfl rfl hinstalls (if_neg (by rw [hinstalls]; decide)) (by simp [haccessor])
      (by rw [after, hstep]) (by rw [reply, hstep])

/-- Volatile operations that are no access to a whole word change nothing. -/
theorem volatile_of_no_access {box : ℕ} {v : Volatile} (h : access? ⟨s, .volatile box v⟩ = none) :
    (s.step (.volatile box v)).1 = s := by
  simp only [Session.step, Session.onBox]
  cases hbox : s.boxes[box]? with
  | none => rfl
  | some b =>
    simp only [access?, hbox, Option.bind_some] at h
    cases hw : b.type.wordWidth? with
    | none =>
      cases v with
      | get => simp only [Session.volatile, b.volatileGet_of_none s.memory s.slots hw]
      | set p =>
        simp only [Session.volatile, b.volatileSet_of_none s.memory s.slots hw]
        split <;> rfl
    | some w =>
      rw [hw] at h
      cases v with
      | get => cases h
      | set p =>
        have htype : p.type ≠ b.type := fun htype => by simp [htype] at h
        simp only [Session.volatile, if_pos htype]

/-- Each event does one of the four. -/
theorem slotEffect (e : Event) : e.SlotEffect := by
  obtain ⟨s, o⟩ := e
  have hidle {o : Operation} (haccess : access? ⟨s, o⟩ = none) (hop : ∀ a, o ≠ .install (.slots a))
      (hinstalls : installsSlots ⟨s, o⟩ = false) (hfixes : fixesSlots? ⟨s, o⟩ = none)
      (hslots : (s.step o).1.slots = s.slots) : SlotEffect ⟨s, o⟩ :=
    .idle haccess hop hinstalls hfixes hslots
  cases o with
  | create c => exact hidle rfl (by simp) rfl rfl (s.services_create c).slots
  | array n o => exact hidle rfl (by simp) rfl rfl (s.services_array n o).slots
  | query n q => exact hidle rfl (by simp) rfl rfl (s.services_query n q).slots
  | update n u => exact hidle rfl (by simp) rfl rfl (s.services_update n u).slots
  | text n t => exact hidle rfl (by simp) rfl rfl (s.slots_text n t)
  | volatile box v =>
    cases haccess : access? ⟨s, .volatile box v⟩ with
    | some a => exact slotEffect_access haccess
    | none =>
      have hfixes : fixesSlots? ⟨s, .volatile box v⟩ = none := by
        simp only [fixesSlots?, haccess, Option.map_none]
      exact hidle haccess (by simp) rfl hfixes (congrArg Session.slots (volatile_of_no_access haccess))
  | install i =>
    cases i with
    | slots a => exact slotEffect_install a
    | formatter f recording => exact hidle rfl (by simp) rfl rfl rfl
    | options document =>
      refine hidle rfl (by simp) rfl rfl ?_
      simp only [Session.step, Session.install]
      split <;> rfl
  | formatterLog => exact hidle rfl (by simp) rfl rfl rfl
  | slotCalls => exact hidle rfl (by simp) rfl rfl rfl

theorem fixesSlots?_eq_none_iff (e : Event) :
    e.fixesSlots? = none ↔ e.installsSlots = false ∧ e.access? = none := by
  cases e.slotEffect with
  | access a haccess hinstalls hfixes => simp [haccess, hfixes]
  | install a hop haccess hinstalls hfixes => simp [hinstalls, hfixes]
  | refused a hop haccess hinstalls hfixes | idle haccess hop hinstalls hfixes =>
    simp [haccess, hinstalls, hfixes]

/-- The accessor in force stays in force. -/
theorem accessor_after (e : Event) :
    e.after.slots.accessor = e.before.slots.accessor.or e.fixesSlots? := by
  cases e.slotEffect with
  | access a haccess hinstalls hfixes haccessor =>
    rw [haccessor, hfixes, SlotState.inForce]
    cases e.before.slots.accessor <;> rfl
  | install a hop haccess hinstalls hfixes hfree hslots => rw [hslots, hfree, hfixes, Option.none_or]
  | refused a hop haccess hinstalls hfixes htaken hafter => rw [hafter, hfixes, Option.or_none]
  | idle haccess hop hinstalls hfixes hslots => rw [hslots, hfixes, Option.or_none]

/-- The calls that the event makes. -/
def slotCalls (e : Event) : List SlotCall :=
  match e.access? with
  | some a => e.before.slots.asked a.box a.width ++
      if e.accepted then [a.move (e.before.slots.offset a.box a.width)] else []
  | none => []

theorem slotCalls_after (e : Event) :
    e.after.slots.calls = e.before.slots.calls ++ e.slotCalls := by
  cases e.slotEffect with
  | access a haccess hinstalls hfixes haccessor hoffsets hcalls =>
    simp only [slotCalls, haccess, hcalls, List.append_assoc]
  | install a hop haccess hinstalls hfixes hfree hslots => simp [slotCalls, haccess, hslots]
  | refused a hop haccess hinstalls hfixes htaken hafter => simp [slotCalls, haccess, hafter]
  | idle haccess hop hinstalls hfixes hslots => simp [slotCalls, haccess, hslots]

/-- An offset once given for a type is kept. -/
theorem isSome_offsets_after (e : Event) (t : PayloadType) :
    (e.after.slots.offsets t).isSome = ((e.before.slots.offsets t).isSome || e.accessesField t) := by
  cases e.slotEffect with
  | access a haccess hinstalls hfixes haccessor hoffsets =>
    rw [hoffsets, accessesField, haccess, Option.any_some]
    cases a.ofField t <;> simp
  | install a hop haccess hinstalls hfixes hfree hslots => simp [accessesField, haccess, hslots]
  | refused a hop haccess hinstalls hfixes htaken hafter => simp [accessesField, haccess, hafter]
  | idle haccess hop hinstalls hfixes hslots => simp [accessesField, haccess, hslots]

section Counts
variable (e : Event)

theorem countP_slotCalls (q : SlotCall → Bool) :
    e.slotCalls.countP q = match e.access? with
      | some a => (e.before.slots.asked a.box a.width).countP q +
          if e.accepted && q (a.move (e.before.slots.offset a.box a.width)) then 1 else 0
      | none => 0 := by
  unfold slotCalls
  cases e.access? with
  | none => rfl
  | some a => cases e.accepted <;> simp [List.countP_append]

theorem count_element :
    e.slotCalls.countP SlotCall.isElement = if e.accessesElement then 1 else 0 := by
  rw [countP_slotCalls, accessesElement]
  cases e.access? with
  | none => rfl
  | some a =>
    have hmove : SlotCall.isElement (a.move (e.before.slots.offset a.box a.width)) = false := by
      unfold WordAccess.move
      split <;> rfl
    simp only [hmove, Bool.and_false, Bool.false_eq_true, if_false, add_zero, Option.any_some]
    unfold SlotState.asked
    split
    · rfl
    · split <;> rfl

theorem count_field (t : PayloadType) :
    e.slotCalls.countP (SlotCall.isFieldOf t) =
      if e.accessesField t && (e.before.slots.offsets t).isNone then 1 else 0 := by
  rw [countP_slotCalls, accessesField]
  cases e.access? with
  | none => rfl
  | some a =>
    have hmove : SlotCall.isFieldOf t (a.move (e.before.slots.offset a.box a.width)) = false := by
      unfold WordAccess.move
      split <;> rfl
    simp only [hmove, Bool.and_false, Bool.false_eq_true, if_false, add_zero, Option.any_some,
      WordAccess.ofField]
    unfold SlotState.asked
    split
    next hview => simp [hview, SlotCall.isFieldOf]
    next hview =>
      by_cases htype : a.box.type = t
      · subst htype
        cases e.before.slots.offsets a.box.type <;> simp [hview, SlotCall.isFieldOf]
      · cases e.before.slots.offsets a.box.type <;> simp [SlotCall.isFieldOf, htype]

theorem count_read : e.slotCalls.countP SlotCall.isRead = if e.reads then 1 else 0 := by
  rw [countP_slotCalls, reads]
  cases e.access? with
  | none => simp
  | some a =>
    have hasked := e.before.slots.countP_asked a.box a.width (q := SlotCall.isRead) fun c => by
      cases c <;> simp [SlotCall.moves, SlotCall.isRead]
    obtain ⟨b, w, value⟩ := a
    cases value <;> simp [hasked, WordAccess.move, SlotCall.isRead]

theorem count_write : e.slotCalls.countP SlotCall.isWrite = if e.writes then 1 else 0 := by
  rw [countP_slotCalls, writes]
  cases e.access? with
  | none => simp
  | some a =>
    have hasked := e.before.slots.countP_asked a.box a.width (q := SlotCall.isWrite) fun c => by
      cases c <;> simp [SlotCall.moves, SlotCall.isWrite]
    obtain ⟨b, w, value⟩ := a
    cases value <;> simp [hasked, WordAccess.move, SlotCall.isWrite]

end Counts

end Event

namespace Session
variable (os : List Operation)

/-- The first installation that succeeds, or the first access, decides. -/
theorem accessor_run :
    (initial.run os).1.slots.accessor = (initial.trace os).findSome? Event.fixesSlots? := by
  refine run_induction initial
    (motive := fun es s => s.slots.accessor = es.findSome? Event.fixesSlots?) rfl (fun es e ih => ?_) os
  rw [e.accessor_after, ih, List.findSome?_append, List.findSome?_singleton]

/-- One call for each event of a kind comes to as many calls as there are such events. -/
theorem countP_run {q : SlotCall → Bool} {p : Event → Bool}
    (h : ∀ e : Event, e.slotCalls.countP q = if p e then 1 else 0) :
    (initial.run os).1.slots.calls.countP q = (initial.trace os).countP p := by
  refine run_induction initial (motive := fun es s => s.slots.calls.countP q = es.countP p) rfl
    (fun es e ih => ?_) os
  rw [e.slotCalls_after, List.countP_append, ih, h, List.countP_append, List.countP_singleton]

theorem isSome_offsets_run (t : PayloadType) :
    ((initial.run os).1.slots.offsets t).isSome = (initial.trace os).any (Event.accessesField t) := by
  refine run_induction initial
    (motive := fun es s => (s.slots.offsets t).isSome = es.any (Event.accessesField t)) rfl
    (fun es e ih => ?_) os
  rw [e.isSome_offsets_after, ih, List.any_append, List.any_cons, List.any_nil, Bool.or_false]

theorem count_field_run (t : PayloadType) :
    (initial.run os).1.slots.calls.countP (SlotCall.isFieldOf t) =
      if ((initial.run os).1.slots.offsets t).isSome then 1 else 0 := by
  refine run_induction initial
    (motive := fun _ s => s.slots.calls.countP (SlotCall.isFieldOf t) =
      if (s.slots.offsets t).isSome then 1 else 0) rfl (fun es e ih => ?_) os
  rw [e.slotCalls_after, List.countP_append, ih, e.count_field, e.isSome_offsets_after]
  cases e.before.slots.offsets t <;> cases e.accessesField t <;> rfl

/-- The offset kept for a type is what the accessor in force answered at the first access. -/
theorem offsets_run {t : PayloadType} {w : WordWidth} (hw : t.wordWidth? = some w) :
    (initial.run os).1.slots.offsets t =
      ((initial.trace os).find? (Event.accessesField t)).map fun first =>
        (initial.run os).1.slots.inForce.fieldOffset first.before.slots.calls t w := by
  refine (run_induction initial
    (motive := fun es s => s.slots.accessor = es.findSome? Event.fixesSlots? ∧
      s.slots.offsets t = (es.find? (Event.accessesField t)).map fun first =>
        s.slots.inForce.fieldOffset first.before.slots.calls t w) ⟨rfl, rfl⟩ (fun es e ih => ?_) os).2
  obtain ⟨haccessor, hoffset⟩ := ih
  refine ⟨by rw [e.accessor_after, haccessor, List.findSome?_append, List.findSome?_singleton], ?_⟩
  rw [List.find?_append, List.find?_singleton]
  have hnone (h : e.access? = none) : e.accessesField t = false := by rw [Event.accessesField, h]; rfl
  cases e.slotEffect with
  | access a haccess hinstalls hfixes hafter hoffsets =>
    have hfield : e.accessesField t = a.ofField t := by rw [Event.accessesField, haccess]; rfl
    rw [SlotState.inForce_eq hafter, hoffsets, hfield]
    by_cases hof : a.ofField t = true
    · obtain ⟨hinline, rfl⟩ : a.box.view = false ∧ a.box.type = t := by
        simpa [WordAccess.ofField] using hof
      obtain ⟨-, -, -, hwidth, -⟩ := Event.access_spec haccess
      obtain rfl := Option.some.inj (hw.symm.trans hwidth)
      rw [if_pos hof, if_pos hof, SlotState.offset, hinline, if_neg Bool.false_ne_true, hoffset]
      cases es.find? (Event.accessesField a.box.type) <;> rfl
    · rw [if_neg hof, if_neg hof, Option.or_none, hoffset]
  | install a hop haccess hinstalls hfixes hfree hslots =>
    -- nothing was accessed before an installation that succeeds
    have hunused : es.find? (Event.accessesField t) = none := by
      rw [List.find?_eq_none]
      intro d hd
      rw [haccessor, List.findSome?_eq_none_iff] at hfree
      rw [Event.accessesField, (d.fixesSlots?_eq_none_iff.mp (hfree d hd)).2]
      simp
    rw [hunused] at hoffset ⊢
    rw [hnone haccess, hslots, hoffset]
    rfl
  | refused a hop haccess hinstalls hfixes htaken hafter =>
    rw [hnone haccess, if_neg Bool.false_ne_true, Option.or_none, hafter, hoffset]
  | idle haccess hop hinstalls hfixes hslots =>
    rw [hnone haccess, if_neg Bool.false_ne_true, Option.or_none, hslots, hoffset]

/-- The offset of an access after a run: an element's is asked for now, any other one was given to the first
access to a payload of the type, if this is not the first. -/
theorem offset_run (o : Operation) {b : Box} {w : WordWidth} (hw : b.type.wordWidth? = some w) :
    let e : Event := ⟨(initial.run os).1, o⟩
    let first := ((initial.trace os).find? (Event.accessesField b.type)).getD e
    e.before.slots.offset b w =
      if b.view then e.before.slots.inForce.elementOffset e.before.slots.calls w b.cell.index
      else e.before.slots.inForce.fieldOffset first.before.slots.calls b.type w := by
  intro e first
  rw [SlotState.offset, offsets_run os hw]
  cases hfirst : (initial.trace os).find? (Event.accessesField b.type) <;> simp [first, hfirst, e]

/-- The slot accessor in every run of operations, of whatever kind and in whatever order. The one that an
access meets was fixed by the first installation that succeeded or is the native one. It has been asked
once for the offset of the payloads of a type, before the first access to one in its own box; the answer
serves all later ones. -/
theorem slot_accessor_fixed_once (os : List Operation) (o : Operation) :
    let past := initial.trace os
    let e : Event := ⟨(initial.run os).1, o⟩
    let s := e.before.slots
    let fixed := (past.findSome? Event.fixesSlots?).getD .native
    (∀ a, o = .install (.slots a) →
      (e.installsSlots = true ↔ ∀ d ∈ past, d.installsSlots = false ∧ d.access? = none) ∧
      e.reply = .answer (.truth e.installsSlots) ∧ (e.installsSlots = false → e.after = e.before)) ∧
    (∀ a, e.access? = some a →
      let t := a.box.type
      let first := (past.find? (Event.accessesField t)).getD e
      let offset := if a.box.view then fixed.elementOffset s.calls a.width a.box.cell.index
        else fixed.fieldOffset first.before.slots.calls t a.width
      let asked : List SlotCall := if a.box.view then [.elementOffset a.width a.box.cell.index]
        else if past.any (Event.accessesField t) then [] else [.fieldOffset t a.width]
      let bytes := e.before.payloadBytes a.box
      if a.width.bytes ∣ offset.toNat ∧ offset.toNat + a.width.bytes ≤ bytes then
        e.accepted = true ∧ e.after.slots.calls = s.calls ++ asked ++ [a.move offset]
      else
        e.reply = .fault (a.box.slotFault offset a.width bytes) ∧
          e.after.slots.calls = s.calls ++ asked) ∧
    (e.access? = none → e.after.slots.calls = s.calls) ∧
    (∀ t, s.calls.countP (SlotCall.isFieldOf t) =
      if past.any (Event.accessesField t) then 1 else 0) ∧
    s.calls.countP SlotCall.isElement = past.countP Event.accessesElement ∧
    s.calls.countP SlotCall.isRead = past.countP Event.reads ∧
    s.calls.countP SlotCall.isWrite = past.countP Event.writes := by
  intro past e s fixed
  have haccessor : s.accessor = past.findSome? Event.fixesSlots? := accessor_run os
  have hfixed : s.inForce = fixed := by rw [SlotState.inForce, haccessor]
  refine ⟨?_, ?_, fun haccess => ?_, fun t => ?_, countP_run os Event.count_element,
    countP_run os Event.count_read, countP_run os Event.count_write⟩
  · rintro a rfl
    have hfree : s.accessor = none ↔ ∀ d ∈ past, d.installsSlots = false ∧ d.access? = none := by
      rw [haccessor, List.findSome?_eq_none_iff]
      exact forall₂_congr fun d _ => d.fixesSlots?_eq_none_iff
    rw [← hfree]
    cases e.slotEffect with
    | access b haccess => cases haccess
    | install b hop haccess hinstalls hfixes hnone hslots hreply =>
      rw [hinstalls, hreply]
      exact ⟨iff_of_true rfl hnone, rfl, fun hfailed => by cases hfailed⟩
    | refused b hop haccess hinstalls hfixes htaken hafter hreply =>
      rw [hinstalls, hreply]
      exact ⟨iff_of_false Bool.false_ne_true htaken, rfl, fun _ => hafter⟩
    | idle haccess hop => exact absurd rfl (hop a)
  · intro a haccess t first offset asked bytes
    obtain ⟨box, -, hbox, hw, -⟩ := Event.access_spec haccess
    have hb : a.box ∈ e.before.boxes := List.mem_of_getElem? hbox
    have hc : e.before.Coherent := coherent_initial.run os
    have hextent : a.box.extent e.before.memory a.width = bytes :=
      (compact_initial.run coherent_initial os).extent_eq hb hw
    have hsmall : bytes < 2 ^ 64 := hc.payloadBytes_lt hb
    have hasked : s.asked a.box a.width = asked := by
      rw [SlotState.asked, isSome_offsets_run]
    have hoffset : s.offset a.box a.width = offset := by
      rw [offset_run os o hw, hfixed]
    have hafter := Event.access_after haccess
    dsimp only at hafter
    rw [hextent, hoffset] at hafter
    rcases hafter with ⟨hslot, haccepted, hslots⟩ | ⟨hslot, -, hslots, hreply⟩
    · obtain ⟨index, hindex⟩ := Option.isSome_iff_exists.mp hslot
      rw [if_pos (slotIndex?_eq_some_iff.mp hindex).1]
      refine ⟨haccepted, ?_⟩
      rw [hslots, SlotState.called, SlotState.ask_calls, hasked]
    · rw [if_neg ((slotIndex?_eq_none_iff hsmall).mp hslot)]
      refine ⟨hreply, ?_⟩
      rw [hslots, SlotState.ask_calls, hasked]
  · rw [e.slotCalls_after, Event.slotCalls, haccess, List.append_nil]
  · rw [← isSome_offsets_run, count_field_run]

/-- Two reads ask for the offset once. -/
example : (initial.run [.create (.box (.zero .int32)), .volatile 0 .get, .volatile 0 .get]).1.slots.calls =
    [.fieldOffset .int32 .w32, .read 0 .w32, .read 0 .w32] := rfl

end Session

end ManagedTypes
