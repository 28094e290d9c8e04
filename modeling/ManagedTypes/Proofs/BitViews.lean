import ManagedTypes.Proofs.CellUpdate

/-! Views of a box's bits: whichever view writes, every view reads the bits that were written last. -/
namespace ManagedTypes

theorem PayloadType.Fits.toWord_ofWord {t : PayloadType} {w : Word} (h : t.Fits w) :
    (Payload.ofWord t w).toWord = w := by
  apply BitVec.eq_of_toNat_eq
  rw [Payload.toWord_ofWord, BitVec.toNat_setWidth, BitVec.toNat_setWidth, Nat.mod_eq_of_lt h,
    Nat.mod_eq_of_lt w.isLt]

/-- The views that a payload has are those of its native width, but for the unsigned view of a single and
the floating views of integers. -/
theorem PayloadType.supports_iff (t : PayloadType) (a : Access) :
    t.supports a = true ↔ a.type.width = t.width ∧ ¬(a = .u32 ∧ t = .single) ∧
      ((a = .f32 ∨ a = .f64) → t = .single ∨ t = .double) := by
  cases t <;> cases a <;> decide

theorem PayloadType.width_of_supports {t : PayloadType} {a : Access} (h : t.supports a = true) :
    a.type.width = t.width := ((t.supports_iff a).mp h).1

namespace Payload
variable {p q x : Payload}

/-- Payloads of one width with the same bits, perhaps of different types. -/
def SameBits (p q : Payload) : Prop := p.type.width = q.type.width ∧ p.toNat = q.toNat

theorem SameBits.trans (hpq : SameBits p q) (hqx : SameBits q x) : SameBits p x :=
  ⟨hpq.1.trans hqx.1, hpq.2.trans hqx.2⟩

theorem toNat_toWord (p : Payload) : p.toWord.toNat = p.toNat := by
  have hlt : p.toNat < 2 ^ p.type.width := p.bits.isLt
  rw [toWord, BitVec.toNat_setWidth]
  exact Nat.mod_eq_of_lt (hlt.trans_le (Nat.pow_le_pow_right (by norm_num) p.type.width_le))

theorem toNat_ofWord (t : PayloadType) (w : Word) : (ofWord t w).toNat = w.toNat % 2 ^ t.width :=
  BitVec.toNat_setWidth ..

theorem sameBits_reinterpret {t : PayloadType} (h : t.width = p.type.width) :
    SameBits (p.reinterpret t) p := by
  refine ⟨h, ?_⟩
  rw [reinterpret, toNat_ofWord, toNat_toWord, h]
  exact Nat.mod_eq_of_lt p.bits.isLt

/-- Bits of one type make one payload. -/
theorem SameBits.eq (h : SameBits p q) (ht : p.type = q.type) : p = q := by
  rw [← p.ofWord_toWord, ← q.ofWord_toWord, ht]
  congr 1
  exact BitVec.eq_of_toNat_eq (by rw [toNat_toWord, toNat_toWord, h.2])

/-- Reading by a view shows the payload's bits. -/
theorem view_eq_ite (p : Payload) (a : Access) :
    p.view a = if p.type.supports a then .ok (p.reinterpret a.type)
      else .error (.unsupported a.name p.type.name) := by
  unfold view viewBits require
  split <;> rfl

end Payload

namespace Box
variable (b : Box) (m : Memory) (a : Access)

theorem view_get : (b.get m).view a =
    if b.type.supports a then .ok ((b.get m).reinterpret a.type)
    else .error (.unsupported a.name b.type.name) := (b.get m).view_eq_ite a

theorem throughView_get (x : Payload) : (b.get m).throughView a x =
    if b.type.supports a then .ok (x.reinterpret b.type)
    else .error (.unsupported a.name b.type.name) := (b.get m).throughView_eq_ite a x

end Box

namespace Session
variable {s t : Session}

/-- All boxes and arrays of a block are of one type. -/
theorem Coherent.holds_type (h : s.Coherent) {t u : PayloadType} {block : ℕ} (ht : s.Holds t block)
    (hu : s.Holds u block) : t = u := by
  rcases ht with ⟨b, hb, rfl, rfl⟩ | ⟨a, ha, rfl, rfl⟩ <;>
    rcases hu with ⟨c, hc, rfl, hblock⟩ | ⟨d, hd, rfl, hblock⟩
  · exact h.box_type hb hc hblock.symm
  · exact h.box_array_type hb hd hblock
  · exact (h.box_array_type hc ha hblock.symm).symm
  · exact h.array_type a ha d hd hblock.symm

theorem Coherent.holds_lt_next (h : s.Coherent) {t : PayloadType} {block : ℕ} (ht : s.Holds t block) :
    block < s.memory.next := by
  rcases ht with ⟨b, hb, -, rfl⟩ | ⟨a, ha, -, rfl⟩
  · exact (h.cell b hb).lt_next
  · exact h.array_block a ha

/-- Every word is a payload of the type that its block is of, with nothing above it. -/
def Fitted (s : Session) : Prop :=
  ∀ t block, s.Holds t block → ∀ word ∈ s.memory.blockAt block, t.Fits word

theorem fitted_initial : initial.Fitted := by
  rintro t block (⟨b, hb, -⟩ | ⟨a, ha, -⟩)
  · cases hb
  · cases ha

theorem Fitted.of_memory (h : s.Fitted) (hmemory : t.memory = s.memory)
    (hholds : ∀ u block, t.Holds u block → s.Holds u block) : t.Fitted := by
  intro u block hu
  rw [hmemory]
  exact h u block (hholds u block hu)

theorem Fitted.write (h : s.Fitted) (hc : s.Coherent) {p : Payload} {cell : Cell}
    (htype : s.Holds p.type cell.block) (hmemory : t.memory = s.memory.write cell p.toWord)
    (hholds : ∀ u block, t.Holds u block → s.Holds u block) : t.Fitted := by
  intro u block hu
  have hold := hholds u block hu
  rw [hmemory, Memory.blockAt_write]
  split
  next hsame =>
    obtain rfl := hc.holds_type htype (hsame ▸ hold)
    intro w hw
    rcases List.mem_or_eq_of_mem_set hw with hw | rfl
    · exact h _ block hold w hw
    · exact p.fits_toWord
  · exact h u block hold

/-- A block is held by what held it before, or is the one just allocated. -/
theorem Fitted.allocate (h : s.Fitted) (hc : s.Coherent) {type : PayloadType} {cells : List Word}
    (hfit : ∀ word ∈ cells, type.Fits word) (hmemory : t.memory = s.memory.allocate cells)
    (hholds : ∀ u block, t.Holds u block → s.Holds u block ∨ u = type ∧ block = s.memory.next) :
    t.Fitted := by
  intro u block hu
  rw [hmemory, Memory.blockAt_allocate]
  rcases hholds u block hu with hu | ⟨rfl, rfl⟩
  · rw [if_neg (hc.holds_lt_next hu).ne]
    exact h u block hu
  · rw [if_pos rfl]
    exact hfit

theorem Fitted.event {e : Event} (h : e.before.Fitted) (hc : e.before.Coherent) : e.after.Fitted := by
  cases e.storeEffect with
  | stay hsame =>
    exact h.of_memory hsame.memory fun u block => by
      rw [Holds, hsame.arrays, hsame.boxes]
      exact id
  | write p hdestination cell value hblock hreply hmemory harrays hboxes aim htarget hrefers hreaches =>
    exact h.write hc (hreaches.block_eq ▸ hrefers.holds) hmemory fun u block => by
      rw [Holds, harrays, hboxes]
      exact id
  | newArray type cells hfits hanew hreply hmemory harrays hboxes hfit =>
    exact h.allocate hc hfit hmemory fun u block => by grind [Holds]
  | shareArray source a hop hhandle hreply hmemory harrays hboxes =>
    have ha := List.mem_of_getElem? hhandle
    exact h.of_memory hmemory fun u block => by grind [Holds]
  | newBox p hanew hreply hmemory harrays hboxes =>
    exact h.allocate hc (List.forall_mem_singleton.mpr p.fits_toWord) hmemory fun u block => by
      grind [Holds]
  | newView a ha index hlt hanew hreply hmemory harrays hboxes =>
    exact h.of_memory hmemory fun u block => by grind [Holds, ArrayHandle.element]

theorem Fitted.run (h : s.Fitted) (hc : s.Coherent) (os : List Operation) : (s.run os).1.Fitted :=
  (s.run_invariant (P := fun t => t.Coherent ∧ t.Fitted)
    (fun _ ht => ⟨ht.1.event, ht.2.event ht.1⟩) ⟨hc, h⟩ os).2

section Box
variable {box : ℕ} {b : Box} (hbox : s.boxes[box]? = some b)
include hbox

theorem step_query (q : BoxQuery) : s.step (.query box q) = (s, s.query b q) := by
  simp only [step, onBox, hbox]

theorem reply_get : (s.step (.query box .get)).2 = .answer (.payload (b.get s.memory)) :=
  congrArg Prod.snd (step_query hbox .get)

theorem reply_view (a : Access) : (s.step (.query box (.view a))).2 =
    if b.type.supports a then .answer (.payload ((b.get s.memory).reinterpret a.type))
    else .fault (.unsupported a.name b.type.name) := by
  rw [step_query hbox, query, b.view_get]
  by_cases h : b.type.supports a = true
  · rw [if_pos h, if_pos h]
    rfl
  · rw [if_neg h, if_neg h]
    rfl

theorem step_setView {a : Access} (ha : a.writable = true) {x : Payload} (hx : x.type = a.type) :
    s.step (.update box (.setView a x)) =
      if b.type.supports a then s.store b (x.reinterpret b.type)
      else (s, .fault (.unsupported a.name b.type.name)) := by
  simp only [step, onBox, hbox, update, ha, hx, bne_self_eq_false, Bool.not_true, Bool.or_false,
    Bool.false_eq_true, if_false]
  rw [b.throughView_get]
  by_cases h : b.type.supports a = true
  · rw [if_pos h, if_pos h]
  · rw [if_neg h, if_neg h]

/-- Storing what a box holds changes nothing. -/
theorem store_get (hc : s.Coherent) (hfit : s.Fitted) :
    s.store b (b.get s.memory) = (s, .answer .unit) := by
  have hb := List.mem_of_getElem? hbox
  have hword := hfit _ _ (holds_box hb) _ (Memory.read_mem (hc.cell b hb))
  rw [store, Box.set, Box.get, hword.toWord_ofWord, Memory.write_read_self]

/-- A view that is there shows the bits of what the box holds. -/
theorem exists_view {a : Access} (ha : b.type.supports a = true) :
    ∃ x : Payload, (s.step (.query box (.view a))).2 = .answer (.payload x) ∧ x.type = a.type ∧
      x.SameBits (b.get s.memory) := by
  refine ⟨_, (reply_view hbox a).trans (if_pos ha), rfl, Payload.sameBits_reinterpret ?_⟩
  exact PayloadType.width_of_supports ha

/-- Writing what a view shows is storing what the box holds. -/
theorem setView_shown (hc : s.Coherent) (hfit : s.Fitted) {a : Access} (hwritable : a.writable = true)
    (ha : b.type.supports a = true) {x : Payload} (hx : x.type = a.type)
    (hshown : (s.step (.query box (.view a))).2 = .answer (.payload x)) :
    s.step (.update box (.setView a x)) = (s, .answer .unit) := by
  obtain ⟨y, hy, -, hbits⟩ := exists_view hbox ha
  obtain rfl : y = x := by
    rw [hy] at hshown
    injection hshown with hanswer
    exact Answer.payload.inj hanswer
  have hwidth : b.type.width = y.type.width := by rw [hx, PayloadType.width_of_supports ha]
  have hheld : y.reinterpret b.type = b.get s.memory :=
    ((Payload.sameBits_reinterpret hwidth).trans hbits).eq rfl
  rw [step_setView hbox hwritable hx, if_pos ha, hheld, store_get hbox hc hfit]

end Box

/-- Of two payloads stored in a box the second remains. -/
theorem store_store (b : Box) (p q : Payload) : (s.store b p).1.store b q = s.store b q := by
  simp only [store, Box.set, Memory.write_write]

/-- Views of a box, which may itself be a view of an array, in every session that has come about by
operations. Words and payloads pass into each other; a view that is there, which those of the native width
are but for the unsigned one of a single and the floating ones of integers, shows the payload's bits at
its own type; and whatever is written through one is what all of them and the box itself then show, of two
writes the second. Writing what a view shows leaves everything as it is. A view that is not there is
refused. -/
theorem views_lawful (os : List Operation) (box : ℕ) (b : Box)
    (hbox : (initial.run os).1.boxes[box]? = some b) :
    let s := (initial.run os).1
    let t := b.type
    let held (s : Session) := (s.step (.query box .get)).2
    let shown (a : Access) (s : Session) := (s.step (.query box (.view a))).2
    let put (a : Access) (x : Payload) (s : Session) := s.step (.update box (.setView a x))
    (∀ p : Payload, p.type = t → Payload.ofWord t p.toWord = p) ∧
    (∀ n : Word, (Payload.ofWord t n).toWord.toNat = n.toNat % 2 ^ t.width) ∧
    (∀ a : Access, t.supports a = true ↔ a.type.width = t.width ∧ ¬(a = .u32 ∧ t = .single) ∧
      ((a = .f32 ∨ a = .f64) → t = .single ∨ t = .double)) ∧
    (∃ p : Payload, held s = .answer (.payload p) ∧ p.type = t ∧
      ∀ a, t.supports a = true →
        ∃ x : Payload, shown a s = .answer (.payload x) ∧ x.type = a.type ∧ x.SameBits p) ∧
    (∀ a x, t.supports a = true → a.writable = true → x.type = a.type →
      (put a x s).2 = .answer .unit ∧
      (∃ p : Payload, held (put a x s).1 = .answer (.payload p) ∧ p.type = t ∧ p.SameBits x) ∧
      (∀ c, t.supports c = true → ∃ y : Payload,
        shown c (put a x s).1 = .answer (.payload y) ∧ y.type = c.type ∧ y.SameBits x) ∧
      (shown a s = .answer (.payload x) → put a x s = (s, .answer .unit)) ∧
      ∀ c y, t.supports c = true → c.writable = true → y.type = c.type →
        put c y (put a x s).1 = put c y s) ∧
    ∀ a, t.supports a = false →
      shown a s = .fault (.notSupported (a.name ++ " on " ++ t.name)) ∧
      ∀ x, a.writable = true → x.type = a.type →
        put a x s = (s, .fault (.notSupported (a.name ++ " on " ++ t.name))) := by
  intro s t held shown put
  have hc : s.Coherent := coherent_initial.run os
  have hfit : s.Fitted := fitted_initial.run coherent_initial os
  have hb : b ∈ s.boxes := List.mem_of_getElem? hbox
  refine ⟨fun p hp => hp ▸ p.ofWord_toWord, fun n => ?_, t.supports_iff,
    ⟨_, reply_get hbox, rfl, fun a ha => exists_view hbox ha⟩, fun a x ha hwritable hx => ?_,
    fun a ha => ?_⟩
  · rw [Payload.toNat_toWord, Payload.toNat_ofWord]
  · have hput : put a x s = s.store b (x.reinterpret t) :=
      (step_setView hbox hwritable hx).trans (if_pos ha)
    have hbits : (b.get (put a x s).1.memory).SameBits x := by
      have hget : b.get (s.store b (x.reinterpret t)).1.memory = x.reinterpret t :=
        Box.get_set (hc.cell b hb) rfl
      rw [hput, hget]
      exact Payload.sameBits_reinterpret (by rw [hx, PayloadType.width_of_supports ha])
    have hafter : (put a x s).1.boxes[box]? = some b := by
      rw [hput]
      exact hbox
    refine ⟨by rw [hput]; rfl, ⟨_, reply_get hafter, rfl, hbits⟩, fun c hthere => ?_,
      setView_shown hbox hc hfit hwritable ha hx, fun c y hthere hwrites hy => ?_⟩
    · obtain ⟨y, hy, htype, hsame⟩ := exists_view hafter hthere
      exact ⟨y, hy, htype, hsame.trans hbits⟩
    · calc put c y (put a x s).1
        _ = (put a x s).1.store b (y.reinterpret t) :=
          (step_setView hafter hwrites hy).trans (if_pos hthere)
        _ = s.store b (y.reinterpret t) := by rw [hput, store_store]
        _ = put c y s := ((step_setView hbox hwrites hy).trans (if_pos hthere)).symm
  · have hno : ¬t.supports a = true := by simp [ha]
    exact ⟨(reply_view hbox a).trans (if_neg hno), fun x hwritable hx =>
      (step_setView hbox hwritable hx).trans (if_neg hno)⟩

/-- A view of the second of two singles. -/
def viewing : List Operation :=
  [.create (.arrayNew .single 2), .create (.inArray 0 1)]

/-- A signalling NaN that is written as a single is shown as an integer with its bits. -/
theorem views_lawful_signalling :
    let s := (initial.run viewing).1
    let x := Payload.ofNat .single 0x7FA00001
    let put := s.step (.update 0 (.setView .f32 x))
    s.boxes[0]? = some ⟨.single, ⟨0, 1⟩, true⟩ ∧ put.2 = .answer .unit ∧
      ∃ y : Payload, (put.1.step (.query 0 (.view .i32))).2 = .answer (.payload y) ∧ y.type = .int32 ∧
        y.SameBits x := by
  intro s x put
  have hbox : s.boxes[0]? = some ⟨.single, ⟨0, 1⟩, true⟩ := rfl
  obtain ⟨-, -, -, -, hput, -⟩ := views_lawful viewing 0 _ hbox
  obtain ⟨hok, -, hshown, -⟩ := hput .f32 x rfl rfl rfl
  exact ⟨hbox, hok, hshown .i32 rfl⟩

end Session

end ManagedTypes
