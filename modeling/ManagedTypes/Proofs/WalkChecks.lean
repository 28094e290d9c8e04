import ManagedTypes.Numeral
import ManagedTypes.Reflect.Walk

/-! What a walk looks at before its host: the axes of its flags, then the other bits, then the member
type. A request that does not get past them has an answer that no host and no visitor takes part in. -/
namespace ManagedTypes

namespace Flags
open Numeral

/-- A text that gives the bits of flags in hexadecimal. -/
def IsNamedBy (flags : Flags) (text : String) : Prop :=
  ∃ ds, (∀ d ∈ ds, d < 16) ∧ value 16 ds = flags.toNat ∧
    text = String.ofList ('0' :: 'x' :: ds.map lowerChar)

theorem toDigits_eq (n : Nat) : Nat.toDigits 16 n = (digits 16 n).map lowerChar := by
  induction n using Nat.strongRecOn with
  | ind n ih =>
    by_cases hlt : n < 16
    · rw [Nat.toDigits_of_lt_base hlt, digits_of_lt hlt]
      rfl
    · rw [Nat.toDigits_of_base_le (by decide) (Nat.le_of_not_lt hlt),
        digits_of_le (by decide) (Nat.le_of_not_lt hlt), ih (n / 16) (by omega), List.map_append]
      rfl

theorem isNamedBy_hexText (flags : Flags) : flags.IsNamedBy flags.hexText :=
  ⟨digits 16 flags.toNat, digits_lt (by decide), value_digits 16 _, by rw [hexText, toDigits_eq]⟩

theorem intersects_eq_false_iff (flags other : Flags) :
    flags.intersects other = false ↔ flags &&& other = 0 := by
  simp [intersects]

end Flags

namespace MemberQuery
variable {flags : Flags}

/-- Flags that ask for some visibility and for some lifetime. -/
def Asks (flags : Flags) : Prop := flags &&& 0x30 ≠ 0 ∧ flags &&& 0xC ≠ 0

theorem asks_iff :
    Asks flags ↔ ¬(!flags.intersects BindingFlags.visibility ||
      !flags.intersects BindingFlags.lifetime) = true := by
  have hvisibility : BindingFlags.visibility = 0x30 := by decide
  have hlifetime : BindingFlags.lifetime = 0xC := by decide
  rw [Asks, hvisibility, hlifetime, Ne, Ne, ← Flags.intersects_eq_false_iff,
    ← Flags.intersects_eq_false_iff]
  simp

theorem compile_of_not_asks (h : ¬Asks flags) : compile flags = .ok none := by
  rw [asks_iff, Classical.not_not] at h
  rw [compile, if_pos h]

theorem without_enumeration (flags : Flags) :
    flags.without BindingFlags.enumeration = flags &&& ~~~0x3E := rfl

/-- Bits that no enumeration understands are named in the fault. -/
theorem compile_of_residual (h : Asks flags) (hresidual : flags &&& ~~~0x3E ≠ 0) :
    compile flags = .error (badFlags (flags &&& ~~~0x3E)) := by
  rw [asks_iff] at h
  rw [← without_enumeration] at hresidual ⊢
  simp only [compile, if_neg h, if_pos hresidual]

theorem exists_compile (h : Asks flags) (hresidual : flags &&& ~~~0x3E = 0) :
    ∃ q, compile flags = .ok (some q) := by
  rw [asks_iff] at h
  rw [← without_enumeration] at hresidual
  simp only [compile, if_neg h, hresidual, ne_eq, not_true_eq_false, if_false]
  split <;> exact ⟨_, rfl⟩

end MemberQuery

namespace MemberKind
variable {t : Flags}

theorem ofMemberType_of_mem (h : t ∈ [0x1, 0x4, 0x8]) : ∃ kind, ofMemberType t = .ok kind := by
  revert t
  simp only [List.forall_mem_cons, List.not_mem_nil, false_implies, implies_true, and_true]
  exact ⟨⟨.constructor, rfl⟩, ⟨.field, rfl⟩, ⟨.method, rfl⟩⟩

theorem ofMemberType_of_not_mem (h : t ∉ [0x1, 0x4, 0x8]) :
    ofMemberType t = .error (.argument ("member type " ++ t.hexText ++ " cannot be enumerated")) := by
  simp only [List.mem_cons, List.not_mem_nil, or_false, not_or] at h
  obtain ⟨hconstructor, hfield, hmethod⟩ :
    t ≠ MemberTypes.constructor ∧ t ≠ MemberTypes.field ∧ t ≠ MemberTypes.method := h
  rw [ofMemberType, if_neg hconstructor, if_neg hmethod, if_neg hfield]

end MemberKind

/-- A walk that has begun comes to no fault. -/
theorem Walk.climb_ne_fault {σ : Type} (h : Host) (q : MemberQuery) (kind : MemberKind)
    (hidden : Option TypeId) (visit : Visitor σ) (fuel : Nat) (t : TypeId) (w : Walk σ) (f : Fault) :
    (climb h q kind hidden visit fuel t w).2 ≠ .fault f := by
  induction fuel generalizing t w with
  | zero =>
    unfold climb
    split <;> simp
  | succ fuel ih =>
    unfold climb
    split
    · simp
    dsimp only
    split
    · simp
    split
    · simp
    split
    · simp
    next b _ => exact ih b _

namespace Enumerator
variable {σ : Type} {r : WalkRequest}

/-- Nothing is asked of the host and nothing offered, by any of the three kinds of walk. The root is not
among the calls that a walk notes, so this is said of every host in the place of the enumerator's own:
none takes part in the answer. -/
def Untouched (e : Enumerator) (r : WalkRequest) (visit : Visitor σ) (state : σ) (name : String)
    (fuel : Nat) (out : WalkEnd) : Prop :=
  ∀ host, let other := { e with host }
    other.enumerate r visit state fuel = (.start state, out) ∧
      other.collect r fuel = (.start [], out) ∧
      other.findFirst r name fuel = (.start none, out)

/-- The other two are walks of visitors of their own. -/
theorem untouched_of_enumerate {e : Enumerator} {fuel : Nat} {out : WalkEnd}
    (h : ∀ (host : Host) {τ : Type} (visit : Visitor τ) (state : τ),
      { e with host }.enumerate r visit state fuel = (.start state, out))
    (visit : Visitor σ) (state : σ) (name : String) : e.Untouched r visit state name fuel out :=
  fun host => ⟨h host visit state, h host _ [], h host _ none⟩

/-- The checks in front of a walk, in their order, for every host, visitor and number of types. A
request without visibility or lifetime matches nothing, other bits are a fault that names them, and so
is a member type that is not one of the three. Any other request is walked without a fault. -/
theorem checks_before_walk (e : Enumerator) (r : WalkRequest) (visit : Visitor σ) (state : σ)
    (name : String) (fuel : Nat) :
    let asks := MemberQuery.Asks r.flags
    let residual := r.flags &&& ~~~0x3E
    let named := r.memberType ∈ [0x1, 0x4, 0x8]
    (¬asks → e.Untouched r visit state name fuel .finished) ∧
      (asks → residual ≠ 0 → ∃ text, residual.IsNamedBy text ∧
        e.Untouched r visit state name fuel
          (.fault (.platformNotSupported ("bad binding flags " ++ text)))) ∧
      (asks → residual = 0 → ¬named → ∃ text, r.memberType.IsNamedBy text ∧
        e.Untouched r visit state name fuel
          (.fault (.argument ("member type " ++ text ++ " cannot be enumerated")))) ∧
      (asks → residual = 0 → named → ∀ f, (e.enumerate r visit state fuel).2 ≠ .fault f ∧
        (e.collect r fuel).2 ≠ .fault f ∧ (e.findFirst r name fuel).2 ≠ .fault f) := by
  intro asks residual named
  refine ⟨fun hasks => ?_, fun hasks hresidual => ?_, fun hasks hresidual hnamed => ?_,
    fun hasks hresidual hnamed f => ?_⟩
  · refine untouched_of_enumerate (fun _ _ visit state => ?_) visit state name
    rw [enumerate, MemberQuery.compile_of_not_asks hasks]
  · refine ⟨_, residual.isNamedBy_hexText,
      untouched_of_enumerate (fun _ _ visit state => ?_) visit state name⟩
    rw [enumerate, MemberQuery.compile_of_residual hasks hresidual]
    rfl
  · refine ⟨_, r.memberType.isNamedBy_hexText,
      untouched_of_enumerate (fun _ _ visit state => ?_) visit state name⟩
    obtain ⟨q, hq⟩ := MemberQuery.exists_compile hasks hresidual
    rw [enumerate, hq]
    dsimp only
    rw [MemberKind.ofMemberType_of_not_mem hnamed]
  · obtain ⟨q, hq⟩ := MemberQuery.exists_compile hasks hresidual
    obtain ⟨kind, hkind⟩ := MemberKind.ofMemberType_of_mem hnamed
    have hwalk {τ : Type} (visit : Visitor τ) (state : τ) :
        (e.enumerate r visit state fuel).2 ≠ .fault f := by
      rw [enumerate, hq]
      dsimp only
      rw [hkind]
      exact Walk.climb_ne_fault _ _ _ _ _ _ _ _ f
    exact ⟨hwalk visit state, hwalk _ [], hwalk _ none⟩

end Enumerator

end ManagedTypes
