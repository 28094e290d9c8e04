import ManagedTypes.Proofs.FloatConversion

/-! Conversion by type code: each code leads to the one direct conversion to its type, and conversion to an
object to that of the payload's own type, through which the payload comes unchanged. -/
namespace ManagedTypes

/-- The conversion that gives values of a code's type. Of the other codes an object's stands for the code of
the payload, and the rest have none. -/
def Conversion.direct? : TypeCode → Option Conversion
  | .boolean => some boolean
  | .char => some char
  | .sbyte => some (payload .sbyte)
  | .byte => some (payload .byte)
  | .int16 => some (payload .int16)
  | .uint16 => some (payload .uint16)
  | .int32 => some (payload .int32)
  | .uint32 => some (payload .uint32)
  | .int64 => some (payload .int64)
  | .uint64 => some (payload .uint64)
  | .single => some (payload .single)
  | .double => some (payload .double)
  | .dateTime => some dateTime
  | .string => some text
  | .empty | .object | .dbNull | .decimal => none

theorem Conversion.direct?_eq_none_iff {c : TypeCode} :
    direct? c = none ↔ c = .object ∨ c = .decimal ∨ c = .empty ∨ c = .dbNull := by
  cases c <;> simp [direct?]

/-- Only text looks at the formatter. -/
theorem Conversion.readsText_direct {c : TypeCode} {m : Conversion} (h : direct? c = some m) :
    (code c).readsText = m.readsText := by
  cases c <;> cases h <;> rfl

theorem exists_of_map_eq_ok {α β : Type} {f : α → β} {e : Except Fault α} {v : β} (h : f <$> e = .ok v) :
    ∃ a, e = .ok a ∧ f a = v := by
  cases e with
  | error fault => cases h
  | ok a => exact ⟨a, rfl, Except.ok.inj h⟩

namespace Payload
variable (p : Payload) (shown : String)

theorem type_of_toPayload {p q : Payload} {t : PayloadType} (h : p.toPayload t = .ok q) : q.type = t := by
  unfold toPayload at h
  split at h
  · cases h
    rfl
  · obtain ⟨v, -, rfl⟩ := exists_of_map_eq_ok h
    rfl

/-- Widened and narrowed again, an integer or a number is the same payload; NaN is some NaN. -/
theorem exists_toPayload_own : ∃ q, p.toPayload p.type = .ok q ∧ q.type = p.type ∧
    (p.isNan = false → q = p) ∧ (p.isNan = true → q.isNan = true) := by
  cases hp : p.type.ieee? with
  | none =>
    obtain ⟨v, hv⟩ := exists_integer hp
    obtain ⟨hlow, hhigh⟩ := IntRange.contains_iff.mp (contains_of_integer? hv)
    refine ⟨p, (p.toPayload_eq_ok_iff hp p).mpr ?_, rfl, fun _ => rfl, id⟩
    exact ⟨rfl, v, v, value?_of_integer? hv, isNearestInt_intCast v, hlow, hhigh, hv⟩
  | some g =>
    obtain ⟨q, hq⟩ := p.exists_toPayload hp
    refine ⟨q, hq, type_of_toPayload hq, fun hnan => ?_, isNan_toPayload hp hp hq⟩
    exact Except.ok.inj (hq.symm.trans (toPayload_self hp hnan))

theorem toCode_direct {c : TypeCode} {m : Conversion} (h : Conversion.direct? c = some m) :
    p.toCode shown c = p.convert shown m := by
  rw [toCode.eq_def]
  cases c <;> cases h <;> rfl

/-- A direct conversion gives values of the type whose code it stands for. -/
theorem code_of_direct {c : TypeCode} {m : Conversion} (h : Conversion.direct? c = some m)
    {v : Converted} (hv : p.convert shown m = .ok v) : v.code = c := by
  cases c <;> cases h
  case boolean | string =>
    cases hv
    rfl
  case char =>
    obtain ⟨n, -, rfl⟩ := exists_of_map_eq_ok hv
    rfl
  case dateTime => cases hv
  all_goals
    obtain ⟨q, hq, rfl⟩ := exists_of_map_eq_ok hv
    exact congrArg PayloadType.code (type_of_toPayload hq)

theorem toCode_refused {c : TypeCode} (h : c = .dateTime ∨ c = .empty ∨ c = .dbNull) :
    p.toCode shown c = .error (.noCast p.type.name c.name) := by
  rw [toCode.eq_def]
  rcases h with rfl | rfl | rfl <;> rfl

theorem toCode_decimal :
    p.toCode shown .decimal = .error (.unsupported "Decimal conversion" p.type.name) := by
  rw [toCode.eq_def]
  rfl

/-- A conversion that succeeds gives a value of the type that was asked for, an object's being the
payload's own. -/
theorem code_of_toCode {c : TypeCode} {v : Converted} (hv : p.toCode shown c = .ok v) :
    v.code = if c = .object then p.type.code else c := by
  cases hd : Conversion.direct? c with
  | some m =>
    have hobject : c ≠ .object := by
      rintro rfl
      cases hd
    rw [p.toCode_direct shown hd] at hv
    rw [if_neg hobject, p.code_of_direct shown hd hv]
  | none =>
    rcases Conversion.direct?_eq_none_iff.mp hd with rfl | rfl | hrefused
    · rw [toCode_object, toCode_code] at hv
      obtain ⟨q, hq, rfl⟩ := exists_of_map_eq_ok hv
      exact congrArg PayloadType.code (type_of_toPayload hq)
    · rw [toCode_decimal] at hv
      cases hv
    · rw [p.toCode_refused shown (.inr hrefused)] at hv
      cases hv

end Payload

namespace Session
variable {s : Session} {box : ℕ} {b : Box}

theorem converted_inj {e : Except Fault Converted} {v : Converted}
    (h : Reply.ofExcept .converted e = .answer (.converted v)) : e = .ok v := by
  cases e with
  | error f => cases h
  | ok w =>
    cases h
    rfl

section Box
variable (hbox : s.boxes[box]? = some b)
include hbox

theorem step_display : s.step (.text box .display) =
    ({ s with text := ((b.get s.memory).display s.text).1 },
      .answer (.text ((b.get s.memory).display s.text).2)) := by
  simp only [step, onBox, hbox]
  rfl

theorem step_convert (m : Conversion) :
    s.step (.text box (.convert m)) =
      (if m.readsText then { s with text := ((b.get s.memory).display s.text).1 } else s,
        .ofExcept .converted ((b.get s.memory).convert ((b.get s.memory).display s.text).2 m)) := by
  simp only [step, onBox, hbox]
  rfl

theorem step_convert_code {c : TypeCode} (hc : c ≠ .string) :
    s.step (.text box (.convert (.code c))) = (s, .ofExcept .converted
      ((b.get s.memory).toCode ((b.get s.memory).display s.text).2 c)) := by
  have hreads : (Conversion.code c).readsText = false := by
    cases c with
    | string => exact absurd rfl hc
    | _ => rfl
  rw [step_convert hbox, hreads]
  rfl

end Box

/-- Conversion by type code, of a box with any payload in any session. Where a code's type has a direct
conversion, the two do the same and answer the same, faults included, and a value that is answered has the
code that was asked for. An object's code stands for the code of the payload's own type, which is no
object's, and either gives the payload itself, NaN some NaN. A string is the text that displaying gives.
Decimals are not supported, and what is no type of values is no cast. -/
theorem type_conversion (s : Session) {box : ℕ} {b : Box} (hbox : s.boxes[box]? = some b) :
    let t := b.type
    let p := b.get s.memory
    let display := s.step (.text box .display)
    let asked (m : Conversion) := s.step (.text box (.convert m))
    (∀ c m, Conversion.direct? c = some m → asked (.code c) = asked m) ∧
    (∀ c v, (asked (.code c)).2 = .answer (.converted v) →
      v.code = if c = .object then t.code else c) ∧
    (asked (.code .object) = asked (.code t.code) ∧ t.code ≠ .object) ∧
    (∃ q, asked (.code t.code) = (s, .answer (.converted (.payload q))) ∧ q.type = t ∧
      (p.isNan = false → q = p) ∧ (p.isNan = true → q.isNan = true)) ∧
    (∃ shown, display.2 = .answer (.text shown) ∧
      asked (.code .string) = (display.1, .answer (.converted (.text shown)))) ∧
    asked (.code .decimal) = (s, .fault (.notSupported ("Decimal conversion on " ++ t.name))) ∧
    ∀ c, c = .dateTime ∨ c = .empty ∨ c = .dbNull → asked (.code c) =
      (s, .fault (.invalidCast ("Invalid cast from '" ++ t.name ++ "' to '" ++ c.name ++ "'"))) := by
  intro t p display asked
  have hcode {c : TypeCode} (hc : c ≠ .string) :
      asked (.code c) = (s, .ofExcept .converted (p.toCode (p.display s.text).2 c)) :=
    step_convert_code hbox hc
  have hown : asked (.code t.code) = (s, .ofExcept .converted (Converted.payload <$> p.toPayload t)) := by
    rw [hcode (by cases t <;> nofun), ← Payload.toCode_code]
  refine ⟨fun c m hm => ?_, fun c v hv => ?_, ⟨?_, t.code_ne_object⟩, ?_,
    ⟨(p.display s.text).2, ?_, ?_⟩, ?_, fun c hc => ?_⟩
  · simp only [asked, step_convert hbox, Conversion.readsText_direct hm]
    rw [← Payload.toCode_direct _ _ hm]
    rfl
  · simp only [asked, step_convert hbox] at hv
    exact Payload.code_of_toCode _ _ (converted_inj hv)
  · rw [hcode (by decide), hown, Payload.toCode_object, Payload.toCode_code]
    rfl
  · obtain ⟨q, hq, hkept⟩ := p.exists_toPayload_own
    refine ⟨q, ?_, hkept⟩
    rw [hown, show p.toPayload t = .ok q from hq]
    rfl
  · rw [show display = _ from step_display hbox]
  · rw [show display = _ from step_display hbox, show asked (.code .string) = _ from step_convert hbox _]
    rw [Payload.convert, Payload.toCode_string]
    rfl
  · rw [hcode (by decide), Payload.toCode_decimal]
    rfl
  · have hstring : c ≠ .string := by
      rintro rfl
      simp at hc
    rw [hcode hstring, Payload.toCode_refused _ _ hc]
    rfl

/-- The greatest integer of all types comes back as an object. -/
theorem type_conversion_greatest :
    let p := Payload.ofNat .uint64 (2 ^ 64 - 1)
    let s := (initial.run [.create (.box p)]).1
    let asked (c : TypeCode) := s.step (.text 0 (.convert (.code c)))
    s.boxes[0]? = some ⟨.uint64, ⟨0, 0⟩, false⟩ ∧
      asked .object = (s, .answer (.converted (.payload p))) ∧
      asked .decimal = (s, .fault (.notSupported "Decimal conversion on UInt64")) := by
  intro p s asked
  have hbox : s.boxes[0]? = some ⟨.uint64, ⟨0, 0⟩, false⟩ := rfl
  obtain ⟨-, -, ⟨hobject, -⟩, ⟨q, hown, -, hkept, -⟩, -, hdecimal, -⟩ := type_conversion s hbox
  have hq : q = p := hkept rfl
  exact ⟨hbox, hobject.trans (hq ▸ hown), hdecimal⟩

end Session

end ManagedTypes
