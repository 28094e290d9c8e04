import ManagedTypes.Proofs.IntegerConversion
import ManagedTypes.Proofs.PatternOrder
import ManagedTypes.Session.Step

/-! Comparison of payloads of one type: the order of their exact numbers, from which NaN is left out. -/
namespace ManagedTypes

theorem PayloadType.two_le_exponent {t : PayloadType} {f : Ieee.Format} (h : t.ieee? = some f) :
    2 ≤ f.exponent := by
  cases t <;> cases h <;> decide

namespace Payload

/-- Integers are numbers, all of them. -/
def isNan (p : Payload) : Bool :=
  match p.content with
  | .integer _ => false
  | .float f bits => f.isNan bits

/-- The number of a payload on the line with its two ends. -/
def extended? (p : Payload) : Option (WithBot (WithTop ℚ)) :=
  match p.content with
  | .integer v => some ((v : ℚ) : WithTop ℚ)
  | .float f bits => f.extended? bits

/-- Two payloads of one type are two integers or two patterns of one format. -/
theorem pair_cases {x y : Payload} (h : y.type = x.type) :
    (∃ v w, x.content = .integer v ∧ y.content = .integer w) ∨
      ∃ f, x.type.ieee? = some f ∧ x.content = .float f x.toNat ∧ y.content = .float f y.toNat := by
  cases hf : x.type.ieee? with
  | none =>
    obtain ⟨v, hv⟩ := exists_integer hf
    obtain ⟨w, hw⟩ := exists_integer (p := y) (h ▸ hf)
    exact .inl ⟨v, w, content_of_integer? hv, content_of_integer? hw⟩
  | some f => exact .inr ⟨f, rfl, content_of_ieee? hf, content_of_ieee? (h ▸ hf)⟩

theorem exists_extended? (p : Payload) (h : p.isNan = false) : ∃ u, p.extended? = some u := by
  rcases p.content_cases with ⟨f, -, hexponent, -, hc⟩ | ⟨-, -, hc⟩ | ⟨-, -, hc⟩
  · simp only [isNan, hc] at h
    exact ⟨_, by simp only [extended?, hc, Ieee.Format.extended?_eq hexponent, h]; rfl⟩
  · exact ⟨_, by rw [extended?, hc]⟩
  · exact ⟨_, by rw [extended?, hc]⟩

variable {x y z : Payload} (hy : y.type = x.type)
include hy

theorem order_swap : (x.order y).swap = y.order x := by
  rcases pair_cases hy with ⟨v, w, hv, hw⟩ | ⟨f, -, hcx, hcy⟩
  · rw [order, order, hv, hw]
    simp only [← cmp_eq_compare, cmp_swap]
  · rw [order, order, hcx, hcy]
    exact Ieee.Format.order_swap _ _

theorem order_eq_cmp {u v : WithBot (WithTop ℚ)} (hu : x.extended? = some u)
    (hv : y.extended? = some v) : x.order y = cmp u v := by
  unfold extended? at hu hv
  rcases pair_cases hy with ⟨m, n, hm, hn⟩ | ⟨f, hf, hcx, hcy⟩
  · rw [hm] at hu
    rw [hn] at hv
    cases hu
    cases hv
    have hcast : StrictMono fun k : ℤ => (((k : ℚ) : WithTop ℚ) : WithBot (WithTop ℚ)) :=
      WithBot.coe_strictMono.comp (WithTop.coe_strictMono.comp Int.cast_strictMono)
    rw [order, hm, hn, hcast.cmp_map_eq, cmp_eq_compare]
  · rw [hcx] at hu
    rw [hcy] at hv
    rw [order, hcx, hcy]
    exact Ieee.Format.order_eq_cmp (PayloadType.two_le_exponent hf) hu hv

theorem order_eq_eq_iff :
    x.order y = .eq ↔ x.equal y = true ∨ x.isNan = true ∨ y.isNan = true := by
  rcases pair_cases hy with ⟨v, w, hv, hw⟩ | ⟨f, -, hcx, hcy⟩
  · simp [order, equal, isNan, hv, hw, hy]
  · simp only [order, equal, isNan, hcx, hcy, hy, beq_self_eq_true, Bool.true_and]
    exact Ieee.Format.order_eq_eq_iff

/-- Between three numbers, what is not greater is not greater in the end. -/
theorem order_trans (hz : z.type = x.type) (hx : x.isNan = false) (hny : y.isNan = false)
    (hnz : z.isNan = false) (hxy : x.order y ≠ .gt) (hyz : y.order z ≠ .gt) : x.order z ≠ .gt := by
  obtain ⟨u, hu⟩ := x.exists_extended? hx
  obtain ⟨v, hv⟩ := y.exists_extended? hny
  obtain ⟨w, hw⟩ := z.exists_extended? hnz
  rw [order_eq_cmp hy hu hv, Ne, cmp_eq_gt_iff, not_lt] at hxy
  rw [order_eq_cmp (hz.trans hy.symm) hv hw, Ne, cmp_eq_gt_iff, not_lt] at hyz
  rw [order_eq_cmp hz hu hw, Ne, cmp_eq_gt_iff, not_lt]
  exact hxy.trans hyz

end Payload

namespace Session

/-- The laws of comparison, for payloads of every type: the reverse of a comparison is the comparison
reversed; without NaN it is the order of the numbers, the infinities at its ends; and payloads compare
equal when they are equal or one is NaN. Boxes of one type compare as their payloads do, everything comes
after no object at all, and an object of another type is refused. -/
theorem comparison_laws (t : PayloadType) :
    (∀ x y z : Payload, x.type = t → y.type = t → z.type = t →
      (x.order y).swap = y.order x ∧
      (x.isNan = false → y.isNan = false →
        ∃ u v, x.extended? = some u ∧ y.extended? = some v ∧ x.order y = cmp u v) ∧
      (x.isNan = false → y.isNan = false → z.isNan = false →
        x.order y ≠ .gt → y.order z ≠ .gt → x.order z ≠ .gt) ∧
      (x.order y = .eq ↔ x.equal y = true ∨ x.isNan = true ∨ y.isNan = true)) ∧
    ∀ (s : Session) (box : ℕ) (b : Box), s.boxes[box]? = some b → b.type = t →
      let asked (q : BoxQuery) := (s.step (.query box q)).2
      (∀ x : Payload, x.type = t →
        asked (.compareTo x) = .answer (.order ((b.get s.memory).order x))) ∧
      asked (.compareToObject none) = .answer (.order .gt) ∧
      ∀ (other : ℕ) (c : Box), s.boxes[other]? = some c →
        (c.type = t → asked (.compareToObject (some other)) = asked (.compareTo (c.get s.memory))) ∧
        (c.type ≠ t → asked (.compareToObject (some other)) =
          .fault (.argument ("Object must be of type " ++ t.name))) := by
  refine ⟨fun x y z hx hy hz => ?_, fun s box b hb ht => ?_⟩
  · have hxy := hy.trans hx.symm
    refine ⟨Payload.order_swap hxy, fun hnx hny => ?_, Payload.order_trans hxy (hz.trans hx.symm),
      Payload.order_eq_eq_iff hxy⟩
    obtain ⟨u, hu⟩ := x.exists_extended? hnx
    obtain ⟨v, hv⟩ := y.exists_extended? hny
    exact ⟨u, v, hu, hv, Payload.order_eq_cmp hxy hu hv⟩
  · subst ht
    intro asked
    have hasked (q : BoxQuery) : asked q = s.query b q := by
      simp only [asked, step, onBox, hb]
    refine ⟨fun x hx => ?_, by rw [hasked]; rfl, fun other c hc => ⟨fun hsame => ?_, fun hother => ?_⟩⟩
    · rw [hasked, query, if_pos hx]
    · rw [hasked, hasked, query, query, Box.get_type, if_pos hsame]
      simp only [hc, if_pos hsame]
    · rw [hasked, query]
      simp only [hc, if_neg hother]

/-- The negative infinity against a zero, and against a single. -/
theorem comparison_laws_infinity :
    let x := Payload.ofNat .double 0xFFF0000000000000
    let y := Payload.ofNat .double 0x8000000000000000
    let s := (initial.run [.create (.box x), .create (.box y),
      .create (.box (.ofNat .single 0))]).1
    let asked (q : BoxQuery) := (s.step (.query 0 q)).2
    x.isNan = false ∧ y.isNan = false ∧
      (∃ u v, x.extended? = some u ∧ y.extended? = some v ∧ x.order y = cmp u v) ∧
      asked (.compareToObject (some 1)) = asked (.compareTo y) ∧
      asked (.compareToObject (some 2)) = .fault (.argument "Object must be of type Double") := by
  intro x y s asked
  have hx : x.isNan = false := by decide +kernel
  have hy : y.isNan = false := by decide +kernel
  obtain ⟨hlaws, hboxes⟩ := comparison_laws .double
  obtain ⟨-, hnumbers, -, -⟩ := hlaws x y x rfl rfl rfl
  obtain ⟨-, -, hobjects⟩ := hboxes s 0 ⟨.double, ⟨0, 0⟩, false⟩ rfl rfl
  have hget : (⟨.double, ⟨1, 0⟩, false⟩ : Box).get s.memory = y := by decide +kernel
  have hsame := (hobjects 1 ⟨.double, ⟨1, 0⟩, false⟩ rfl).1 rfl
  rw [hget] at hsame
  exact ⟨hx, hy, hnumbers hx hy, hsame, (hobjects 2 ⟨.single, ⟨2, 0⟩, false⟩ rfl).2 (by decide)⟩

end Session

end ManagedTypes
