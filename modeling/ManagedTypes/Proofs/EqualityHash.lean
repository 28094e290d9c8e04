import ManagedTypes.Proofs.PayloadOrder

/-! Equality and hash codes agree: equal payloads hash alike, since the hash of a float tells neither the
zeros nor the NaNs of a format apart. -/
namespace ManagedTypes

namespace Ieee.Format

variable {f : Format} {bits : ℕ}

/-- The bits that a pattern shares with infinity are its exponent field. -/
theorem and_infinityBits (f : Format) (n : ℕ) :
    n &&& f.infinityBits = f.exponentField n * 2 ^ f.fraction := by
  apply Nat.eq_of_testBit_eq
  intro i
  rw [Nat.testBit_and, infinityBits, exponentField, Nat.testBit_mul_two_pow, Nat.testBit_mul_two_pow,
    Nat.testBit_two_pow_sub_one, Nat.testBit_mod_two_pow, Nat.testBit_div_two_pow]
  by_cases hi : f.fraction ≤ i
  · simp [hi, Bool.and_comm]
  · simp [hi]

theorem exponentField_of_isNan (h : f.isNan bits = true) : f.exponentField bits = 2 ^ f.exponent - 1 := by
  have hlt : f.exponentField bits < 2 ^ f.exponent := Nat.mod_lt _ (by positivity)
  have hge : 2 ^ f.exponent - 1 ≤ f.exponentField bits := by
    rw [exponentField_eq, Nat.le_div_iff_mul_le (by positivity)]
    exact (of_decide_eq_true h).le
  omega

theorem exponentField_of_isZero (h : f.isZero bits = true) : f.exponentField bits = 0 := by
  rw [exponentField_eq, beq_iff_eq.mp h, Nat.zero_div]

/-- Less one, a zero has the greatest magnitude. -/
theorem magnitudeBits_pred (bits : ℕ) :
    f.magnitudeBits (2 * f.signBit - 1 + bits) =
      if f.isZero bits then f.signBit - 1 else f.magnitudeBits bits - 1 := by
  have hpos : 0 < f.signBit := signBit_pos
  have hsplit := Nat.div_add_mod bits f.signBit
  have hlt : bits % f.signBit < f.signBit := Nat.mod_lt _ hpos
  simp only [isZero, magnitudeBits, beq_iff_eq]
  split
  next hzero =>
    have hpred : 2 * f.signBit - 1 + bits = f.signBit - 1 + f.signBit * (bits / f.signBit + 1) := by
      rw [Nat.mul_succ]
      omega
    rw [hpred, Nat.add_mul_mod_self_left, Nat.mod_eq_of_lt (by omega)]
  next hzero =>
    have hpred : 2 * f.signBit - 1 + bits =
        bits % f.signBit - 1 + f.signBit * (bits / f.signBit + 2) := by
      rw [Nat.mul_add]
      omega
    rw [hpred, Nat.add_mul_mod_self_left, Nat.mod_eq_of_lt (by omega)]

/-- The comparison that finds the NaNs and the zeros. -/
theorem infinityBits_le_pred (bits : ℕ) :
    f.infinityBits ≤ f.magnitudeBits (2 * f.signBit - 1 + bits) ↔
      f.isNan bits = true ∨ f.isZero bits = true := by
  have hlt := f.infinityBits_lt
  rw [magnitudeBits_pred]
  simp only [isNan, isZero, decide_eq_true_eq, beq_iff_eq]
  split <;> omega

/-- What is hashed of a pattern: NaN is infinity, and the zeros are one. -/
def hashedPattern (f : Format) (bits : ℕ) : ℕ :=
  if f.isNan bits then f.infinityBits else if f.isZero bits then 0 else bits

theorem hashedPattern_of_isNan (h : f.isNan bits = true) : f.hashedPattern bits = f.infinityBits :=
  if_pos h

theorem hashedPattern_of_isZero (h : f.isZero bits = true) : f.hashedPattern bits = 0 := by
  have hnan : f.isNan bits = false := by simp [isNan, beq_iff_eq.mp h]
  simp [hashedPattern, hnan, h]

variable {a b : ℕ}

theorem hashedPattern_of_equal (ha : a < 2 * f.signBit) (hb : b < 2 * f.signBit)
    (h : f.equal a b = true) : f.hashedPattern a = f.hashedPattern b := by
  obtain ⟨-, -, rfl | ⟨hza, hzb⟩⟩ := (equal_iff ha hb).mp h
  · rfl
  · rw [hashedPattern_of_isZero hza, hashedPattern_of_isZero hzb]

/-- Besides the NaNs, only the positive infinity is hashed as infinity is. -/
theorem decode_of_hashedPattern (hf : 2 ≤ f.exponent) (h : f.hashedPattern bits = f.infinityBits) :
    f.decode bits = .nan ∨ f.decode bits = .infinite false := by
  cases hnan : f.isNan bits with
  | true => exact .inl (decode_eq_nan_iff.mpr hnan)
  | false =>
    have hpos := infinityBits_pos hf
    cases hzero : f.isZero bits with
    | true =>
      rw [hashedPattern_of_isZero hzero] at h
      omega
    | false =>
      simp only [hashedPattern, hnan, hzero, Bool.false_eq_true, if_false] at h
      rw [h]
      exact .inr (f.decode_infinite false)

/-- Patterns that are hashed alike are equal, or each is NaN or the positive infinity. -/
theorem hashedPattern_inj (hf : 2 ≤ f.exponent) (ha : a < 2 * f.signBit) (hb : b < 2 * f.signBit)
    (h : f.hashedPattern a = f.hashedPattern b) : f.equal a b = true ∨
      ∀ bits ∈ [a, b], f.decode bits = .nan ∨ f.decode bits = .infinite false := by
  have hspecial (hinfinity : f.hashedPattern a = f.infinityBits) :
      ∀ bits ∈ [a, b], f.decode bits = .nan ∨ f.decode bits = .infinite false :=
    List.forall_mem_cons.mpr ⟨decode_of_hashedPattern hf hinfinity,
      List.forall_mem_singleton.mpr (decode_of_hashedPattern hf (h ▸ hinfinity))⟩
  cases hna : f.isNan a with
  | true => exact .inr (hspecial (hashedPattern_of_isNan hna))
  | false =>
    cases hnb : f.isNan b with
    | true => exact .inr (hspecial (h.trans (hashedPattern_of_isNan hnb)))
    | false =>
      refine .inl ((equal_iff ha hb).mpr ⟨hna, hnb, ?_⟩)
      have hzero : f.isZero 0 = true := by simp [isZero, magnitudeBits]
      cases hza : f.isZero a <;> cases hzb : f.isZero b <;>
        simp only [hashedPattern, hna, hnb, hza, hzb, Bool.false_eq_true, if_false, if_true] at h
      · exact .inl h
      · rw [h, hzero] at hza
        cases hza
      · rw [← h, hzero] at hzb
        cases hzb
      · exact .inr ⟨rfl, rfl⟩

end Ieee.Format

namespace Payload
open Ieee

section
variable {f : Format} {width : ℕ} (hwidth : width = f.exponent + f.fraction + 1) (bits : BitVec width)
include hwidth

theorem two_pow_width : 2 ^ width = 2 * f.signBit := by
  rw [hwidth, pow_succ', Format.signBit]

theorem toNat_pred_and_magnitude :
    ((bits - 1) &&& BitVec.ofNat width (f.signBit - 1)).toNat =
      f.magnitudeBits (2 * f.signBit - 1 + bits.toNat) := by
  have hpow := two_pow_width hwidth
  have hpos : 0 < f.signBit := Format.signBit_pos
  have hone : (1 : BitVec width).toNat = 1 := BitVec.toNat_one (by omega)
  have hmask : (BitVec.ofNat width (f.signBit - 1)).toNat = f.signBit - 1 :=
    Nat.mod_eq_of_lt (by omega)
  rw [BitVec.toNat_and, BitVec.toNat_sub, hone, hmask, hpow, Format.signBit,
    Nat.and_two_pow_sub_one_eq_mod, ← Format.signBit, Nat.mod_mod_of_dvd _ (dvd_mul_left _ _),
    Format.magnitudeBits]

theorem toNat_hashedBits : (hashedBits f bits).toNat = f.hashedPattern bits.toNat := by
  have hpow := two_pow_width hwidth
  have hlt := f.infinityBits_lt
  have hinfinity : (BitVec.ofNat width f.infinityBits).toNat = f.infinityBits :=
    Nat.mod_eq_of_lt (by omega)
  have hpred := toNat_pred_and_magnitude hwidth bits
  have hmagnitude : f.magnitudeBits (2 * f.signBit - 1 + bits.toNat) < f.signBit :=
    Nat.mod_lt _ Format.signBit_pos
  -- Neither side has a sign, so that the signed comparison is one of magnitudes.
  have hcondition : (BitVec.ofNat width f.infinityBits).sle
        ((bits - 1) &&& BitVec.ofNat width (f.signBit - 1)) = true ↔
      f.isNan bits.toNat = true ∨ f.isZero bits.toNat = true := by
    rw [BitVec.sle_iff_toInt_le, BitVec.toInt_eq_toNat_of_lt (by omega),
      BitVec.toInt_eq_toNat_of_lt (by omega), hinfinity, hpred, Int.ofNat_le,
      Format.infinityBits_le_pred]
  unfold hashedBits Format.hashedPattern
  dsimp only
  cases hnan : f.isNan bits.toNat with
  | true =>
    rw [if_pos (hcondition.mpr (.inl hnan)), BitVec.toNat_and, hinfinity, Format.and_infinityBits,
      Format.exponentField_of_isNan hnan, if_pos rfl, Format.infinityBits]
  | false =>
    cases hzero : f.isZero bits.toNat with
    | true =>
      rw [if_pos (hcondition.mpr (.inr hzero)), BitVec.toNat_and, hinfinity, Format.and_infinityBits,
        Format.exponentField_of_isZero hzero, Nat.zero_mul]
      simp
    | false =>
      rw [if_neg (by rw [hcondition]; simp [hnan, hzero])]
      simp

end

variable {x y : Payload}

theorem hashCode_of_ieee? {f : Format} (hf : x.type.ieee? = some f) :
    x.hashCode =
      if x.type.width = 64 then foldWord (BitVec.ofNat 64 (f.hashedPattern x.toNat))
      else BitVec.ofNat 32 (f.hashedPattern x.toNat) := by
  have hbits := toNat_hashedBits (PayloadType.width_of_ieee? hf) x.bits
  rw [toNat, ← hbits, BitVec.ofNat_toNat, BitVec.ofNat_toNat, hashCode, content_of_ieee? hf]

theorem equal_of_ieee? {f : Format} (h : y.type = x.type) (hf : x.type.ieee? = some f) :
    x.equal y = f.equal x.toNat y.toNat := by
  rw [equal, content_of_ieee? hf, content_of_ieee? (h ▸ hf), h, beq_self_eq_true, Bool.true_and]

/-- Integral payloads of one type are equal when they are the same. -/
theorem equal_iff_eq (h : y.type = x.type) (hx : x.type.ieee? = none) :
    x.equal y = true ↔ x = y := by
  obtain ⟨v, hv⟩ := exists_integer hx
  obtain ⟨w, hw⟩ := exists_integer (p := y) (h ▸ hx)
  have hequal : x.equal y = (v == w) := by
    rw [equal, content_of_integer? hv, content_of_integer? hw, h, beq_self_eq_true, Bool.true_and]
  rw [hequal, beq_iff_eq]
  constructor
  · rintro rfl
    rw [eq_ofInt hv, eq_ofInt hw, h]
  · rintro rfl
    exact Option.some.inj (hv.symm.trans hw)

theorem hashCode_of_equal (h : x.equal y = true) : x.hashCode = y.hashCode := by
  have ht := (equal_type h).symm
  cases hf : x.type.ieee? with
  | none => rw [(equal_iff_eq ht hf).mp h]
  | some f =>
    have hfy : y.type.ieee? = some f := ht ▸ hf
    rw [equal_of_ieee? ht hf] at h
    rw [hashCode_of_ieee? hf, hashCode_of_ieee? hfy, ht,
      Format.hashedPattern_of_equal (toNat_lt hf) (toNat_lt hfy) h]

theorem hashCode_of_integer? {v : ℤ} (hwidth : x.type.width ≤ 32) (hv : x.integer? = some v) :
    x.hashCode = BitVec.ofInt 32 v := by
  have hnarrow : x.type.width ≠ 64 := by omega
  simp only [hashCode, content_of_integer? hv, if_neg hnarrow]

/-- Integers of narrow types do not share a hash code. -/
theorem integer_inj_of_hashCode {v w : ℤ} (h : y.type = x.type) (hwidth : x.type.width ≤ 32)
    (hv : x.integer? = some v) (hw : y.integer? = some w) (hhash : x.hashCode = y.hashCode) :
    v = w := by
  have hspan : x.type.range.high - x.type.range.low < 2 ^ 32 := by
    revert hwidth
    generalize x.type = t
    cases t <;> decide
  obtain ⟨hlv, hhv⟩ := IntRange.contains_iff.mp (contains_of_integer? hv)
  obtain ⟨hlw, hhw⟩ := IntRange.contains_iff.mp (contains_of_integer? hw)
  rw [h] at hlw hhw
  rw [hashCode_of_integer? hwidth hv, hashCode_of_integer? (h ▸ hwidth) hw] at hhash
  have hmod := congrArg BitVec.toNat hhash
  rw [BitVec.toNat_ofInt, BitVec.toNat_ofInt] at hmod
  omega

/-- A narrow float is hashed to no less than its pattern. -/
theorem pattern_of_hashCode {f : Format} (h : y.type = x.type) (hf : x.type.ieee? = some f)
    (hwidth : x.type.width ≤ 32) (hhash : x.hashCode = y.hashCode) :
    f.hashedPattern x.toNat = f.hashedPattern y.toNat := by
  have hlt {p : Payload} (hp : p.type = x.type) : f.hashedPattern p.toNat < 2 ^ 32 := by
    have hnarrow : p.type.width ≤ 32 := hp ▸ hwidth
    rw [toNat, ← toNat_hashedBits (PayloadType.width_of_ieee? (hp ▸ hf)) p.bits]
    exact (BitVec.isLt _).trans_le (Nat.pow_le_pow_right (by norm_num) hnarrow)
  have hnarrow : ¬x.type.width = 64 := by omega
  rw [hashCode_of_ieee? hf, hashCode_of_ieee? (h ▸ hf : y.type.ieee? = some f), h, if_neg hnarrow,
    if_neg hnarrow] at hhash
  have hcodes := congrArg BitVec.toNat hhash
  rwa [BitVec.toNat_ofNat, BitVec.toNat_ofNat, Nat.mod_eq_of_lt (hlt rfl), Nat.mod_eq_of_lt (hlt h)]
    at hcodes

/-- Hash codes of at most 32 bits tell apart what is not equal, but for NaN and the positive infinity. -/
theorem equal_of_hashCode (h : y.type = x.type) (hwidth : x.type.width ≤ 32)
    (hhash : x.hashCode = y.hashCode) : x.equal y = true ∨ ∃ f, x.type.ieee? = some f ∧
      ∀ p ∈ [x, y], f.decode p.toNat = .nan ∨ f.decode p.toNat = .infinite false := by
  cases hf : x.type.ieee? with
  | none =>
    obtain ⟨v, hv⟩ := exists_integer hf
    obtain ⟨w, hw⟩ := exists_integer (p := y) (h ▸ hf)
    have hvw := integer_inj_of_hashCode h hwidth hv hw hhash
    refine .inl ((equal_iff_eq h hf).mpr ?_)
    rw [eq_ofInt hv, eq_ofInt hw, h, hvw]
  | some f =>
    have hpattern := pattern_of_hashCode h hf hwidth hhash
    rw [equal_of_ieee? h hf]
    refine (Format.hashedPattern_inj (PayloadType.two_le_exponent hf) (toNat_lt hf)
      (toNat_lt (h ▸ hf : y.type.ieee? = some f)) hpattern).imp_right fun hspecial => ⟨f, rfl, ?_⟩
    exact List.forall_mem_cons.mpr ⟨hspecial _ (by simp),
      List.forall_mem_singleton.mpr (hspecial _ (by simp))⟩

/-- The NaNs of a type share one hash code, and its zeros another. -/
theorem hashCode_congr {f : Format} (h : y.type = x.type) (hf : x.type.ieee? = some f)
    (hpair : f.isNan x.toNat = true ∧ f.isNan y.toNat = true ∨
      f.isZero x.toNat = true ∧ f.isZero y.toNat = true) : x.hashCode = y.hashCode := by
  have hpattern : f.hashedPattern x.toNat = f.hashedPattern y.toNat := by
    rcases hpair with ⟨hx, hy⟩ | ⟨hx, hy⟩
    · rw [Format.hashedPattern_of_isNan hx, Format.hashedPattern_of_isNan hy]
    · rw [Format.hashedPattern_of_isZero hx, Format.hashedPattern_of_isZero hy]
  rw [hashCode_of_ieee? hf, hashCode_of_ieee? (h ▸ hf : y.type.ieee? = some f), h, hpattern]

end Payload

namespace Session

/-- Equality and hash codes of two boxes, which may be of any types and may alias. Equal as objects, they
are of one type and feed the same code to a hash. Of one type, all ways to ask for equality agree: integers
are equal when they are the same, floats when neither is NaN and they are the same or both zero. The NaNs
of a type share a hash code, and so do the zeros; what else of at most 32 bits shares one is equal, but for
the positive infinity, which has that of the NaNs. -/
theorem equality_hash_coherent (s : Session) (i j : ℕ) (b c : Box) (hb : s.boxes[i]? = some b)
    (hc : s.boxes[j]? = some c) :
    let x := b.get s.memory
    let y := c.get s.memory
    let asked (box : ℕ) (q : BoxQuery) := (s.step (.query box q)).2
    ∃ (same : Bool) (m n : HashCode),
      asked i (.equalsObject j) = .answer (.truth same) ∧
      asked i .hash = .answer (.hash m [m]) ∧ asked j .hash = .answer (.hash n [n]) ∧
      (same = true → b.type.code = c.type.code ∧ m = n) ∧
      (c.type = b.type →
        asked i (.equals j) = .answer (.truth same) ∧
        asked i (.equalsValue y) = .answer (.truth same) ∧
        (b.type.ieee? = none → (same = true ↔ x = y)) ∧
        (∀ f, b.type.ieee? = some f →
          (same = true ↔ f.isNan x.toNat = false ∧ f.isNan y.toNat = false ∧
            (x.toNat = y.toNat ∨ f.isZero x.toNat = true ∧ f.isZero y.toNat = true)) ∧
          (f.isNan x.toNat = true ∧ f.isNan y.toNat = true ∨
            f.isZero x.toNat = true ∧ f.isZero y.toNat = true → m = n)) ∧
        (b.type.width ≤ 32 → m = n → same = true ∨ ∃ f, b.type.ieee? = some f ∧
          ∀ p ∈ [x, y], f.decode p.toNat = .nan ∨ f.decode p.toNat = .infinite false)) := by
  intro x y asked
  have hasked (q : BoxQuery) : asked i q = s.query b q := by
    simp only [asked, step, onBox, hb]
  refine ⟨x.equal y, x.hashCode, y.hashCode, ?_, by rw [hasked]; rfl, ?_, fun hsame => ?_,
    fun ht => ⟨?_, ?_, fun hf => Payload.equal_iff_eq ht hf, fun f hf => ⟨?_, ?_⟩, fun hwidth hhash => ?_⟩⟩
  · simp only [hasked, query, hc, x, y]
  · simp only [asked, step, onBox, hc]
    rfl
  · exact ⟨congrArg PayloadType.code (Payload.equal_type hsame), Payload.hashCode_of_equal hsame⟩
  · simp only [hasked, query, hc, withSameType, if_pos ht.symm, x, y]
  · rw [hasked]
    exact if_pos ht
  · have hfy : y.type.ieee? = some f := (congrArg PayloadType.ieee? ht).trans hf
    rw [Payload.equal_of_ieee? ht hf]
    exact Ieee.Format.equal_iff (Payload.toNat_lt hf) (Payload.toNat_lt hfy)
  · exact Payload.hashCode_congr ht hf
  · exact Payload.equal_of_hashCode ht hwidth hhash

/-- Two doubles, the one zero and the other. -/
theorem equality_hash_coherent_zeros :
    let s := (initial.run [.create (.box (.ofNat .double 0)),
      .create (.box (.ofNat .double 0x8000000000000000))]).1
    let b : Box := ⟨.double, ⟨0, 0⟩, false⟩
    let c : Box := ⟨.double, ⟨1, 0⟩, false⟩
    s.boxes[0]? = some b ∧ s.boxes[1]? = some c ∧ b.get s.memory ≠ c.get s.memory ∧
      ∃ code, (s.step (.query 0 (.equalsObject 1))).2 = .answer (.truth true) ∧
        (s.step (.query 0 .hash)).2 = .answer (.hash code [code]) ∧
        (s.step (.query 1 .hash)).2 = .answer (.hash code [code]) := by
  intro s b c
  have hb : s.boxes[0]? = some b := rfl
  have hc : s.boxes[1]? = some c := rfl
  obtain ⟨same, m, n, hsame, hm, hn, hequal, hone⟩ := equality_hash_coherent s 0 1 b c hb hc
  obtain ⟨-, -, -, hfloat, -⟩ := hone rfl
  obtain rfl : same = true := (hfloat Ieee.double rfl).1.mpr
    ⟨by decide +kernel, by decide +kernel, .inr ⟨by decide +kernel, by decide +kernel⟩⟩
  obtain ⟨-, rfl⟩ := hequal rfl
  exact ⟨hb, hc, by decide +kernel, m, hsame, hm, hn⟩

end Session

end ManagedTypes
