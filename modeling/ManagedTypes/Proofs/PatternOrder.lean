import ManagedTypes.Proofs.ExactValue

/-! The order of patterns, which are a sign and a magnitude, is that of the numbers they stand for; the
infinities are the ends of the line. -/
namespace ManagedTypes.Ieee.Format

/-- The number of a pattern on the line with its two ends; NaN has no place on it. -/
def extended? (f : Format) (bits : ℕ) : Option (WithBot (WithTop ℚ)) :=
  match f.decode bits with
  | .nan => none
  | .infinite negative => some (if negative then ⊥ else ⊤)
  | .finite _ _ => some (f.toRat bits : WithTop ℚ)

variable {f : Format} {a b : ℕ}

theorem natAbs_rank (bits : ℕ) : (f.rank bits).natAbs = f.magnitudeBits bits := by
  unfold rank
  split <;> omega

/-- The two zeros are the only patterns that share a rank. -/
theorem rank_eq_iff (ha : a < 2 * f.signBit) (hb : b < 2 * f.signBit) :
    f.rank a = f.rank b ↔ a = b ∨ f.isZero a = true ∧ f.isZero b = true := by
  constructor
  · intro h
    have hmagnitude : f.magnitudeBits a = f.magnitudeBits b := by
      rw [← natAbs_rank, h, natAbs_rank]
    by_cases hsign : f.isNegative a = f.isNegative b
    · exact .inl (by
        rw [← f.withSign_magnitudeBits ha, hsign, hmagnitude, f.withSign_magnitudeBits hb])
    · have hzero : f.magnitudeBits a = 0 := by
        revert h hsign
        unfold rank
        cases f.isNegative a <;> cases f.isNegative b <;> simp <;> omega
      exact .inr ⟨by simp [isZero, hzero], by simp [isZero, ← hmagnitude, hzero]⟩
  · rintro (rfl | ⟨hza, hzb⟩)
    · rfl
    · simp only [isZero, beq_iff_eq] at hza hzb
      simp [rank, hza, hzb]

theorem equal_iff (ha : a < 2 * f.signBit) (hb : b < 2 * f.signBit) :
    f.equal a b = true ↔ f.isNan a = false ∧ f.isNan b = false ∧
      (a = b ∨ f.isZero a = true ∧ f.isZero b = true) := by
  simp [equal, rank_eq_iff ha hb, and_assoc]

/-- Only NaN keeps the order of two patterns from being that of their ranks. -/
theorem order_of_not_isNan (ha : f.isNan a = false) (hb : f.isNan b = false) :
    f.order a b = cmp (f.rank a) (f.rank b) := by
  simp only [order, less, ha, hb, Bool.not_false, Bool.true_and, decide_eq_true_eq, cmp, cmpUsing]

theorem order_of_isNan (h : f.isNan a = true ∨ f.isNan b = true) : f.order a b = .eq := by
  rcases h with h | h <;> simp [order, less, h]

theorem order_swap (a b : ℕ) : (f.order a b).swap = f.order b a := by
  cases ha : f.isNan a with
  | true => rw [order_of_isNan (.inl ha), order_of_isNan (.inr ha)]; rfl
  | false =>
    cases hb : f.isNan b with
    | true => rw [order_of_isNan (.inr hb), order_of_isNan (.inl hb)]; rfl
    | false => rw [order_of_not_isNan ha hb, order_of_not_isNan hb ha, cmp_swap]

theorem order_eq_eq_iff :
    f.order a b = .eq ↔ f.equal a b = true ∨ f.isNan a = true ∨ f.isNan b = true := by
  cases ha : f.isNan a with
  | true => simp [order_of_isNan (.inl ha)]
  | false =>
    cases hb : f.isNan b with
    | true => simp [order_of_isNan (.inr hb)]
    | false => simp [order_of_not_isNan ha hb, cmp_eq_eq_iff, equal, ha, hb]

/-! Ranks and numbers. -/

variable (f)

/-- The number of a rank, counted in least steps. -/
def stepsOfRank (r : ℤ) : ℤ := if r < 0 then -f.stepsAt r.natAbs else f.stepsAt r.natAbs

theorem stepsOfRank_natCast (m : ℕ) : f.stepsOfRank m = f.stepsAt m := by
  simp [stepsOfRank]

theorem stepsOfRank_neg (m : ℕ) : f.stepsOfRank (-m) = -f.stepsAt m := by
  rcases Nat.eq_zero_or_pos m with rfl | hm
  · simp [stepsOfRank, stepsAt]
  · simp [stepsOfRank, hm]

theorem stepsOfRank_strictMono : StrictMono f.stepsOfRank := by
  refine strictMono_int_of_lt_succ fun r => ?_
  cases r with
  | ofNat m =>
    have hnext := f.stepsOfRank_natCast (m + 1)
    rw [Nat.cast_succ] at hnext
    rw [Int.ofNat_eq_natCast, hnext, stepsOfRank_natCast]
    exact_mod_cast f.stepsAt_lt_succ m
  | negSucc m =>
    have hnext : -((m : ℤ) + 1) + 1 = -m := by ring
    rw [Int.negSucc_eq, hnext, ← Nat.cast_succ, stepsOfRank_neg, stepsOfRank_neg]
    exact neg_lt_neg (by exact_mod_cast f.stepsAt_lt_succ m)

/-- The place of a rank on the line: the greatest and the least are the ends. -/
def place (r : ℤ) : WithBot (WithTop ℚ) :=
  if r = -f.infinityBits then ⊥
  else if r = f.infinityBits then ⊤
  else ((f.stepsOfRank r / 2 ^ f.unit : ℚ) : WithTop ℚ)

theorem place_strictMonoOn :
    StrictMonoOn f.place (Set.Icc (-(f.infinityBits : ℤ)) f.infinityBits) := by
  intro r hr s hs hlt
  have hleast : s ≠ -f.infinityBits := (hr.1.trans_lt hlt).ne'
  have hgreatest : r ≠ f.infinityBits := (hlt.trans_le hs.2).ne
  unfold place
  rw [if_neg hleast, if_neg hgreatest]
  split_ifs with hbottom htop
  · exact WithBot.bot_lt_coe _
  · exact WithBot.bot_lt_coe _
  · exact WithBot.coe_lt_coe.mpr (WithTop.coe_lt_top _)
  · have hsteps : (f.stepsOfRank r : ℚ) < f.stepsOfRank s := by
      exact_mod_cast f.stepsOfRank_strictMono hlt
    exact WithBot.coe_lt_coe.mpr (WithTop.coe_lt_coe.mpr (by gcongr))

variable {f}

theorem signed_div (negative : Bool) (x y : ℚ) : signed negative x / y = signed negative (x / y) := by
  cases negative with
  | false => rfl
  | true => exact neg_div y x

theorem stepsOfRank_rank (bits : ℕ) :
    (f.stepsOfRank (f.rank bits) : ℚ) = signed (f.isNegative bits) (f.steps bits) := by
  rw [steps_magnitudeBits, signed, rank]
  cases f.isNegative bits with
  | false => simp [stepsOfRank_natCast]
  | true => simp [stepsOfRank_neg]

/-- Every pattern but NaN stands at the place of its rank. -/
theorem extended?_eq (hf : 2 ≤ f.exponent) (bits : ℕ) :
    f.extended? bits = if f.isNan bits then none else some (f.place (f.rank bits)) := by
  have hpos := infinityBits_pos hf
  unfold extended?
  cases hd : f.decode bits with
  | nan => rw [if_pos (decode_eq_nan_iff.mp hd)]
  | infinite negative =>
    obtain ⟨hinfinite, rfl⟩ := decode_eq_infinite_iff.mp hd
    have hnan : ¬f.isNan bits = true := by simp [isNan, hinfinite]
    rw [if_neg hnan, place, rank, hinfinite]
    cases f.isNegative bits with
    | true => simp
    | false => simp [hpos.ne']
  | finite negative n =>
    obtain ⟨hfinite, -, -⟩ := decode_eq_finite_iff.mp hd
    have habs := f.natAbs_rank bits
    simp only [isFinite, decide_eq_true_eq] at hfinite
    have hnan : ¬f.isNan bits = true := by simpa [isNan] using hfinite.le
    rw [if_neg hnan, place, if_neg (by omega), if_neg (by omega), stepsOfRank_rank, f.toRat_eq hf,
      signed_div]

theorem rank_mem {bits : ℕ} (h : f.isNan bits = false) :
    f.rank bits ∈ Set.Icc (-(f.infinityBits : ℤ)) f.infinityBits := by
  have habs := f.natAbs_rank bits
  simp only [isNan, decide_eq_false_iff_not] at h
  constructor <;> omega

/-- The order of two patterns is that of their numbers. -/
theorem order_eq_cmp (hf : 2 ≤ f.exponent) {x y : WithBot (WithTop ℚ)} (hx : f.extended? a = some x)
    (hy : f.extended? b = some y) : f.order a b = cmp x y := by
  rw [extended?_eq hf] at hx hy
  split at hx
  · cases hx
  next ha =>
  split at hy
  · cases hy
  next hb =>
  cases hx
  cases hy
  rw [Bool.not_eq_true] at ha hb
  rw [order_of_not_isNan ha hb, f.place_strictMonoOn.cmp_map_eq (rank_mem ha) (rank_mem hb)]

end ManagedTypes.Ieee.Format
