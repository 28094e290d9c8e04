import ManagedTypes.Proofs.ExactValue

/-! Rounding to a format, against all its finite patterns of either sign, and against the limit from which
on there is only infinity. -/
namespace ManagedTypes.Ieee.Format

theorem abs_signed (negative : Bool) (x : ℚ) : |signed negative x| = |x| := by
  cases negative with
  | false => rfl
  | true => exact abs_neg x

theorem signed_sub (negative : Bool) (x y : ℚ) :
    signed negative x - signed negative y = signed negative (x - y) := by
  cases negative with
  | false => rfl
  | true => exact neg_sub_neg x y |>.trans (neg_sub x y).symm

theorem signed_abs_signed (negative : Bool) {x : ℚ} (hx : 0 ≤ x) :
    signed negative |signed negative x| = signed negative x := by
  rw [abs_signed, abs_of_nonneg hx]

/-- An integer is its magnitude with its sign. -/
theorem signed_abs_intCast (v : ℤ) : signed (v < 0) |(v : ℚ)| = v := by
  rcases lt_or_ge v 0 with hv | hv
  · have hcast : (v : ℚ) < 0 := by exact_mod_cast hv
    rw [signed, if_pos (decide_eq_true hv), abs_of_neg hcast, neg_neg]
  · have hcast : (0 : ℚ) ≤ v := by exact_mod_cast hv
    rw [signed, if_neg (by simpa using hv), abs_of_nonneg hcast]

variable (f : Format)

/-- Half a step past the greatest finite number. -/
def limit : ℚ := (2 - 1 / 2 ^ (f.fraction + 1)) * 2 ^ f.bias

/-- The pattern that a number rounds to, with a sign of its own for a result of zero. From the limit on it
is infinity; below, no finite pattern is nearer, and of two as near it is the one with an even
significand. -/
structure RoundsTo (x : ℚ) (negative : Bool) (bits : ℕ) : Prop where
  sign : f.isNegative bits = negative
  infinite : f.limit ≤ |x| → f.isInfinite bits = true
  finite : |x| < f.limit → f.isFinite bits = true
  closest : |x| < f.limit → ∀ other, f.isFinite other = true →
    |f.toRat bits - x| ≤ |f.toRat other - x|
  even : |x| < f.limit → ∀ other, f.isFinite other = true → f.toRat other ≠ f.toRat bits →
    |f.toRat bits - x| = |f.toRat other - x| → bits % 2 = 0

variable {f} (hf : 0 < f.fraction) (hexp : 2 ≤ f.exponent)

section Top
include hexp

/-- The greatest finite pattern and infinity are the last two points of one grid. -/
theorem exists_top : ∃ s, f.infinityBits = s * 2 ^ f.fraction + 2 ^ (f.fraction + 1) ∧
    (s : ℤ) + f.fraction = f.bias + f.unit := by
  have hpow : 2 ^ f.exponent = 2 * 2 ^ (f.exponent - 1) := by
    rw [← pow_succ', Nat.sub_add_cancel (by omega)]
  have hhalf : 2 ≤ 2 ^ (f.exponent - 1) := Nat.le_self_pow (by omega) 2
  refine ⟨2 ^ f.exponent - 3, ?_, ?_⟩
  · rw [infinityBits, pow_succ', ← Nat.add_mul]
    congr 1
    omega
  · rw [f.unit_eq hexp, bias]
    have hcast : ((2 ^ f.exponent - 3 : ℕ) : ℤ) = 2 * 2 ^ (f.exponent - 1) - 3 := by
      rw [hpow, Nat.cast_sub (by omega)]
      push_cast
      rfl
    rw [hcast]
    ring

/-- The limit is halfway between the greatest finite number and the one that would come next. -/
theorem limit_eq : f.limit * 2 ^ f.unit =
    ((f.stepsAt (f.infinityBits - 1) : ℚ) + f.stepsAt f.infinityBits) / 2 := by
  obtain ⟨s, htop, hs⟩ := exists_top hexp
  have hone : 1 ≤ 2 ^ f.fraction := Nat.one_le_two_pow
  have hlast : f.infinityBits - 1 = s * 2 ^ f.fraction + (2 ^ (f.fraction + 1) - 1) := by
    rw [htop, Nat.add_sub_assoc (Nat.one_le_two_pow)]
  have hscale : (2 : ℚ) ^ f.bias * 2 ^ f.unit = 2 ^ s * 2 ^ f.fraction := by
    rw [← zpow_natCast, ← zpow_natCast, ← zpow_natCast, ← zpow_add₀ (by norm_num),
      ← zpow_add₀ (by norm_num), hs]
  rw [hlast, htop, f.stepsAt_grid (Nat.sub_le _ _) (.inr (by rw [pow_succ]; omega)),
    f.stepsAt_grid le_rfl (.inr (by rw [pow_succ]; omega)), limit, mul_assoc, hscale]
  push_cast [Nat.one_le_two_pow]
  field_simp
  ring

end Top

include hf in
theorem infinityBits_even : f.infinityBits % 2 = 0 := by
  obtain ⟨n, hn⟩ := Nat.exists_eq_succ_of_ne_zero hf.ne'
  rw [infinityBits, hn, pow_succ, ← mul_assoc, Nat.mul_mod_left]

include hf in
theorem magnitudeBits_mod_two (bits : ℕ) : f.magnitudeBits bits % 2 = bits % 2 := by
  have heven : 2 ∣ f.signBit := dvd_pow_self 2 (by omega)
  rw [magnitudeBits, Nat.mod_mod_of_dvd _ heven]

include hf hexp in
/-- Infinity is the nearest of all magnitudes from the limit on. -/
theorem IsNearest.eq_infinityBits_iff {x : ℚ} {m : ℕ} (h : f.IsNearest (x * 2 ^ f.unit) m) :
    m = f.infinityBits ↔ f.limit ≤ x := by
  have hpow : (0 : ℚ) < 2 ^ f.unit := by positivity
  have hgap : (f.stepsAt (f.infinityBits - 1) : ℚ) < f.stepsAt f.infinityBits := by
    exact_mod_cast f.stepsAt_strictMono (Nat.sub_lt (infinityBits_pos hexp) one_pos)
  rw [← mul_le_mul_iff_of_pos_right hpow, limit_eq hexp]
  generalize x * 2 ^ f.unit = y at h ⊢
  constructor
  · rintro rfl
    have hclosest := h.closest (f.infinityBits - 1) (Nat.sub_le _ _)
    rw [f.steps_eq le_rfl, f.steps_eq (Nat.sub_le _ _)] at hclosest
    by_contra hbelow
    rw [abs_of_pos (by linarith)] at hclosest
    rcases abs_cases ((f.stepsAt (f.infinityBits - 1) : ℚ) - y) with ⟨h1, _⟩ | ⟨h1, _⟩ <;> linarith
  · intro habove
    by_contra hne
    have hlast : m ≤ f.infinityBits - 1 := by have := h.le; omega
    have hle : (f.stepsAt m : ℚ) ≤ f.stepsAt (f.infinityBits - 1) := by
      exact_mod_cast f.stepsAt_strictMono.monotone hlast
    have hfar : |(f.stepsAt f.infinityBits : ℚ) - y| ≤ y - f.stepsAt (f.infinityBits - 1) :=
      abs_le.mpr ⟨by linarith, by linarith⟩
    have hclosest := h.closest f.infinityBits le_rfl
    have heven := h.even f.infinityBits le_rfl (Ne.symm hne)
    rw [f.steps_eq h.le, f.steps_eq le_rfl, abs_of_nonpos (by linarith)] at hclosest heven
    -- only the greatest finite pattern is as near, and it is odd
    have hsame : (f.stepsAt m : ℚ) = f.stepsAt (f.infinityBits - 1) := by linarith
    obtain rfl := f.stepsAt_strictMono.injective (Nat.cast_injective hsame)
    have hodd := heven (by linarith)
    have htop := infinityBits_even hf
    have hpos := infinityBits_pos hexp
    omega

section Distance
variable {x : ℚ} {negative : Bool} {bits : ℕ}
include hexp

theorem abs_toRat (bits : ℕ) : |f.toRat bits| = f.stepsAt (f.magnitudeBits bits) / 2 ^ f.unit := by
  rw [f.toRat_eq hexp, abs_signed, steps_magnitudeBits, abs_of_nonneg (by positivity)]

theorem signed_abs_toRat (bits : ℕ) : signed (f.isNegative bits) |f.toRat bits| = f.toRat bits := by
  rw [f.toRat_eq hexp]
  exact signed_abs_signed _ (by positivity)

/-- Two patterns whose numbers differ in sign at most have one magnitude. -/
theorem magnitudeBits_eq_iff {other : ℕ} :
    f.magnitudeBits other = f.magnitudeBits bits ↔ |f.toRat other| = |f.toRat bits| := by
  rw [abs_toRat hexp, abs_toRat hexp, div_left_inj' (by positivity), Nat.cast_inj,
    f.stepsAt_strictMono.injective.eq_iff]

/-- Among patterns of the sign of a number, how far they are from it is how far their magnitudes are. -/
theorem distance_of_sign (hx : signed negative |x| = x) (hsign : f.isNegative bits = negative) :
    |f.toRat bits - x| * 2 ^ f.unit = |(f.steps bits : ℚ) - |x| * 2 ^ f.unit| := by
  have hpow : (0 : ℚ) < 2 ^ f.unit := by positivity
  calc |f.toRat bits - x| * 2 ^ f.unit
    _ = |f.steps bits / 2 ^ f.unit - (|x|)| * 2 ^ f.unit := by
      rw [f.toRat_eq hexp, hsign, ← abs_signed negative (_ - |x|), ← signed_sub, hx]
    _ = |(f.steps bits / 2 ^ f.unit - |x|) * 2 ^ f.unit| := by rw [abs_mul, abs_of_pos hpow]
    _ = |(f.steps bits : ℚ) - |x| * 2 ^ f.unit| := by rw [sub_mul, div_mul_cancel₀ _ hpow.ne']

theorem le_distance (bits : ℕ) (x : ℚ) :
    |(f.steps bits : ℚ) - |x| * 2 ^ f.unit| ≤ |f.toRat bits - x| * 2 ^ f.unit := by
  have hpow : (0 : ℚ) < 2 ^ f.unit := by positivity
  calc |(f.steps bits : ℚ) - |x| * 2 ^ f.unit|
    _ = |(f.steps bits / 2 ^ f.unit - |x|) * 2 ^ f.unit| := by rw [sub_mul, div_mul_cancel₀ _ hpow.ne']
    _ = |(|f.toRat bits|) - (|x|)| * 2 ^ f.unit := by
      rw [abs_mul, abs_of_pos hpow, abs_toRat hexp, steps_magnitudeBits]
    _ ≤ |f.toRat bits - x| * 2 ^ f.unit :=
      mul_le_mul_of_nonneg_right (abs_abs_sub_abs_le _ x) hpow.le

end Distance

section Rounding
variable {x : ℚ} {negative : Bool} {bits : ℕ} (hx : signed negative |x| = x)

include hexp hx in
/-- Of a nearest magnitude the pattern of the other sign is as near only at zero: a number that is as near
to either is zero, and zero is nearest to itself. -/
theorem IsNearest.toRat_eq (h : f.IsNearest (|x| * 2 ^ f.unit) (f.magnitudeBits bits))
    (hsign : f.isNegative bits = negative) {other : ℕ}
    (hsame : f.magnitudeBits other = f.magnitudeBits bits)
    (heq : |f.toRat bits - x| = |f.toRat other - x|) : f.toRat other = f.toRat bits := by
  rcases abs_eq_abs.mp ((magnitudeBits_eq_iff hexp).mp hsame) with hequal | hopposite
  · exact hequal
  rcases abs_eq_abs.mp heq with hequal | hmirror
  · linarith
  have hpow : (0 : ℚ) < 2 ^ f.unit := by positivity
  have hzero : x = 0 := by linarith
  have hnone : f.steps 0 = 0 := by simp [steps, exponentField, fractionField]
  have hnearest := h.closest 0 (Nat.zero_le _)
  rw [f.steps_eq h.le, ← steps_magnitudeBits, hnone, ← distance_of_sign hexp hx hsign, hzero, abs_zero,
    zero_mul, Nat.cast_zero, sub_zero, sub_zero, abs_zero] at hnearest
  have habs : f.toRat bits = 0 := abs_nonpos_iff.mp (nonpos_of_mul_nonpos_left hnearest hpow)
  rw [hopposite, habs, neg_zero]

include hf hexp hx

theorem IsNearest.roundsTo (h : f.IsNearest (|x| * 2 ^ f.unit) (f.magnitudeBits bits))
    (hsign : f.isNegative bits = negative) : f.RoundsTo x negative bits := by
  have hpow : (0 : ℚ) < 2 ^ f.unit := by positivity
  have hlimit : f.magnitudeBits bits = f.infinityBits ↔ f.limit ≤ |x| :=
    h.eq_infinityBits_iff hf hexp
  have hsteps : f.steps (f.magnitudeBits bits) = f.steps bits := by
    rw [f.steps_eq h.le, steps_magnitudeBits]
  have hself := distance_of_sign hexp hx hsign
  refine ⟨hsign, fun hpast => ?_, fun hbelow => ?_, fun hbelow other hother => ?_,
    fun hbelow other hother hne heq => ?_⟩
  · simpa [isInfinite] using hlimit.mpr hpast
  · have hfinite : f.magnitudeBits bits ≠ f.infinityBits := fun hinf => hbelow.not_ge (hlimit.mp hinf)
    simpa [isFinite] using lt_of_le_of_ne h.le hfinite
  · have hle : f.magnitudeBits other ≤ f.infinityBits := (of_decide_eq_true hother).le
    have hclosest := h.closest _ hle
    rw [hsteps, f.steps_eq hle, ← steps_magnitudeBits, ← hself] at hclosest
    exact le_of_mul_le_mul_right (hclosest.trans (le_distance hexp other x)) hpow
  · have hle : f.magnitudeBits other ≤ f.infinityBits := (of_decide_eq_true hother).le
    have hclosest := h.closest _ hle
    have heven := h.even _ hle
    rw [hsteps, f.steps_eq hle, ← steps_magnitudeBits] at hclosest heven
    rw [magnitudeBits_mod_two hf] at heven
    refine heven (fun hsame => hne (h.toRat_eq hexp hx hsign hsame heq)) (le_antisymm hclosest ?_)
    rw [← hself, heq]
    exact le_distance hexp other x

/-- Whatever a number rounds to has the magnitude that is nearest. -/
theorem RoundsTo.isNearest (h : f.RoundsTo x negative bits) :
    f.IsNearest (|x| * 2 ^ f.unit) (f.magnitudeBits bits) := by
  obtain ⟨m, hm⟩ : ∃ m, f.IsNearest (|x| * 2 ^ f.unit) m :=
    ⟨_, f.isNearest_nearest_rat hf (abs_nonneg x)⟩
  have hlimit : m = f.infinityBits ↔ f.limit ≤ |x| := hm.eq_infinityBits_iff hf hexp
  rcases le_or_gt f.limit |x| with hpast | hbelow
  · have hinfinite : f.magnitudeBits bits = f.infinityBits := by simpa [isInfinite] using h.infinite hpast
    rwa [hinfinite, ← hlimit.mpr hpast]
  have hlt : m < f.infinityBits :=
    lt_of_le_of_ne hm.le fun hinf => hbelow.not_ge (hlimit.mp hinf)
  have hsmall : m < f.signBit := hlt.trans f.infinityBits_lt
  have hmagnitude := magnitudeBits_withSign hsmall negative
  have hsign := isNegative_withSign hsmall negative
  have hother : f.RoundsTo x negative (f.withSign negative m) :=
    IsNearest.roundsTo hf hexp hx (hmagnitude.symm ▸ hm) hsign
  by_cases hsame : f.magnitudeBits bits = m
  · rwa [hsame]
  -- One that is as near and even is nearest, too.
  have hne : f.toRat (f.withSign negative m) ≠ f.toRat bits := fun heq =>
    hsame (((magnitudeBits_eq_iff hexp).mpr (congrArg _ heq)).symm.trans hmagnitude)
  have hdistance : |f.toRat bits - x| = |f.toRat (f.withSign negative m) - x| :=
    le_antisymm (h.closest hbelow _ (hother.finite hbelow))
      (hother.closest hbelow _ (h.finite hbelow))
  have heven := h.even hbelow _ (hother.finite hbelow) hne hdistance
  have hle : f.magnitudeBits bits ≤ f.infinityBits := (of_decide_eq_true (h.finite hbelow)).le
  refine ⟨hle, fun k hk => ?_, fun _ _ _ _ => by rwa [magnitudeBits_mod_two hf]⟩
  rw [f.steps_eq hle, ← steps_magnitudeBits, ← distance_of_sign hexp hx h.sign, hdistance,
    distance_of_sign hexp hx hsign, steps_magnitudeBits, hmagnitude, ← f.steps_eq hm.le]
  exact hm.closest k hk

/-- A number rounds to one pattern. -/
theorem RoundsTo.unique {other : ℕ} (h : f.RoundsTo x negative bits) (ho : f.RoundsTo x negative other)
    (hbits : bits < 2 * f.signBit) (hother : other < 2 * f.signBit) : bits = other := by
  have hmagnitude := (h.isNearest hf hexp hx).unique (ho.isNearest hf hexp hx)
  rw [← f.withSign_magnitudeBits hbits, ← f.withSign_magnitudeBits hother, h.sign, ho.sign, hmagnitude]

end Rounding

section Results
include hf hexp

/-- What the rounding of a quotient of least steps gives. -/
theorem roundsTo_nearest (negative : Bool) (n : ℕ) {d : ℕ} (hd : 0 < d) :
    f.RoundsTo (signed negative (n / d / 2 ^ f.unit)) negative (f.withSign negative (f.nearest n d)) := by
  have hnonneg : (0 : ℚ) ≤ n / d / 2 ^ f.unit := by positivity
  have hlt : f.nearest n d < f.signBit := (Nat.min_le_right _ _).trans_lt f.infinityBits_lt
  refine IsNearest.roundsTo hf hexp (signed_abs_signed negative hnonneg) ?_
    (isNegative_withSign hlt negative)
  rw [magnitudeBits_withSign hlt, abs_signed, abs_of_nonneg hnonneg, div_mul_cancel₀ _ (by positivity)]
  exact f.isNearest_nearest hf n hd

theorem roundsTo_ofInt (v : ℤ) : f.RoundsTo v (v < 0) (f.ofInt v) := by
  have hround := roundsTo_nearest hf hexp (v < 0) (v.natAbs * 2 ^ f.unit) one_pos
  have hvalue : ((v.natAbs * 2 ^ f.unit : ℕ) : ℚ) / (1 : ℕ) / 2 ^ f.unit = |(v : ℚ)| := by
    push_cast [Nat.cast_natAbs]
    field_simp
  rwa [hvalue, signed_abs_intCast] at hround

/-- A finite pattern is what its own number rounds to. -/
theorem roundsTo_toRat {bits : ℕ} (h : f.isFinite bits = true) :
    f.RoundsTo (f.toRat bits) (f.isNegative bits) bits := by
  have hle : f.magnitudeBits bits ≤ f.infinityBits := (of_decide_eq_true h).le
  have hnearest := f.isNearest_nearest hf (f.stepsAt (f.magnitudeBits bits)) one_pos
  rw [nearest_exact hf hle one_pos (mul_one _).symm, Nat.cast_one, div_one] at hnearest
  refine IsNearest.roundsTo hf hexp (signed_abs_toRat hexp bits) ?_ rfl
  rwa [abs_toRat hexp, div_mul_cancel₀ _ (by positivity)]

end Results

end ManagedTypes.Ieee.Format
