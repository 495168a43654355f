import Wma.Proofs.Fixed.Order

/-!
# Gains round down to gains

Every operation gives a gain in its one form, and comparing forms compares factors
(`Gain.compare_eq_eq_iff_value`). A fraction, a product and a square root give the largest gain that
is not beyond the exact result: no gain lies between a gain and `Gain.next`, so it is enough that the
exact result does (`Gain.isLargest_of_next`).
-/

namespace Wma

namespace Gain

variable {g h : Gain} {raw f : Nat} {x shift : Int}

/-! ### One form for each factor -/

theorem compare_eq_gt_iff : g.compare h = .gt ↔ h.compare g = .lt := by
  rw [compare_eq_lt_iff]
  unfold compare
  cases hg : g.isZero <;> cases hh : h.isZero
  · rw [isZero_eq_false_iff] at hg hh
    simp only [Ordering.then_eq_gt, compare_gt_iff_gt, compare_eq_iff_eq]
    omega
  all_goals simp_all [isZero_iff, isZero_eq_false_iff]

/-- Zero has one form as well. -/
theorem eq_of_compare_eq (hg : g.WellFormed) (hh : h.WellFormed) (heq : g.compare h = .eq) :
    g = h := by
  have below : g.compare h ≠ .lt := by simp [heq]
  have above : h.compare g ≠ .lt := fun lt => by simp [compare_eq_gt_iff.mpr lt] at heq
  rw [ne_eq, compare_eq_lt_iff] at below above
  rcases hg.normal with rfl | range
  · rcases hh.normal with rfl | range'
    · rfl
    · exact absurd ⟨by omega, .inl rfl⟩ below
  · rcases hh.normal with rfl | range'
    · exact absurd ⟨by omega, .inl rfl⟩ above
    · obtain ⟨mantissa, exponent⟩ : g.mantissa = h.mantissa ∧ g.exponent = h.exponent := by omega
      cases g
      cases h
      simp_all

theorem compare_eq_eq_iff_value (hg : g.WellFormed) (hh : h.WellFormed) :
    g.compare h = .eq ↔ g.value = h.value := by
  constructor
  · intro heq
    rw [eq_of_compare_eq hg hh heq]
  · intro value
    have below := mt (compare_eq_lt_iff_value hg.within hh.within).mp value.not_lt
    have above := mt (compare_eq_lt_iff_value hh.within hg.within).mp value.not_gt
    rw [← compare_eq_gt_iff] at above
    cases order : g.compare h
    · exact absurd order below
    · rfl
    · exact absurd order above

/-! ### The largest gain -/

/-- `g` is the largest gain whose factor is as in `p`. -/
structure IsLargest (p : ℚ → Prop) (g : Gain) : Prop where
  wellFormed : g.WellFormed
  holds : p g.value
  le_value : ∀ h : Gain, h.WellFormed → p h.value → h.value ≤ g.value

variable {p : ℚ → Prop}

theorem isLargest_of_next (hg : g.WellFormed) (hz : g.mantissa ≠ 0) (holds : p g.value)
    (beyond : ∀ v, g.next ≤ v → ¬p v) : g.IsLargest p where
  wellFormed := hg
  holds := holds
  le_value _ hh hp := not_lt.mp fun lt =>
    beyond _ (next_le_of_compare ((compare_eq_lt_iff_value hg.within hh.within).mpr lt) hg.within
      hh.within hz) hp

/-- A gain whose mantissa holds the first digits of a number. -/
theorem isLargest_of_digits {digits number : Nat} (hg : g.WellFormed) (hz : g.mantissa ≠ 0)
    (low : g.mantissa * 2 ^ digits ≤ number) (high : number < (g.mantissa + 1) * 2 ^ digits) :
    g.IsLargest (· ≤ number * 2 ^ (g.exponent - 30 - digits)) := by
  have unit : (0 : ℚ) < 2 ^ (g.exponent - 30 - digits) := by positivity
  refine isLargest_of_next hg hz ?_ fun v hv => not_le.mpr (lt_of_lt_of_le ?_ hv)
  · rw [value_eq_moved _ digits]
    exact mul_le_mul_of_nonneg_right (by exact_mod_cast low) unit.le
  · rw [next_eq_moved _ digits]
    exact mul_lt_mul_of_pos_right (by exact_mod_cast high) unit

theorem wellFormed_zero : zero.WellFormed :=
  ⟨.inl rfl, by decide⟩

theorem isLargest_zero (holds : p 0) (beyond : ∀ v, 0 < v → ¬p v) : zero.IsLargest p where
  wellFormed := wellFormed_zero
  holds := by rwa [value_zero]
  le_value _ _ hp := by
    rw [value_zero]
    exact not_lt.mp fun lt => beyond _ lt hp

/-! ### Fractions -/

theorem fits_wrap32 (x : Int) : FitsInt32 (wrap32 x) := by
  have low := Int.le_bmod (x := x) (m := 2 ^ 32) (by decide)
  have high := Int.bmod_lt (x := x) (m := 2 ^ 32) (by decide)
  unfold FitsInt32 wrap32
  omega

theorem wellFormed_ofFraction (raw f : Nat) : (ofFraction raw f).WellFormed := by
  by_cases hraw : raw = 0
  · rw [ofFraction, if_pos hraw]
    exact wellFormed_zero
  · refine ⟨.inr (mantissa_ofFraction_range f hraw), ?_⟩
    rw [ofFraction, if_neg hraw]
    exact fits_wrap32 _

theorem isLargest_ofFraction (hf : raw = 0 ∨ FitsInt32 (raw.log2 - f)) :
    (ofFraction raw f).IsLargest (· ≤ raw / 2 ^ f) := by
  by_cases hraw : raw = 0
  · rw [ofFraction, if_pos hraw, hraw, Nat.cast_zero, zero_div]
    exact isLargest_zero (le_refl _) fun v hv => not_le.mpr hv
  have range := mantissa_ofFraction_range f hraw
  obtain ⟨low, high⟩ := mantissa_ofFraction (f := f) hraw
  rw [div_two_pow_eq_moved, ← exponent_ofFraction_sub hraw (hf.resolve_left hraw)]
  exact isLargest_of_digits (wellFormed_ofFraction raw f) (by omega) low high

theorem isLargest_ofNat {n : Nat} (hn : n < 2 ^ 32) : (ofNat n).IsLargest (· ≤ n) := by
  have top : n = 0 ∨ FitsInt32 (n.log2 - (0 : Nat)) := by
    by_cases hz : n = 0
    · exact .inl hz
    · have := (Nat.log2_lt hz).mpr hn
      exact .inr ⟨by omega, by omega⟩
  have largest := isLargest_ofFraction top
  rwa [pow_zero, div_one] at largest

/-! ### Products -/

theorem wellFormed_scale (hg : g.WellFormed) (hfits : FitsInt32 (g.scale shift).exponent) :
    (g.scale shift).WellFormed := by
  rcases hg.normal with rfl | range
  · exact wellFormed_zero
  · refine ⟨.inr ?_, hfits⟩
    rw [scale_eq (by omega)]
    exact range

theorem isLargest_mul (hg : g.WellFormed) (hh : h.WellFormed)
    (hfits : FitsInt32 (g.mul h).exponent) : (g.mul h).IsLargest (· ≤ g.value * h.value) := by
  by_cases hz : g.mantissa = 0
  · rw [mul_zero_left hz, value_of_zero hz, zero_mul]
    exact isLargest_zero (le_refl _) fun v hv => not_le.mpr hv
  by_cases hz' : h.mantissa = 0
  · rw [mul_zero_right hz', value_of_zero hz', mul_zero]
    exact isLargest_zero (le_refl _) fun v hv => not_le.mpr hv
  obtain ⟨carry, -, exponent, low, high, range⟩ := mul_digits hg.within hh.within hz hz'
  have places : g.exponent + h.exponent - 60 = (g.mul h).exponent - 30 - (30 + carry : Nat) := by
    rw [exponent]
    push_cast
    ring
  rw [value_mul_value, places]
  exact isLargest_of_digits ⟨.inr range, hfits⟩ (by omega) low high

/-! ### Reciprocals and roots -/

theorem wellFormed_recip (hfits : FitsInt32 g.recip.exponent) : g.recip.WellFormed := by
  by_cases hz : g.mantissa = 0
  · rw [recip, if_pos (isZero_iff.mpr hz)]
    exact ⟨.inr ⟨by decide, by decide⟩, by decide⟩
  · rw [recip_eq hz] at hfits ⊢
    exact wellFormed_scale (wellFormed_ofFraction _ _) hfits

/-- The digits of the root of a mantissa fill a mantissa, whatever the parity of the exponent. -/
theorem root_eq {m odd : Nat} (low : 2 ^ 30 ≤ m) (high : m < 2 ^ 31) (hodd : odd ≤ 1) (e : Int) :
    (ofFraction (isqrt64 (m * 2 ^ (30 + odd))) 30).scale e = ⟨(m * 2 ^ (30 + odd)).sqrt, e⟩ ∧
      2 ^ 30 ≤ (m * 2 ^ (30 + odd)).sqrt ∧ (m * 2 ^ (30 + odd)).sqrt < 2 ^ 31 := by
  have factor : 2 ^ (30 + odd) ≤ 2 ^ 31 := Nat.pow_le_pow_right (by decide) (by omega)
  have factor' : 2 ^ 30 ≤ 2 ^ (30 + odd) := Nat.pow_le_pow_right (by decide) (by omega)
  have least : 2 ^ 30 * 2 ^ 30 ≤ m * 2 ^ (30 + odd) := Nat.mul_le_mul low factor'
  have most : m * 2 ^ (30 + odd) < 2 ^ 31 * 2 ^ 31 :=
    calc m * 2 ^ (30 + odd) ≤ m * 2 ^ 31 := Nat.mul_le_mul_left m factor
      _ < 2 ^ 31 * 2 ^ 31 := Nat.mul_lt_mul_of_pos_right high (by decide)
  have low' : 2 ^ 30 ≤ (m * 2 ^ (30 + odd)).sqrt := Nat.le_sqrt.mpr least
  have high' : (m * 2 ^ (30 + odd)).sqrt < 2 ^ 31 := Nat.sqrt_lt.mpr most
  rw [isqrt64_eq_sqrt (by omega), ofFraction_of_range low' high', scale_eq (by dsimp only; omega),
    zero_add]
  exact ⟨rfl, low', high'⟩

/-- An odd exponent gives one place to the mantissa; half of the rest is the exponent of the root. -/
theorem sqrt_digits (hg : g.WellFormed) (hz : g.mantissa ≠ 0) : ∃ odd : Nat, odd ≤ 1 ∧
    g.exponent = 2 * g.sqrt.exponent + odd ∧
    g.sqrt.mantissa = (g.mantissa * 2 ^ (30 + odd)).sqrt ∧
    2 ^ 30 ≤ g.sqrt.mantissa ∧ g.sqrt.mantissa < 2 ^ 31 := by
  obtain ⟨low, high⟩ := hg.within.mantissa_range hz
  unfold sqrt
  rw [if_neg (mt isZero_iff.mp hz)]
  split
  · obtain ⟨same, range⟩ := root_eq low high (by decide : 0 ≤ 1) (g.exponent / 2)
    rw [same]
    exact ⟨0, by decide, by dsimp only; omega, rfl, range⟩
  · obtain ⟨same, range⟩ := root_eq low high (by decide : 1 ≤ 1) ((g.exponent - 1) / 2)
    rw [Nat.mul_assoc, same]
    exact ⟨1, by decide, by dsimp only; omega, rfl, range⟩

theorem isLargest_sqrt (hg : g.WellFormed) : g.sqrt.IsLargest (· ^ 2 ≤ g.value) := by
  by_cases hz : g.mantissa = 0
  · have zero : g = zero := hg.normal.resolve_right (by omega)
    rw [zero]
    refine isLargest_zero ?_ fun v hv => not_le.mpr ?_
    · rw [value_zero]
      norm_num
    · rw [value_zero]
      positivity
  obtain ⟨odd, hodd, exponent, mantissa, range⟩ := sqrt_digits hg hz
  have fits := hg.fits
  have places : g.exponent - 30 - (30 + odd : Nat) = 2 * (g.sqrt.exponent - 30) := by
    rw [exponent]
    push_cast
    ring
  have square : g.value = (g.mantissa * 2 ^ (30 + odd) : Nat) * (2 ^ (g.sqrt.exponent - 30)) ^ 2 := by
    rw [value_eq_moved _ (30 + odd), places, mul_comm (2 : Int), zpow_mul]
    rfl
  have low : g.sqrt.mantissa ^ 2 ≤ g.mantissa * 2 ^ (30 + odd) := by
    rw [mantissa]
    exact Nat.sqrt_le' _
  have high : g.mantissa * 2 ^ (30 + odd) < (g.sqrt.mantissa + 1) ^ 2 := by
    rw [mantissa]
    exact Nat.lt_succ_sqrt' _
  have unit : (0 : ℚ) < (2 ^ (g.sqrt.exponent - 30)) ^ 2 := by positivity
  refine isLargest_of_next ⟨.inr range, by unfold FitsInt32 at fits ⊢; omega⟩ (by omega) ?_
    fun v hv => not_le.mpr ?_
  · rw [square, value, mul_pow]
    exact mul_le_mul_of_nonneg_right (by exact_mod_cast low) unit.le
  · calc g.value < g.sqrt.next ^ 2 := by
          rw [square, next, mul_pow]
          exact mul_lt_mul_of_pos_right (by exact_mod_cast high) unit
      _ ≤ v ^ 2 := by
          gcongr
          exact g.sqrt.value_nonneg.trans g.sqrt.value_lt_next.le

/-- A root has half the exponent. -/
theorem exponent_sqrt_range (hg : g.WellFormed) :
    2 * g.sqrt.exponent ≤ g.exponent ∧ g.exponent ≤ 2 * g.sqrt.exponent + 1 := by
  by_cases hz : g.mantissa = 0
  · rw [hg.normal.resolve_right (by omega)]
    decide
  · obtain ⟨odd, hodd, exponent, -⟩ := sqrt_digits hg hz
    omega

/-- A fourth of the exponent leaves room for all that a reciprocal adds to it. -/
theorem within_sqrt_sqrt (hg : g.WellFormed) : g.sqrt.sqrt.Within (2 ^ 30) := by
  have fits := hg.fits
  have root := (isLargest_sqrt hg).wellFormed
  have fourth := (isLargest_sqrt root).wellFormed.within
  have half := exponent_sqrt_range hg
  have quarter := exponent_sqrt_range root
  unfold FitsInt32 at fits
  exact ⟨fourth.mantissa_lt, fourth.le_mantissa, by omega, by omega⟩

theorem wellFormed_invFourthRoot (hg : g.WellFormed) : g.invFourthRoot.WellFormed :=
  wellFormed_recip ((within_sqrt_sqrt hg).recip.fits (by decide))

theorem checkedInvFourthRoot_eq_ok (hg : g.WellFormed) :
    g.checkedInvFourthRoot = .ok g.invFourthRoot := by
  have half := checkedSqrt_eq_ok hg.within (by decide)
  have quarter := checkedSqrt_eq_ok (isLargest_sqrt hg).wellFormed.within (by decide)
  have recip := (within_sqrt_sqrt hg).checkedRecip_eq (by decide)
  exact bind_eq_ok half (bind_eq_ok quarter recip)

/-! ### Powers of two -/

theorem wellFormed_powerOfTwo (hx : FitsInt32 x) : (powerOfTwo x).WellFormed := by
  obtain ⟨mantissa, low, high, power⟩ := exists_powerOfTwo x
  rw [power]
  unfold FitsInt32 at hx
  exact ⟨.inr ⟨low, high⟩, by unfold FitsInt32; dsimp only; omega⟩

theorem wellFormed_ofDecibels (db : Int) : (ofDecibels db).WellFormed :=
  wellFormed_powerOfTwo ⟨Int32.le_toInt _, Int32.toInt_lt _⟩

/-- Operations give gains in their one form, as long as the exponent stays within its word; what
fractions, products and roots give is the largest gain that is not beyond the exact result, and gains
compare as their factors. -/
theorem operations_round_down (raw f : Nat) (shift db : Int) {n : Nat} (hg : g.WellFormed)
    (hh : h.WellFormed) (hn : n < 2 ^ 32) (hx : FitsInt32 x) :
    (raw = 0 ∨ FitsInt32 (raw.log2 - f) → (ofFraction raw f).IsLargest (· ≤ raw / 2 ^ f)) ∧
    (ofNat n).IsLargest (· ≤ n) ∧
    (FitsInt32 (g.scale shift).exponent → (g.scale shift).WellFormed ∧
      (g.scale shift).value = g.value * 2 ^ shift ∧
      g.checkedScale shift = .ok (g.scale shift)) ∧
    (FitsInt32 (g.mul h).exponent → (g.mul h).IsLargest (· ≤ g.value * h.value) ∧
      (FitsInt32 (g.exponent + h.exponent) → g.checkedMul h = .ok (g.mul h))) ∧
    (FitsInt32 g.recip.exponent → g.recip.WellFormed ∧
      (FitsInt32 (-g.exponent) → g.checkedRecip = .ok g.recip)) ∧
    (g.sqrt.IsLargest (· ^ 2 ≤ g.value) ∧ g.checkedSqrt = .ok g.sqrt) ∧
    (g.invFourthRoot.WellFormed ∧ g.checkedInvFourthRoot = .ok g.invFourthRoot) ∧
    (powerOfTwo x).WellFormed ∧ (ofDecibels db).WellFormed ∧
    (g.compare h = .lt ↔ g.value < h.value) ∧ (g.compare h = .eq ↔ g.value = h.value) ∧
    (g.compare h = .gt ↔ h.value < g.value) ∧ (g = h ↔ g.value = h.value) := by
  have order := compare_eq_eq_iff_value hg hh
  refine ⟨isLargest_ofFraction, isLargest_ofNat hn, fun fits => ?scale, fun fits => ?mul,
    fun fits => ?recip, ⟨isLargest_sqrt hg, checkedSqrt_eq_ok hg.within (by decide)⟩,
    ⟨wellFormed_invFourthRoot hg, checkedInvFourthRoot_eq_ok hg⟩,
    wellFormed_powerOfTwo hx, wellFormed_ofDecibels db, compare_eq_lt_iff_value hg.within hh.within,
    order, ?above, fun same => same ▸ rfl, fun value => eq_of_compare_eq hg hh (order.mpr value)⟩
  case scale => exact ⟨wellFormed_scale hg fits, value_scale g shift, checkedScale_eq_ok fits⟩
  case mul => exact ⟨isLargest_mul hg hh fits, fun sum => checkedMul_eq_ok hg.within hh.within sum fits⟩
  case recip => exact ⟨wellFormed_recip fits, fun negated => checkedRecip_eq_ok hg.within negated fits⟩
  case above => exact compare_eq_gt_iff.trans (compare_eq_lt_iff_value hh.within hg.within)

/-- The root of three sixteenths, whose exponent is odd and negative, and the product with a gain
just below 64. -/
theorem operations_round_down_three_sixteenths :
    Gain.WellFormed ⟨3 * 2 ^ 29, -3⟩ ∧ Gain.WellFormed ⟨2 ^ 31 - 1, 5⟩ ∧ 3 < 2 ^ 32 ∧
    FitsInt32 (-1) ∧
    (Gain.mk (3 * 2 ^ 29) (-3)).checkedSqrt = .ok ⟨1859775393, -2⟩ ∧
    Gain.IsLargest (· ^ 2 ≤ (Gain.mk (3 * 2 ^ 29) (-3)).value) ⟨1859775393, -2⟩ ∧
    Gain.IsLargest (· ≤ (Gain.mk (3 * 2 ^ 29) (-3)).value * (Gain.mk (2 ^ 31 - 1) 5).value)
      ⟨3 * 2 ^ 29 - 1, 3⟩ ∧
    (Gain.mk (3 * 2 ^ 29) (-3)).value < (Gain.mk (2 ^ 31 - 1) 5).value := by
  have hg : Gain.WellFormed ⟨3 * 2 ^ 29, -3⟩ := ⟨.inr ⟨by decide, by decide⟩, by decide⟩
  have hh : Gain.WellFormed ⟨2 ^ 31 - 1, 5⟩ := ⟨.inr ⟨by decide, by decide⟩, by decide⟩
  have root : (Gain.mk (3 * 2 ^ 29) (-3)).sqrt = ⟨1859775393, -2⟩ := by decide +kernel
  have product : (Gain.mk (3 * 2 ^ 29) (-3)).mul ⟨2 ^ 31 - 1, 5⟩ = ⟨3 * 2 ^ 29 - 1, 3⟩ := by
    decide +kernel
  obtain ⟨-, -, -, mul, -, sqrt, -, -, -, order, -⟩ :=
    operations_round_down 3 4 1 0 hg hh (by decide : 3 < 2 ^ 32) (by decide : FitsInt32 (-1))
  rw [root] at sqrt
  rw [product] at mul
  exact ⟨hg, hh, by decide, by decide, sqrt.2, sqrt.1, (mul (by decide)).1,
    order.mp (by decide +kernel)⟩

end Gain

end Wma
