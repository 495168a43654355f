import Mathlib.Algebra.Order.Field.Power
import Wma.Proofs.Fixed.Apply
import Wma.Proofs.Fixed.Reciprocal

/-!
# The order of gains

Gains compare as the factors that they stand for (`Gain.AtMost.value_le`). Products and `apply`
round down and keep that order (`Gain.AtMost.mul`, `Gain.AtMost.apply_le`), and a gain times its
reciprocal is one up to a few units in the last place (`Gain.abs_value_mul_recip_sub_le`).
-/

namespace Wma

namespace Gain

variable {n m : Nat} {g h r : Gain} {raw f : Nat}

theorem compare_eq_lt_iff : g.compare h = .lt ↔ h.mantissa ≠ 0 ∧ (g.mantissa = 0 ∨
    g.exponent < h.exponent ∨ g.exponent = h.exponent ∧ g.mantissa < h.mantissa) := by
  unfold compare
  cases hg : g.isZero <;> cases hh : h.isZero
  · rw [isZero_eq_false_iff] at hg hh
    simp [hg, hh, Ordering.then_eq_lt, compare_lt_iff_lt]
  all_goals simp_all [isZero_iff, isZero_eq_false_iff]

/-- The gain does not compare as greater. -/
def AtMost (g h : Gain) : Prop :=
  h.compare g ≠ .lt

theorem atMost_iff : g.AtMost h ↔ g.mantissa = 0 ∨ h.mantissa ≠ 0 ∧
    (g.exponent < h.exponent ∨ g.exponent = h.exponent ∧ g.mantissa ≤ h.mantissa) := by
  unfold AtMost
  rw [ne_eq, compare_eq_lt_iff]
  omega

theorem AtMost.refl (g : Gain) : g.AtMost g := by
  rw [atMost_iff]
  omega

theorem AtMost.trans (hgh : g.AtMost h) (hhr : h.AtMost r) : g.AtMost r := by
  rw [atMost_iff] at *
  omega

theorem atMost_max (g h : Gain) : g.AtMost (max g h) ∧ h.AtMost (max g h) := by
  unfold max
  split
  · rename_i below
    refine ⟨.refl g, ?_⟩
    rw [compare_eq_lt_iff] at below
    rw [atMost_iff]
    omega
  · exact ⟨‹_›, .refl h⟩

/-- The greatest of a row of gains is at least each of them, and one of them. -/
theorem foldl_max : ∀ (l : List Gain) (g : Gain), g.AtMost (l.foldl max g) ∧
    (∀ h ∈ l, h.AtMost (l.foldl max g)) ∧ (l.foldl max g = g ∨ l.foldl max g ∈ l)
  | [], g => ⟨.refl g, by simp, .inl rfl⟩
  | h :: l, g => by
    obtain ⟨start, all, member⟩ := foldl_max l (max g h)
    obtain ⟨left, right⟩ := atMost_max g h
    refine ⟨left.trans start, fun h' hh' => ?_, ?_⟩
    · rcases List.mem_cons.mp hh' with rfl | hh'
      · exact right.trans start
      · exact all h' hh'
    · rcases member with same | member
      · rw [List.foldl_cons, same]
        unfold max
        split
        · exact .inl rfl
        · exact .inr List.mem_cons_self
      · exact .inr (List.mem_cons_of_mem _ member)

/-! ### Rounding down to a mantissa -/

/-- The mantissa holds the first 31 digits. -/
theorem mantissa_ofFraction (hraw : raw ≠ 0) :
    (ofFraction raw f).mantissa * 2 ^ raw.log2 ≤ raw * 2 ^ 30 ∧
      raw * 2 ^ 30 < ((ofFraction raw f).mantissa + 1) * 2 ^ raw.log2 := by
  rw [ofFraction, if_neg hraw]
  dsimp only
  split
  · rename_i wide
    obtain ⟨k, hk⟩ : ∃ k, raw.log2 = k + 30 := ⟨raw.log2 - 30, by omega⟩
    have low := Nat.div_mul_le_self raw (2 ^ k)
    have high := Nat.lt_div_mul_add (a := raw) (Nat.two_pow_pos k)
    rw [hk, Nat.add_sub_cancel, Nat.pow_add, ← Nat.mul_assoc, ← Nat.mul_assoc, Nat.add_mul]
    constructor <;> omega
  · obtain ⟨k, hk⟩ : ∃ k, 30 = raw.log2 + k := ⟨30 - raw.log2, by omega⟩
    have scaled : raw * 2 ^ (30 - raw.log2) * 2 ^ raw.log2 = raw * 2 ^ 30 := by
      rw [Nat.mul_assoc, ← Nat.pow_add, Nat.sub_add_cancel (by omega)]
    have positive := Nat.two_pow_pos raw.log2
    rw [Nat.add_mul, scaled]
    omega

/-- A number of 31 digits keeps them all. -/
theorem mantissa_ofFraction_of_lt (hraw : raw ≠ 0) (hlt : raw < 2 ^ 31) :
    (ofFraction raw f).mantissa * 2 ^ raw.log2 = raw * 2 ^ 30 := by
  have top : raw.log2 < 31 := (Nat.log2_lt hraw).mpr hlt
  rw [ofFraction, if_neg hraw]
  dsimp only
  split
  · have exact_ : raw.log2 = 30 := by omega
    rw [exact_, Nat.sub_self, Nat.pow_zero, Nat.div_one]
  · rw [Nat.mul_assoc, ← Nat.pow_add, Nat.sub_add_cancel (by omega)]

theorem mul_eq (hz : g.mantissa ≠ 0) (hz' : r.mantissa ≠ 0) :
    g.mul r = (ofFraction (g.mantissa * r.mantissa) 60).scale (g.exponent + r.exponent) := by
  rw [mul, isZero_eq_false_iff.mpr hz, isZero_eq_false_iff.mpr hz']
  rfl

theorem mul_zero_left (hz : g.mantissa = 0) : g.mul r = zero := by
  rw [mul, isZero_iff.mpr hz]
  rfl

theorem mul_zero_right (hz : r.mantissa = 0) : g.mul r = zero := by
  rw [mul, isZero_iff.mpr hz, Bool.or_true]
  rfl

/-- The first 31 digits of a product of mantissas, which may carry into the exponent. -/
theorem mul_digits (hg : g.Within n) (hr : r.Within m) (hz : g.mantissa ≠ 0)
    (hz' : r.mantissa ≠ 0) : ∃ carry : Nat, carry ≤ 1 ∧
      (g.mul r).exponent = g.exponent + r.exponent + carry ∧
      (g.mul r).mantissa * 2 ^ (30 + carry) ≤ g.mantissa * r.mantissa ∧
      g.mantissa * r.mantissa < ((g.mul r).mantissa + 1) * 2 ^ (30 + carry) ∧
      2 ^ 30 ≤ (g.mul r).mantissa ∧ (g.mul r).mantissa < 2 ^ 31 := by
  obtain ⟨low, high⟩ := hg.mantissa_range hz
  obtain ⟨low', high'⟩ := hr.mantissa_range hz'
  have least : 2 ^ 60 ≤ g.mantissa * r.mantissa :=
    Nat.le_trans (by decide) (Nat.mul_le_mul low low')
  have most : g.mantissa * r.mantissa < 2 ^ 62 :=
    Nat.lt_of_lt_of_le (Nat.mul_lt_mul'' high high') (by decide)
  have positive : g.mantissa * r.mantissa ≠ 0 := by omega
  have above := (Nat.le_log2 positive).mpr least
  have below := (Nat.log2_lt positive).mpr most
  obtain ⟨carry, htop⟩ : ∃ carry, (g.mantissa * r.mantissa).log2 = 60 + carry :=
    ⟨_, (Nat.add_sub_cancel' above).symm⟩
  have first := Nat.log2_self_le positive
  have last := Nat.lt_log2_self (n := g.mantissa * r.mantissa)
  obtain ⟨digits, digits'⟩ := mantissa_ofFraction (f := 60) positive
  have exponent := exponent_ofFraction (f := 60) positive ⟨by omega, by omega⟩
  have nonzero : (ofFraction (g.mantissa * r.mantissa) 60).mantissa ≠ 0 := by
    intro zero
    rw [zero, Nat.zero_add, Nat.one_mul] at digits'
    omega
  rw [mul_eq hz hz', scale_eq nonzero]
  rw [htop] at digits digits' exponent first last
  dsimp only
  generalize (ofFraction (g.mantissa * r.mantissa) 60).mantissa = M at *
  generalize g.mantissa * r.mantissa = P at *
  refine ⟨carry, by omega, by rw [exponent]; push_cast; ring, ?_⟩
  obtain rfl | rfl : carry = 0 ∨ carry = 1 := by omega
  all_goals simp only [Nat.reduceAdd] at digits digits' first last ⊢; omega

/-- A product with a greater gain is not smaller, though it is rounded down. -/
theorem AtMost.mul (hgh : g.AtMost h) (hg : g.Within n) (hh : h.Within n) (hr : r.Within m) :
    (g.mul r).AtMost (h.mul r) := by
  have hzero : Gain.zero.AtMost (h.mul r) := atMost_iff.mpr (.inl rfl)
  by_cases hzr : r.mantissa = 0
  · rwa [mul_zero_right hzr]
  by_cases hzg : g.mantissa = 0
  · rwa [mul_zero_left hzg]
  rw [atMost_iff] at hgh
  obtain ⟨hzh, order⟩ := hgh.resolve_left hzg
  obtain ⟨carry, hcarry, exponent, digits, digits', least, most⟩ := mul_digits hg hr hzg hzr
  obtain ⟨carry', hcarry', exponent', low, low', least', most'⟩ := mul_digits hh hr hzh hzr
  rw [atMost_iff]
  refine .inr ⟨by omega, ?_⟩
  rcases order with below | ⟨same, le⟩
  · -- Only a carry brings the smaller factor to the exponent of the greater one.
    have products : g.mantissa * r.mantissa < 2 * (h.mantissa * r.mantissa) := by
      have positive : 0 < r.mantissa := Nat.pos_of_ne_zero hzr
      have range := (hg.mantissa_range hzg).2
      have range' := (hh.mantissa_range hzh).1
      rw [← Nat.mul_assoc]
      exact Nat.mul_lt_mul_of_pos_right (by omega) positive
    obtain rfl | rfl : carry = 0 ∨ carry = 1 := by omega
    all_goals obtain rfl | rfl : carry' = 0 ∨ carry' = 1 := by omega
    all_goals simp only [Nat.reduceAdd] at digits digits' low low'; omega
  · have products : g.mantissa * r.mantissa ≤ h.mantissa * r.mantissa := Nat.mul_le_mul_right _ le
    obtain rfl | rfl : carry = 0 ∨ carry = 1 := by omega
    all_goals obtain rfl | rfl : carry' = 0 ∨ carry' = 1 := by omega
    all_goals simp only [Nat.reduceAdd] at digits digits' low low'; omega

/-! ### The factor that a gain stands for -/

def value (g : Gain) : ℚ :=
  g.mantissa * 2 ^ (g.exponent - 30)

theorem value_nonneg (g : Gain) : 0 ≤ g.value := by
  unfold value
  positivity

theorem value_of_zero (hz : g.mantissa = 0) : g.value = 0 := by
  rw [value, hz, Nat.cast_zero, zero_mul]

theorem value_zero : zero.value = 0 :=
  value_of_zero rfl

/-- The factor that follows: the mantissa is greater by one unit. -/
def next (g : Gain) : ℚ :=
  (g.mantissa + 1) * 2 ^ (g.exponent - 30)

theorem value_lt_next (g : Gain) : g.value < g.next := by
  unfold value next
  gcongr
  exact lt_add_one _

theorem two_zpow_eq_moved (e : Int) (k : Nat) : (2 : ℚ) ^ e = 2 ^ k * 2 ^ (e - k) := by
  rw [← zpow_natCast, ← zpow_add₀ two_ne_zero, add_sub_cancel]

/-- The factor, with the mantissa moved to the left by `k` places. -/
theorem value_eq_moved (g : Gain) (k : Nat) :
    g.value = (g.mantissa * 2 ^ k : Nat) * 2 ^ (g.exponent - 30 - k) := by
  rw [value, two_zpow_eq_moved _ k, ← mul_assoc]
  push_cast
  rfl

theorem next_eq_moved (g : Gain) (k : Nat) :
    g.next = ((g.mantissa + 1) * 2 ^ k : Nat) * 2 ^ (g.exponent - 30 - k) := by
  rw [next, two_zpow_eq_moved _ k, ← mul_assoc]
  push_cast
  rfl

theorem value_scale (g : Gain) (shift : Int) : (g.scale shift).value = g.value * 2 ^ shift := by
  by_cases hz : g.mantissa = 0
  · rw [scale, if_pos (isZero_iff.mpr hz), value_of_zero hz, zero_mul]
  · rw [scale_eq hz, value, value, mul_assoc, ← zpow_add₀ two_ne_zero]
    congr 2
    ring

/-- The place of the last digit, once the mantissa is moved to where it was taken from. -/
theorem exponent_ofFraction_sub (hraw : raw ≠ 0) (hf : FitsInt32 (raw.log2 - f)) :
    (ofFraction raw f).exponent - 30 - raw.log2 = -(f : Int) - 30 := by
  rw [exponent_ofFraction hraw hf]
  ring

theorem div_two_pow_eq_moved (raw f : Nat) :
    (raw : ℚ) / 2 ^ f = (raw * 2 ^ 30 : Nat) * 2 ^ (-(f : Int) - 30) := by
  rw [zpow_sub₀ two_ne_zero, zpow_neg, zpow_natCast]
  push_cast
  field_simp

/-- A fraction of 31 digits is kept as it is. -/
theorem value_ofFraction_of_lt (hlt : raw < 2 ^ 31) (hf : raw = 0 ∨ FitsInt32 (raw.log2 - f)) :
    (ofFraction raw f).value = raw / 2 ^ f := by
  by_cases hraw : raw = 0
  · rw [ofFraction, if_pos hraw, value_zero, hraw, Nat.cast_zero, zero_div]
  · rw [value_eq_moved _ raw.log2, exponent_ofFraction_sub hraw (hf.resolve_left hraw),
      mantissa_ofFraction_of_lt hraw hlt, div_two_pow_eq_moved]

/-- No gain lies between a gain and the one that follows. -/
theorem next_le_of_compare (hgh : g.compare h = .lt) (hg : g.Within n) (hh : h.Within m)
    (hz : g.mantissa ≠ 0) : g.next ≤ h.value := by
  obtain ⟨hzh, order⟩ := compare_eq_lt_iff.mp hgh
  have range := hg.mantissa_lt
  have range' := (hh.mantissa_range hzh).1
  unfold next value
  rcases order.resolve_left hz with below | ⟨same, lt⟩
  · have doubled : (g.mantissa : ℚ) + 1 ≤ h.mantissa * 2 := by
      exact_mod_cast (by omega : g.mantissa + 1 ≤ h.mantissa * 2)
    calc ((g.mantissa : ℚ) + 1) * 2 ^ (g.exponent - 30)
        ≤ h.mantissa * 2 * 2 ^ (g.exponent - 30) := by gcongr
      _ = h.mantissa * 2 ^ (g.exponent - 30 + 1) := by
          rw [mul_assoc, zpow_add_one₀ two_ne_zero, mul_comm (2 : ℚ)]
      _ ≤ h.mantissa * 2 ^ (h.exponent - 30) := by
          gcongr
          · norm_num
          · omega
  · have above : (g.mantissa : ℚ) + 1 ≤ h.mantissa := by exact_mod_cast lt
    rw [same]
    gcongr

theorem value_lt_of_compare (hgh : g.compare h = .lt) (hg : g.Within n) (hh : h.Within m) :
    g.value < h.value := by
  by_cases hz : g.mantissa = 0
  · have positive := Nat.pos_of_ne_zero (compare_eq_lt_iff.mp hgh).1
    rw [value_of_zero hz, value]
    positivity
  · exact g.value_lt_next.trans_le (next_le_of_compare hgh hg hh hz)

/-- Gains compare as their factors. -/
theorem AtMost.value_le (hgh : g.AtMost h) (hg : g.Within n) (hh : h.Within m) :
    g.value ≤ h.value := by
  by_cases below : g.compare h = .lt
  · exact (value_lt_of_compare below hg hh).le
  · rw [atMost_iff] at hgh
    rw [compare_eq_lt_iff] at below
    obtain hz | ⟨mantissa, exponent⟩ : g.mantissa = 0 ∨
        g.mantissa = h.mantissa ∧ g.exponent = h.exponent := by omega
    · rw [value_of_zero hz]
      exact h.value_nonneg
    · rw [value, value, mantissa, exponent]

theorem compare_eq_lt_iff_value (hg : g.Within n) (hh : h.Within m) :
    g.compare h = .lt ↔ g.value < h.value :=
  ⟨fun hgh => value_lt_of_compare hgh hg hh,
    fun lt => by_contra fun hgh => not_lt.mpr (AtMost.value_le hgh hh hg) lt⟩

theorem apply_zero_eq {v : Int} (hg : g.Within n) (hn : n + 30 < 2 ^ 31) (hv : FitsInt64 v) :
    g.apply v 0 = saturate ⌊v * g.value⌋ := by
  rw [apply_eq_floor hg hv (hg.fits_places hn), value, mul_assoc, Nat.cast_zero, sub_zero]

/-- A greater gain does not take a value to a smaller word. -/
theorem AtMost.apply_le {v : Int} (hgh : g.AtMost h) (hg : g.Within n) (hh : h.Within n)
    (hn : n + 30 < 2 ^ 31) (hv : FitsInt64 v) (hv' : 0 ≤ v) :
    (g.apply v 0).toInt ≤ (h.apply v 0).toInt := by
  have le : ⌊v * g.value⌋ ≤ ⌊v * h.value⌋ :=
    Int.floor_le_floor (mul_le_mul_of_nonneg_left (hgh.value_le hg hh) (by exact_mod_cast hv'))
  rw [apply_zero_eq hg hn hv, apply_zero_eq hh hn hv, toInt_saturate, toInt_saturate]
  omega

theorem value_mul_value (g r : Gain) :
    g.value * r.value = (g.mantissa * r.mantissa : Nat) * 2 ^ (g.exponent + r.exponent - 60) := by
  have split : (2 : ℚ) ^ (g.exponent + r.exponent - 60) =
      2 ^ (g.exponent - 30) * 2 ^ (r.exponent - 30) := by
    rw [← zpow_add₀ two_ne_zero]
    congr 1
    ring
  rw [split, value, value]
  push_cast
  ring

/-- A product loses less than one unit of its last digit. -/
theorem value_mul (hg : g.Within n) (hr : r.Within m) : (g.mul r).value ≤ g.value * r.value ∧
    g.value * r.value * (1 - 1 / 2 ^ 30) ≤ (g.mul r).value := by
  by_cases hz : g.mantissa = 0
  · rw [mul_zero_left hz, value_of_zero hz, value_zero]
    norm_num
  by_cases hz' : r.mantissa = 0
  · rw [mul_zero_right hz', value_of_zero hz', value_zero]
    norm_num
  obtain ⟨carry, -, exponent, digits, digits', least, -⟩ := mul_digits hg hr hz hz'
  have product : (g.mul r).value = ((g.mul r).mantissa * 2 ^ (30 + carry) : Nat) *
      2 ^ (g.exponent + r.exponent - 60) := by
    rw [value_eq_moved _ (30 + carry), exponent]
    congr 2
    push_cast
    ring
  have unit : (0 : ℚ) < 2 ^ (g.exponent + r.exponent - 60) := by positivity
  rw [value_mul_value, product]
  generalize (2 : ℚ) ^ (g.exponent + r.exponent - 60) = u at unit
  have low : (((g.mul r).mantissa * 2 ^ (30 + carry) : Nat) : ℚ) ≤ (g.mantissa * r.mantissa : Nat) := by
    exact_mod_cast digits
  have high : ((g.mantissa * r.mantissa : Nat) : ℚ) ≤
      ((g.mul r).mantissa * 2 ^ (30 + carry) : Nat) + 2 ^ (30 + carry) := by
    exact_mod_cast (by rw [Nat.add_mul, Nat.one_mul] at digits'; omega)
  have last : (2 : ℚ) ^ (30 + carry) * 2 ^ 30 ≤ ((g.mul r).mantissa * 2 ^ (30 + carry) : Nat) := by
    exact_mod_cast (by rw [Nat.mul_comm]; exact Nat.mul_le_mul_right _ least)
  refine ⟨mul_le_mul_of_nonneg_right low unit.le, ?_⟩
  rw [mul_right_comm]
  refine mul_le_mul_of_nonneg_right ?_ unit.le
  linarith

/-! ### Reciprocals -/

theorem inverse_ne_zero {x : Nat} (hx : 2 ^ 30 ≤ x) (hx' : x < 2 ^ 31) : inverse x ≠ 0 := by
  intro zero
  have near := abs_mul_inverse_sub_le hx hx'
  rw [zero, Nat.cast_zero, mul_zero] at near
  exact absurd near (by decide)

theorem recip_eq (hz : g.mantissa ≠ 0) :
    g.recip = (ofFraction (inverse g.mantissa) 30).scale (-g.exponent) := by
  rw [recip, isZero_eq_false_iff.mpr hz]
  rfl

theorem mantissa_recip_ne_zero (hg : g.Within n) : g.recip.mantissa ≠ 0 := by
  by_cases hz : g.mantissa = 0
  · rw [recip, if_pos (isZero_iff.mpr hz)]
    decide
  · obtain ⟨low, high⟩ := hg.mantissa_range hz
    have range := mantissa_ofFraction_range 30 (inverse_ne_zero low high)
    rw [recip_eq hz, scale_eq (by omega)]
    dsimp only
    omega

/-- The reciprocal of a mantissa is short enough for all of it to be kept. -/
theorem value_recip (hg : g.Within n) (hz : g.mantissa ≠ 0) :
    g.recip.value = inverse g.mantissa * 2 ^ (-30 - g.exponent) := by
  obtain ⟨low, high⟩ := hg.mantissa_range hz
  have short : inverse g.mantissa < 2 ^ 31 := (inverse_le _).trans_lt (by decide)
  have top := (Nat.log2_lt (inverse_ne_zero low high)).mpr short
  have fraction := value_ofFraction_of_lt (f := 30) short (.inr ⟨by omega, by omega⟩)
  rw [recip_eq hz, value_scale, fraction, div_eq_mul_inv, mul_assoc, ← zpow_natCast, ← zpow_neg,
    ← zpow_add₀ two_ne_zero]
  congr 2

/-- A gain times its reciprocal is one up to a few units in the last place. -/
theorem abs_value_mul_recip_sub_le (hg : g.Within n) (hr : g.recip.Within m)
    (hz : g.mantissa ≠ 0) : |(g.mul g.recip).value - 1| ≤ 9 / 2 ^ 30 := by
  obtain ⟨low, high⟩ := hg.mantissa_range hz
  have product : g.value * g.recip.value = (g.mantissa * inverse g.mantissa : Int) / 2 ^ 60 := by
    have units : (2 : ℚ) ^ (g.exponent - 30) * 2 ^ (-30 - g.exponent) = 1 / 2 ^ 60 := by
      rw [← zpow_add₀ two_ne_zero, one_div, ← zpow_natCast, ← zpow_neg]
      congr 1
      push_cast
      ring
    rw [value_recip hg hz, value, mul_mul_mul_comm, units]
    push_cast
    ring
  have near : |((g.mantissa * inverse g.mantissa : Int) : ℚ) - 2 ^ 60| ≤ 2 ^ 33 := by
    exact_mod_cast abs_mul_inverse_sub_le low high
  obtain ⟨upper, lower⟩ := value_mul hg hr
  rw [product] at upper lower
  generalize ((g.mantissa * inverse g.mantissa : Int) : ℚ) = p at near upper lower
  generalize (g.mul g.recip).value = v at upper lower
  rw [abs_le] at near ⊢
  constructor <;> linarith

end Gain

end Wma
