import Mathlib.Algebra.Order.Field.Power
import Mathlib.Data.Rat.Floor
import Mathlib.Tactic.Linarith
import Mathlib.Tactic.Ring
import Wma.Proofs.Fixed.Gain
import Wma.Proofs.Fixed.Product

/-!
# Applying gains

A value that a gain is applied to is multiplied by the factor and rounded down once
(`Gain.apply_eq_saturate`); where the word does not hold the product, it gets the nearest number
that it holds. So zeros behind the last binary digit of a value change nothing
(`Gain.apply_mul_two_pow`).
-/

namespace Wma

namespace Gain

theorem floor_div_two_pow (p : Int) (k : Nat) : ⌊(p : ℚ) * 2 ^ (-(k : Int))⌋ = p / 2 ^ k := by
  rw [zpow_neg, zpow_natCast, ← div_eq_mul_inv]
  have h := Rat.floor_intCast_div_natCast p (2 ^ k)
  push_cast at h
  exact h

variable {n : Nat} {g : Gain} {v w : Int} {f s : Nat}

/-- The product of a mantissa and a word of 64 bits. -/
theorem natAbs_mul_mantissa_lt (hg : g.Within n) (hv : FitsInt64 v) :
    (v * g.mantissa).natAbs < 2 ^ 94 := by
  unfold FitsInt64 at hv
  have hm := hg.mantissa_lt
  rw [Int.natAbs_mul, Int.natAbs_natCast]
  calc v.natAbs * g.mantissa ≤ 2 ^ 63 * g.mantissa := Nat.mul_le_mul_right _ (by omega)
    _ < 2 ^ 63 * 2 ^ 31 := Nat.mul_lt_mul_of_pos_left hm (by decide)
    _ = 2 ^ 94 := by norm_num

/-- Shifted to the right by all its places, a product leaves its sign. -/
theorem saturate_div_two_pow {p : Int} (hp : p.natAbs < 2 ^ 94) {k : Nat} (hk : 94 ≤ k) :
    saturate (p / 2 ^ k) = if p < 0 then -1 else 0 := by
  have wide : (2 : Int) ^ 94 ≤ 2 ^ k := by exact_mod_cast Nat.pow_le_pow_right (by decide) hk
  split
  · rw [Int.ediv_eq_neg_one_of_neg_of_le (by omega) (by omega)]
    rfl
  · rw [Int.ediv_eq_zero_of_lt (by omega) (by omega)]
    rfl

/-- A product that is not zero leaves the word when it is doubled. -/
theorem saturate_mul_two_pow {p : Int} (hp : 2 ^ 30 ≤ p.natAbs) (k : Nat) :
    saturate (p * 2 ^ (k + 1)) = if p < 0 then Int32.minValue else Int32.maxValue := by
  have pow : (2 : Int) ≤ 2 ^ (k + 1) := le_self_pow₀ (by norm_num) (by omega)
  rw [← Int32.toInt_inj, toInt_saturate]
  split
  · have beyond : p * 2 ^ (k + 1) ≤ p * 2 := by nlinarith
    rw [show Int32.minValue.toInt = -2 ^ 31 from rfl]
    omega
  · have beyond : p * 2 ≤ p * 2 ^ (k + 1) := by nlinarith
    rw [show Int32.maxValue.toInt = 2 ^ 31 - 1 from rfl]
    omega

/-- The exact product, rounded down and brought into the word. -/
theorem apply_eq_saturate (hg : g.Within n) (hv : FitsInt64 v) (f : Nat) :
    g.apply v f = saturate ⌊((v * g.mantissa : Int) : ℚ) * 2 ^ (-g.shift f)⌋ := by
  have small := natAbs_mul_mantissa_lt hg hv
  unfold apply
  by_cases hz : g.isZero ∨ v = 0
  · have zero : v * g.mantissa = 0 := by
      rcases hz with hz | rfl
      · rw [isZero_iff.mp hz, Nat.cast_zero, mul_zero]
      · rw [zero_mul]
    rw [if_pos hz, zero, Int.cast_zero, zero_mul, Int.floor_zero]
    rfl
  rw [if_neg hz]
  rw [not_or] at hz
  have low := hg.le_mantissa fun h => hz.1 (isZero_iff.mpr h)
  have size : 2 ^ 30 ≤ (v * g.mantissa).natAbs := by
    rw [Int.natAbs_mul, Int.natAbs_natCast]
    exact Nat.le_trans low (Nat.le_mul_of_pos_left _ (Int.natAbs_pos.mpr hz.2))
  dsimp only
  generalize v * (g.mantissa : Int) = p at small size ⊢
  generalize g.shift f = shift
  by_cases hright : 0 ≤ shift
  · obtain ⟨k, rfl⟩ := Int.eq_ofNat_of_zero_le hright
    rw [floor_div_two_pow, if_pos hright, Int.toNat_natCast]
    by_cases hfar : 127 ≤ (k : Int)
    · rw [if_pos hfar, saturate_div_two_pow small (by omega)]
    · rw [if_neg hfar]
  · obtain ⟨k, hk⟩ : ∃ k : Nat, -shift = k + 1 := ⟨(-shift).toNat - 1, by omega⟩
    have floor : ⌊(p : ℚ) * 2 ^ (-shift)⌋ = p * 2 ^ (k + 1) := by
      rw [hk]
      exact_mod_cast Int.floor_intCast (p * 2 ^ (k + 1))
    rw [if_neg (by omega), if_neg hright, floor, saturate_mul_two_pow size k]

theorem shift_eq (hf : FitsInt32 (30 + f - g.exponent)) : g.shift f = 30 + f - g.exponent :=
  wrap32_eq hf

theorem apply_eq_floor (hg : g.Within n) (hv : FitsInt64 v) (hf : FitsInt32 (30 + f - g.exponent)) :
    g.apply v f = saturate ⌊(v : ℚ) * g.mantissa * 2 ^ (g.exponent - 30 - f)⌋ := by
  rw [apply_eq_saturate hg hv, shift_eq hf, Int.cast_mul, Int.cast_natCast]
  congr 4
  ring

/-- A greater value does not become a smaller word. -/
theorem apply_mono (hg : g.Within n) (hv : FitsInt64 v) (hw : FitsInt64 w)
    (hf : FitsInt32 (30 + f - g.exponent)) (hvw : v ≤ w) :
    (g.apply v f).toInt ≤ (g.apply w f).toInt := by
  have le : ⌊(v : ℚ) * g.mantissa * 2 ^ (g.exponent - 30 - f)⌋ ≤
      ⌊(w : ℚ) * g.mantissa * 2 ^ (g.exponent - 30 - f)⌋ := by
    gcongr
  rw [apply_eq_floor hg hv hf, apply_eq_floor hg hw hf, toInt_saturate, toInt_saturate]
  omega

/-- Zeros behind the last binary digit of a value change nothing. -/
theorem apply_mul_two_pow (hg : g.Within n) (hv : FitsInt64 (v * 2 ^ s))
    (hf : FitsInt32 (30 + f - g.exponent)) (hf' : FitsInt32 (30 + (f + s : Nat) - g.exponent)) :
    g.apply (v * 2 ^ s) (f + s) = g.apply v f := by
  have pow : (1 : Int) ≤ 2 ^ s := by exact_mod_cast Nat.one_le_two_pow
  have fits : FitsInt64 v := by
    unfold FitsInt64 at hv ⊢
    constructor <;> nlinarith
  have split : (2 : ℚ) ^ (g.exponent - 30 - f) = 2 ^ s * 2 ^ (g.exponent - 30 - (f + s : Nat)) := by
    rw [← zpow_natCast, ← zpow_add₀ two_ne_zero]
    congr 1
    push_cast
    ring
  rw [apply_eq_floor hg hv hf', apply_eq_floor hg fits hf, split]
  congr 2
  push_cast
  ring

/-- A value that a gain is applied to is multiplied by the exact factor, rounded down once and cut to
the word. So greater values do not become smaller, and a change of scale that does not change the
value changes nothing. -/
theorem apply_rounds_down (hg : g.WellFormed) (hv : FitsInt64 v)
    (hf : FitsInt32 (30 + f - g.exponent)) :
    g.apply v f = saturate ⌊(v : ℚ) * g.mantissa * 2 ^ (g.exponent - 30 - f)⌋ ∧
      (∀ w, FitsInt64 w → v ≤ w → (g.apply v f).toInt ≤ (g.apply w f).toInt) ∧
      (∀ s : Nat, FitsInt64 (v * 2 ^ s) → FitsInt32 (30 + (f + s : Nat) - g.exponent) →
        g.apply (v * 2 ^ s) (f + s) = g.apply v f) ∧
      (30 + f < 2 ^ 31 → g.checkedApply v f = .ok (g.apply v f)) :=
  ⟨apply_eq_floor hg.within hv hf, fun _ hw hvw => apply_mono hg.within hv hw hf hvw,
    fun _ hv' hf' => apply_mul_two_pow hg.within hv' hf hf', fun h => checkedApply_eq_ok h hf⟩

/-- Three quarters of minus seven, with two fractional bits and with ten. -/
theorem apply_rounds_down_negative : Gain.WellFormed ⟨3 * 2 ^ 29, -1⟩ ∧ FitsInt64 (-28) ∧
    FitsInt64 (-28 * 2 ^ 8) ∧ FitsInt32 (30 + (2 : Nat) - -1) ∧ FitsInt32 (30 + (2 + 8 : Nat) - -1) ∧
    (Gain.mk (3 * 2 ^ 29) (-1)).checkedApply (-28) 2 = .ok (-6) ∧
    (Gain.mk (3 * 2 ^ 29) (-1)).apply (-28 * 2 ^ 8) (2 + 8) = -6 := by
  have value : (Gain.mk (3 * 2 ^ 29) (-1)).apply (-28) 2 = -6 := by decide +kernel
  have hg : Gain.WellFormed ⟨3 * 2 ^ 29, -1⟩ := ⟨.inr ⟨by decide, by decide⟩, by decide⟩
  obtain ⟨-, -, scaled, checked⟩ := apply_rounds_down (v := -28) (f := 2) hg (by decide) (by decide)
  refine ⟨hg, by decide, by decide, by decide, by decide, ?_, ?_⟩
  · rw [checked (by decide), value]
  · rw [scaled 8 (by decide) (by decide), value]

end Gain

end Wma
