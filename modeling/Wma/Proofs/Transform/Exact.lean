import Mathlib.Analysis.SpecialFunctions.Trigonometric.Basic
import Mathlib.Tactic.LinearCombination
import Mathlib.Tactic.Ring
import Wma.Transform.Arithmetic

/-!
# Exact arithmetic

`realPoint` is the arithmetic of real numbers: its products and its factors on the unit circle are
not rounded. Its pairs of numbers are complex numbers (`Phasor.toComplex`), its products those of
complex numbers, and its factors powers of `unitRoot`, one step around the circle. The cosines of the
transform (`Imdct.cosineAt`) are real numbers as well.
-/

namespace Wma

open Complex (I exp)
open scoped Real

/-- The arithmetic of real numbers. -/
noncomputable def realPoint : Arithmetic ℝ where
  add := (· + ·)
  sub := (· - ·)
  neg := (- ·)
  mul z w := ⟨z.re * w.re - z.im * w.im, z.im * w.re + z.re * w.im⟩
  root bits k := ⟨Real.cos (2 * π * (k / 2 ^ bits)), Real.sin (2 * π * (k / 2 ^ bits))⟩
  tilt bits k :=
    ⟨-Real.cos (2 * π * ((k + 1 / 8) / 2 ^ bits)), -Real.sin (2 * π * ((k + 1 / 8) / 2 ^ bits))⟩

/-- The cosine that coefficient `k` has in sample `m`. -/
noncomputable def Imdct.cosineAt (bits m k : ℕ) : ℝ :=
  Real.cos (2 * π / 2 ^ (bits + 2) * (m + 1 / 2 + 2 ^ (bits + 2) / 4) * (k + 1 / 2))

/-- The angle by which pair `k` is turned on its way to output `j`. -/
noncomputable def Imdct.angle (bits j k : ℕ) : ℝ :=
  2 * π * ((4 * k + 1) * (4 * j + 1)) / (4 * 2 ^ (bits + 2))

/-! ### One step around the circle -/

/-- The factor that turns by one of `2 ^ bits` equal angles. -/
noncomputable def unitRoot (bits : ℕ) : ℂ :=
  exp (2 * π * I / 2 ^ bits)

theorem unitRoot_ne_zero (bits : ℕ) : unitRoot bits ≠ 0 :=
  Complex.exp_ne_zero _

theorem unitRoot_succ_sq (bits : ℕ) : unitRoot (bits + 1) ^ 2 = unitRoot bits := by
  unfold unitRoot
  rw [← Complex.exp_nat_mul]
  congr 1
  push_cast
  rw [pow_succ]
  field_simp

theorem unitRoot_add_pow (bits : ℕ) : ∀ more : ℕ, unitRoot (bits + more) ^ 2 ^ more = unitRoot bits
  | 0 => by simp
  | more + 1 => by
    rw [pow_succ', pow_mul, ← Nat.add_assoc, unitRoot_succ_sq, unitRoot_add_pow]

theorem unitRoot_pow_card (bits : ℕ) : unitRoot bits ^ 2 ^ bits = 1 := by
  have whole := unitRoot_add_pow 0 bits
  rw [Nat.zero_add] at whole
  rw [whole, unitRoot, pow_zero, div_one, Complex.exp_two_pi_mul_I]

theorem unitRoot_two : unitRoot 2 = I := by
  have quarter : 2 * (π : ℂ) * I / 2 ^ 2 = π / 2 * I := by ring
  rw [unitRoot, quarter, Complex.exp_pi_div_two_mul_I]

theorem unitRoot_one : unitRoot 1 = -1 := by
  rw [← unitRoot_succ_sq, unitRoot_two, Complex.I_sq]

/-! ### Complex numbers -/

namespace Phasor

/-- The complex number of a pair. -/
def toComplex (z : Phasor ℝ) : ℂ := ⟨z.re, z.im⟩

@[simp] theorem toComplex_mul (z w : Phasor ℝ) :
    (realPoint.mul z w).toComplex = z.toComplex * w.toComplex := by
  refine Complex.ext ?_ ?_
  · rfl
  · simp only [realPoint, toComplex, Complex.mul_im]
    ring

@[simp] theorem toComplex_root (bits k : ℕ) :
    (realPoint.root bits k).toComplex = unitRoot bits ^ k := by
  have angle : (k : ℂ) * (2 * π * I / 2 ^ bits) = ((2 * π * (k / 2 ^ bits) : ℝ) : ℂ) * I := by
    push_cast
    ring
  rw [unitRoot, ← Complex.exp_nat_mul, angle]
  refine Complex.ext ?_ ?_
  · rw [Complex.exp_ofReal_mul_I_re]
    rfl
  · rw [Complex.exp_ofReal_mul_I_im]
    rfl

/-- The opposite turn undoes a turn. -/
@[simp] theorem toComplex_conj_root (bits k : ℕ) :
    (realPoint.conj (realPoint.root bits k)).toComplex = (unitRoot bits ^ k)⁻¹ := by
  refine eq_inv_of_mul_eq_one_left ?_
  rw [← toComplex_root]
  refine Complex.ext ?_ ?_
  · have unit := Real.cos_sq_add_sin_sq (2 * π * (k / 2 ^ bits))
    simp only [Arithmetic.conj, realPoint, toComplex, Complex.mul_re, Complex.one_re]
    linear_combination unit
  · simp only [Arithmetic.conj, realPoint, toComplex, Complex.mul_im, Complex.one_im]
    ring

end Phasor

end Wma
