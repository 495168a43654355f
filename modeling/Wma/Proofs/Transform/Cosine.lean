import Wma.Proofs.Transform.Fourier

/-!
# The transform computes cosine sums

Over exact arithmetic, `Imdct.full` gives the sums of cosines that define it (`Imdct.full_eq_sum`).
The turns before and behind the network add up to one turn by `angle bits j k` of the pair `k` in the
output `j` (`Imdct.tilt_mul_tilt`); its sine and cosine are the cosines that belong to the two
coefficients of the pair, in an even sample of the middle half and in an odd one. The outer quarters
are mirror images of the middle half, as the sums are.
-/

namespace Wma.Imdct

open Complex (I exp)
open Finset
open Phasor Network
open scoped Real

/-- The sum of cosines that sample `m` is to be. -/
noncomputable def cosineSum (bits : ℕ) (x : Fin (2 ^ (bits + 1)) → ℝ) (m : ℕ) : ℝ :=
  -∑ k, x k * cosineAt bits m k

theorem last_lt (bits : ℕ) (k : Fin (2 ^ bits)) :
    2 ^ (bits + 1) - 1 - 2 * (k : ℕ) < 2 ^ (bits + 1) := by
  have := Nat.two_pow_pos (bits + 1)
  omega

theorem first_lt (bits : ℕ) (k : Fin (2 ^ bits)) : 2 * (k : ℕ) < 2 ^ (bits + 1) := by
  have := k.isLt
  omega

/-- The number that pair `k` of the coefficients stands for. -/
def pairNumber (bits : ℕ) (x : Fin (2 ^ (bits + 1)) → ℝ) (k : Fin (2 ^ bits)) : ℂ where
  re := x ⟨2 ^ (bits + 1) - 1 - 2 * k, last_lt bits k⟩
  im := x ⟨2 * k, first_lt bits k⟩

/-- What the pairs add up to in output `j`. -/
noncomputable def turnedSum (bits : ℕ) (x : Fin (2 ^ (bits + 1)) → ℝ) (j : ℕ) : ℂ :=
  ∑ k, pairNumber bits x k * exp (angle bits j k * I)

/-! ### The turns -/

theorem toComplex_tilt (bits k : ℕ) : (realPoint.tilt bits k).toComplex =
    -exp ((2 * π * ((k + 1 / 8) / 2 ^ bits) : ℝ) * I) := by
  refine Complex.ext ?_ ?_
  · rw [Complex.neg_re, Complex.exp_ofReal_mul_I_re]
    rfl
  · rw [Complex.neg_im, Complex.exp_ofReal_mul_I_im]
    rfl

theorem tilt_mul_tilt (bits j k : ℕ) :
    (realPoint.tilt (bits + 2) k).toComplex * unitRoot bits ^ (k * j) *
      (realPoint.tilt (bits + 2) j).toComplex = exp (angle bits j k * I) := by
  rw [toComplex_tilt, toComplex_tilt, unitRoot, ← Complex.exp_nat_mul, neg_mul, neg_mul, mul_neg,
    neg_neg, ← Complex.exp_add, ← Complex.exp_add]
  congr 1
  simp only [angle]
  push_cast
  rw [pow_add]
  field_simp
  ring

theorem re_mul_swap (z t : Phasor ℝ) :
    (realPoint.mul z.swap t.swap).re = -(z.toComplex * t.toComplex).re := by
  simp only [realPoint, swap, toComplex, Complex.mul_re]
  ring

theorem im_mul_swap (z t : Phasor ℝ) :
    (realPoint.mul z.swap t.swap).im = (z.toComplex * t.toComplex).im := by
  simp only [realPoint, swap, toComplex, Complex.mul_im]

theorem toComplex_pairAt (bits : ℕ) (input : Vector ℝ (2 ^ (bits + 1))) (k : Fin (2 ^ bits)) :
    (pairAt realPoint bits input k).toComplex =
      pairNumber bits input.get k * (realPoint.tilt (bits + 2) k).toComplex := by
  unfold pairAt
  rw [toComplex_mul]
  rfl

theorem run_mul_tilt (bits : ℕ) (input : Vector ℝ (2 ^ (bits + 1)))
    (scratch : Vector (Phasor ℝ) (2 ^ bits)) (j : Fin (2 ^ bits)) :
    ((run realPoint bits (load bits (pairAt realPoint bits input) scratch)).get j).toComplex *
      (realPoint.tilt (bits + 2) j).toComplex = turnedSum bits input.get j := by
  rw [toComplex_run_load, sum_mul]
  refine sum_congr rfl fun k _ => ?_
  rw [toComplex_pairAt, mul_assoc, mul_assoc, ← mul_assoc (Phasor.toComplex _), tilt_mul_tilt]

theorem get_middle (bits : ℕ) (input : Vector ℝ (2 ^ (bits + 1)))
    (scratch : Vector (Phasor ℝ) (2 ^ bits)) (j : Fin (2 ^ bits)) :
    (middle realPoint bits input scratch).get j =
      ⟨-(turnedSum bits input.get j).re, (turnedSum bits input.get j.rev).im⟩ := by
  have here := run_mul_tilt bits input scratch
  simp only [get_eq_getElem] at here
  unfold middle
  simp only [get_eq_getElem, Vector.getElem_ofFn, re_mul_swap, im_mul_swap]
  rw [here j, here j.rev]

/-! ### The cosines of a pair -/

section Cosines

variable {bits j k m m' : ℕ}

theorem cast_last (hk : k < 2 ^ bits) :
    ((2 ^ (bits + 1) - 1 - 2 * k : ℕ) : ℝ) = 2 * 2 ^ bits - 1 - 2 * k := by
  rw [Nat.cast_sub (by omega), Nat.cast_sub (by omega)]
  push_cast
  ring

theorem cosineAt_even_first (hm : m = 2 ^ bits + 2 * j) :
    cosineAt bits m (2 * k) = -Real.sin (angle bits j k) := by
  have turned : 2 * π / 2 ^ (bits + 2) * (m + 1 / 2 + 2 ^ (bits + 2) / 4) * ((2 * k : ℕ) + 1 / 2) =
      angle bits j k + π / 2 + k * (2 * π) := by
    subst m
    unfold angle
    push_cast
    rw [pow_add]
    field_simp
    ring
  rw [cosineAt, turned, Real.cos_add_nat_mul_two_pi, Real.cos_add_pi_div_two]

theorem cosineAt_even_last (hm : m = 2 ^ bits + 2 * j) (hk : k < 2 ^ bits) :
    cosineAt bits m (2 ^ (bits + 1) - 1 - 2 * k) = Real.cos (angle bits j k) := by
  have turned : 2 * π / 2 ^ (bits + 2) * (m + 1 / 2 + 2 ^ (bits + 2) / 4) *
      (2 * 2 ^ bits - 1 - 2 * k + 1 / 2) =
        -angle bits j k + (j + 2 ^ bits - k : ℤ) * (2 * π) := by
    subst m
    unfold angle
    push_cast
    rw [pow_add]
    field_simp
    ring
  rw [cosineAt, cast_last hk, turned, Real.cos_add_int_mul_two_pi, Real.cos_neg]

theorem cosineAt_odd_first (hm : m + 2 * j + 1 = 3 * 2 ^ bits) :
    cosineAt bits m (2 * k) = -Real.cos (angle bits j k) := by
  have cast : (m : ℝ) + 2 * j + 1 = 3 * 2 ^ bits := by exact_mod_cast hm
  have turned : 2 * π / 2 ^ (bits + 2) * (m + 1 / 2 + 2 ^ (bits + 2) / 4) * ((2 * k : ℕ) + 1 / 2) =
      π - angle bits j k + (2 * k : ℕ) * (2 * π) := by
    rw [show (m : ℝ) = 3 * 2 ^ bits - 2 * j - 1 by linear_combination cast]
    unfold angle
    push_cast
    rw [pow_add]
    field_simp
    ring
  rw [cosineAt, turned, Real.cos_add_nat_mul_two_pi, Real.cos_pi_sub]

theorem cosineAt_odd_last (hm : m + 2 * j + 1 = 3 * 2 ^ bits) (hk : k < 2 ^ bits) :
    cosineAt bits m (2 ^ (bits + 1) - 1 - 2 * k) = -Real.sin (angle bits j k) := by
  have cast : (m : ℝ) + 2 * j + 1 = 3 * 2 ^ bits := by exact_mod_cast hm
  have turned : 2 * π / 2 ^ (bits + 2) * (m + 1 / 2 + 2 ^ (bits + 2) / 4) *
      (2 * 2 ^ bits - 1 - 2 * k + 1 / 2) =
        angle bits j k + π / 2 + (2 * 2 ^ bits - 2 * k - j - 1 : ℤ) * (2 * π) := by
    rw [show (m : ℝ) = 3 * 2 ^ bits - 2 * j - 1 by linear_combination cast]
    unfold angle
    push_cast
    rw [pow_add]
    field_simp
    ring
  rw [cosineAt, cast_last hk, turned, Real.cos_add_int_mul_two_pi, Real.cos_add_pi_div_two]

/-- The first quarter mirrors the second with the opposite sign. -/
theorem cosineAt_reflect_first (hm : m + m' + 1 = 2 ^ (bits + 1)) :
    cosineAt bits m k = -cosineAt bits m' k := by
  have cast : (m : ℝ) + m' + 1 = 2 ^ (bits + 1) := by exact_mod_cast hm
  have turned : 2 * π / 2 ^ (bits + 2) * (m + 1 / 2 + 2 ^ (bits + 2) / 4) * (k + 1 / 2) =
      π - 2 * π / 2 ^ (bits + 2) * (m' + 1 / 2 + 2 ^ (bits + 2) / 4) * (k + 1 / 2) +
        k * (2 * π) := by
    rw [show (m : ℝ) = 2 ^ (bits + 1) - m' - 1 by linear_combination cast, pow_succ 2 (bits + 1)]
    field_simp
    ring
  rw [cosineAt, cosineAt, turned, Real.cos_add_nat_mul_two_pi, Real.cos_pi_sub]

/-- The last quarter mirrors the third. -/
theorem cosineAt_reflect_last (hm : m + m' + 1 = 3 * 2 ^ (bits + 1)) :
    cosineAt bits m k = cosineAt bits m' k := by
  have cast : (m : ℝ) + m' + 1 = 3 * 2 ^ (bits + 1) := by exact_mod_cast hm
  have turned : 2 * π / 2 ^ (bits + 2) * (m + 1 / 2 + 2 ^ (bits + 2) / 4) * (k + 1 / 2) =
      -(2 * π / 2 ^ (bits + 2) * (m' + 1 / 2 + 2 ^ (bits + 2) / 4) * (k + 1 / 2)) +
        (2 * k + 1 : ℕ) * (2 * π) := by
    rw [show (m : ℝ) = 3 * 2 ^ (bits + 1) - m' - 1 by linear_combination cast, pow_succ 2 (bits + 1)]
    push_cast
    field_simp
    ring
  rw [cosineAt, cosineAt, turned, Real.cos_add_nat_mul_two_pi, Real.cos_neg]

end Cosines

/-! ### The middle half -/

/-- A sum over all coefficients, taken in pairs from both ends. -/
theorem sum_pairs (bits : ℕ) (f : Fin (2 ^ (bits + 1)) → ℝ) :
    ∑ k, f k = ∑ k : Fin (2 ^ bits),
      (f ⟨2 ^ (bits + 1) - 1 - 2 * k, last_lt bits k⟩ + f ⟨2 * k, first_lt bits k⟩) := by
  have whole : 2 ^ (bits + 1) = 2 * 2 ^ bits := by omega
  obtain ⟨g, hg⟩ : ∃ g : ℕ → ℝ, ∀ k : Fin (2 ^ (bits + 1)), f k = g k :=
    ⟨fun i => if h : i < 2 ^ (bits + 1) then f ⟨i, h⟩ else 0, by simp⟩
  simp only [hg]
  rw [Fin.sum_univ_eq_sum_range g, whole, sum_range_two_mul, add_comm,
    Fin.sum_univ_eq_sum_range fun k => g (2 * 2 ^ bits - 1 - 2 * k) + g (2 * k), sum_add_distrib,
    ← sum_range_reflect fun j => g (2 * j + 1)]
  congr 1
  refine sum_congr rfl fun j hj => congrArg g ?_
  rw [mem_range] at hj
  omega

variable {bits : ℕ} (x : Fin (2 ^ (bits + 1)) → ℝ)

theorem re_turnedSum (j : ℕ) : -(turnedSum bits x j).re = cosineSum bits x (2 ^ bits + 2 * j) := by
  unfold turnedSum cosineSum
  rw [Complex.re_sum, sum_pairs]
  congr 1
  refine sum_congr rfl fun k _ => ?_
  rw [cosineAt_even_last rfl k.isLt, cosineAt_even_first rfl, Complex.mul_re,
    Complex.exp_ofReal_mul_I_re, Complex.exp_ofReal_mul_I_im]
  simp only [pairNumber]
  ring

theorem im_turnedSum {j m : ℕ} (hm : m + 2 * j + 1 = 3 * 2 ^ bits) :
    (turnedSum bits x j).im = cosineSum bits x m := by
  unfold turnedSum cosineSum
  rw [Complex.im_sum, sum_pairs, ← sum_neg_distrib]
  refine sum_congr rfl fun k _ => ?_
  rw [cosineAt_odd_last hm k.isLt, cosineAt_odd_first hm, Complex.mul_im,
    Complex.exp_ofReal_mul_I_re, Complex.exp_ofReal_mul_I_im]
  simp only [pairNumber]
  ring

theorem get_interleave (input : Vector ℝ (2 ^ (bits + 1))) (scratch : Vector (Phasor ℝ) (2 ^ bits))
    (i : Fin (2 ^ (bits + 1))) :
    (interleave bits (middle realPoint bits input scratch)).get i =
      cosineSum bits input.get (2 ^ bits + i) := by
  have inside := i.isLt
  have pair := get_middle bits input scratch ⟨i / 2, by omega⟩
  rw [get_eq_getElem] at pair
  simp only [interleave, get_eq_getElem, Vector.getElem_ofFn]
  rw [pair]
  split
  · show -(turnedSum bits input.get (i / 2)).re = _
    rw [re_turnedSum]
    congr 1
    omega
  · refine im_turnedSum input.get ?_
    rw [Fin.val_rev]
    dsimp only
    omega

/-! ### All samples -/

theorem cosineSum_reflect_first {m m' : ℕ} (hm : m + m' + 1 = 2 ^ (bits + 1)) :
    cosineSum bits x m = -cosineSum bits x m' := by
  unfold cosineSum
  rw [neg_neg, ← sum_neg_distrib]
  refine sum_congr rfl fun k _ => ?_
  rw [cosineAt_reflect_first hm, mul_neg, neg_neg]

theorem cosineSum_reflect_last {m m' : ℕ} (hm : m + m' + 1 = 3 * 2 ^ (bits + 1)) :
    cosineSum bits x m = cosineSum bits x m' := by
  unfold cosineSum
  congr 1
  refine sum_congr rfl fun k _ => ?_
  rw [cosineAt_reflect_last hm]

/-- Over exact arithmetic, a transform of `n = 2 ^ (bits + 2)` samples gives the sums of cosines of
its `n / 2` coefficients, whatever its scratch holds. -/
theorem full_eq_sum (bits : ℕ) (input : Vector ℝ (2 ^ (bits + 1)))
    (scratch : Vector (Phasor ℝ) (2 ^ bits)) (m : Fin (2 ^ (bits + 2))) :
    (full realPoint bits input scratch).get m =
      -∑ k : Fin (2 ^ (bits + 1)), input.get k *
        Real.cos (2 * π / 2 ^ (bits + 2) * (m + 1 / 2 + 2 ^ (bits + 2) / 4) * (k + 1 / 2)) := by
  show _ = cosineSum bits input.get m
  have whole : 2 ^ (bits + 2) = 4 * 2 ^ bits := by ring
  have inside := m.isLt
  have middle : ∀ {i : ℕ} (hi : i < 2 ^ (bits + 1)),
      (interleave bits (middle realPoint bits input scratch)).get ⟨i, hi⟩ =
        cosineSum bits input.get (2 ^ bits + i) := fun hi => get_interleave input scratch ⟨_, hi⟩
  rw [full, unfold, get_eq_getElem, Vector.getElem_ofFn]
  dsimp only
  split
  · rw [middle]
    exact (cosineSum_reflect_first input.get (by omega)).symm
  split
  · rw [middle]
    exact (cosineSum_reflect_last input.get (by omega)).symm
  · rw [middle]
    congr 1
    omega

end Wma.Imdct
