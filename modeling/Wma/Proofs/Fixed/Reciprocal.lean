import Mathlib.Algebra.Order.Ring.Abs
import Mathlib.Tactic.Linarith
import Mathlib.Tactic.LinearCombination
import Wma.Fixed.Root
import Wma.Proofs.Gives

/-!
# How good a reciprocal is

A step of Newton's iteration squares the error of a guess at a reciprocal, and adds what its two
roundings leave (`exists_mul_inverseStep`). The first guess is off by a sixteenth at most, so that no
product leaves its word (`checkedInverseAfter_eq_ok`) and after five steps only the roundings of the
last one are left, which are a few units of the quotient (`inverse_bounds`).
-/

namespace Wma

/-- The first guess is off by a sixteenth at most. -/
theorem abs_mul_inverseGuess_sub_le {x : Int} (hx : 2 ^ 30 ≤ x) (hx' : x < 2 ^ 31) :
    |x * inverseGuess x - 2 ^ 60| ≤ 2 ^ 56 := by
  unfold inverseGuess
  have floor := Int.ediv_mul_add_emod (1010580540 * x) (2 ^ 31)
  have rest := Int.emod_nonneg (1010580540 * x) (show (2 : Int) ^ 31 ≠ 0 by decide)
  have rest' := Int.emod_lt_of_pos (1010580540 * x) (show (0 : Int) < 2 ^ 31 by decide)
  generalize 1010580540 * x / 2 ^ 31 = q at floor ⊢
  generalize 1010580540 * x % 2 ^ 31 = s at floor rest rest'
  -- The exact guess is a parabola in `x`, whose top lies within the range.
  have top : 0 ≤ (2021161080 * x - 1515870810 * 2 ^ 31) * (2021161080 * x - 1515870810 * 2 ^ 31) :=
    mul_self_nonneg _
  have ends : 0 ≤ (x - 2 ^ 30) * (2 ^ 31 - x) := mul_nonneg (by omega) (by omega)
  have rounding : 0 ≤ x * s := mul_nonneg (by omega) rest
  have rounding' : x * s ≤ 2 ^ 31 * 2 ^ 31 := by nlinarith
  have product : x * q * 2 ^ 31 = 1010580540 * x * x - x * s := by linear_combination x * floor
  rw [abs_le]
  constructor <;> nlinarith

/-- A step squares the error, but for what its two roundings cut off. -/
theorem exists_mul_inverseStep (x y : Int) : ∃ s t : Int, 0 ≤ s ∧ s < 2 ^ 31 ∧ 0 ≤ t ∧ t < 2 ^ 29 ∧
    x * inverseStep x y * 2 ^ 60 =
      2 ^ 120 - (x * y - 2 ^ 60) * (x * y - 2 ^ 60) + x * y * s - 2 ^ 31 * (x * t) := by
  unfold inverseStep
  have inner := Int.ediv_mul_add_emod (x * y) (2 ^ 31)
  have outer := Int.ediv_mul_add_emod (y * (2 ^ 30 - x * y / 2 ^ 31)) (2 ^ 29)
  refine ⟨x * y % 2 ^ 31, y * (2 ^ 30 - x * y / 2 ^ 31) % 2 ^ 29, Int.emod_nonneg _ (by decide),
    Int.emod_lt_of_pos _ (by decide), Int.emod_nonneg _ (by decide),
    Int.emod_lt_of_pos _ (by decide), ?_⟩
  linear_combination 2 ^ 31 * x * outer - x * y * inner

theorem mul_inverseStep_range {x y e : Int} (hx : 0 ≤ x) (h : |x * y - 2 ^ 60| ≤ e)
    (he : e ≤ 2 ^ 56) : 2 ^ 120 - e * e - 2 ^ 60 * x ≤ x * inverseStep x y * 2 ^ 60 ∧
      x * inverseStep x y * 2 ^ 60 ≤ 2 ^ 120 + (2 ^ 60 + e) * 2 ^ 31 := by
  obtain ⟨low, high⟩ := abs_le.mp h
  obtain ⟨s, t, rest, rest', left, left', expansion⟩ := exists_mul_inverseStep x y
  have square : (x * y - 2 ^ 60) * (x * y - 2 ^ 60) ≤ e * e := by
    rw [← abs_mul_abs_self]
    exact mul_self_le_mul_self (abs_nonneg _) h
  have nonneg : 0 ≤ (x * y - 2 ^ 60) * (x * y - 2 ^ 60) := mul_self_nonneg _
  have first : 0 ≤ x * y * s := mul_nonneg (by omega) rest
  have first' : x * y * s ≤ (2 ^ 60 + e) * 2 ^ 31 :=
    mul_le_mul (by omega) (by omega) rest (by omega)
  have second : 0 ≤ x * t := mul_nonneg hx left
  have second' : x * t ≤ x * 2 ^ 29 := mul_le_mul_of_nonneg_left (by omega) hx
  generalize (x * y - 2 ^ 60) * (x * y - 2 ^ 60) = E at square expansion nonneg
  constructor <;> omega

/-- The roundings of a step are small. -/
theorem abs_mul_inverseStep_sub_le {x y e d : Int} (hx : 0 ≤ x) (hx' : x < 2 ^ 31)
    (h : |x * y - 2 ^ 60| ≤ e) (he : e ≤ 2 ^ 56) (hd : e * e + 2 ^ 92 ≤ d * 2 ^ 60) :
    |x * inverseStep x y - 2 ^ 60| ≤ d := by
  obtain ⟨low, high⟩ := mul_inverseStep_range hx h he
  have square : 0 ≤ e * e := mul_self_nonneg e
  rw [abs_le]
  constructor <;> omega

/-- After five steps little more is left than the roundings of the last one. -/
theorem mul_inverseAfter_range {x : Int} (hx : 2 ^ 30 ≤ x) (hx' : x < 2 ^ 31) :
    2 ^ 60 - 2 ^ 6 - x ≤ x * inverseAfter x 5 ∧
      x * inverseAfter x 5 ≤ 2 ^ 60 + 2 ^ 31 + 2 ^ 4 := by
  have first := abs_mul_inverseStep_sub_le (d := 2 ^ 53) (by omega) hx'
    (abs_mul_inverseGuess_sub_le hx hx') (by decide) (by decide)
  have second := abs_mul_inverseStep_sub_le (d := 2 ^ 47) (by omega) hx' first (by decide)
    (by decide)
  have third := abs_mul_inverseStep_sub_le (d := 2 ^ 35) (by omega) hx' second (by decide)
    (by decide)
  have fourth := abs_mul_inverseStep_sub_le (d := 2 ^ 33) (by omega) hx' third (by decide)
    (by decide)
  obtain ⟨low, high⟩ := mul_inverseStep_range (by omega) fourth (by decide)
  change _ ≤ x * inverseAfter x 5 * 2 ^ 60 at low
  change x * inverseAfter x 5 * 2 ^ 60 ≤ _ at high
  constructor <;> omega

/-- A guess that is close to the reciprocal is cut off at one half, if at all. -/
theorem cast_inverse {x : Nat} (hx : 2 ^ 30 ≤ x) (hx' : x < 2 ^ 31) :
    (inverse x : Int) = min (inverseAfter x 5) (2 ^ 30) := by
  have near := (mul_inverseAfter_range (x := x) (by omega) (by omega)).1
  have positive : 0 < inverseAfter x 5 := by
    by_contra negative
    have := mul_nonneg (show (0 : Int) ≤ x by omega) (show 0 ≤ -inverseAfter x 5 by omega)
    nlinarith
  unfold inverse
  omega

/-- A reciprocal is off by a few units. -/
theorem abs_mul_inverse_sub_le {x : Nat} (hx : 2 ^ 30 ≤ x) (hx' : x < 2 ^ 31) :
    |(x * inverse x : Int) - 2 ^ 60| ≤ 2 ^ 33 := by
  obtain ⟨low, high⟩ := mul_inverseAfter_range (x := x) (by omega) (by omega)
  rw [cast_inverse hx hx', abs_le]
  rcases le_total (inverseAfter x 5) (2 ^ 30) with within | beyond
  · rw [min_eq_left within]
    constructor <;> omega
  · rw [min_eq_right beyond]
    constructor <;> nlinarith

/-- The cut takes nothing off the quotient itself. -/
theorem inverse_bounds {x : Nat} (hx : 2 ^ 30 ≤ x) (hx' : x < 2 ^ 31) :
    2 ^ 60 / x ≤ inverse x + 1 ∧ inverse x ≤ 2 ^ 60 / x + 3 := by
  obtain ⟨low, high⟩ := mul_inverseAfter_range (x := x) (by omega) (by omega)
  have floor : x * (2 ^ 60 / x) ≤ 2 ^ 60 := Nat.mul_div_le (2 ^ 60) x
  have ceiling : 2 ^ 60 < x * (2 ^ 60 / x) + x := Nat.lt_mul_div_succ (2 ^ 60) (by omega)
  have most : 2 ^ 60 / x ≤ 2 ^ 30 := Nat.div_le_of_le_mul (by omega)
  have cut := cast_inverse hx hx'
  generalize inverseAfter x 5 = y at low high cut
  generalize 2 ^ 60 / x = q at floor ceiling most ⊢
  have below : (q : Int) < y + 2 := by
    by_contra far
    nlinarith
  have above : y < (q : Int) + 4 := by
    by_contra far
    nlinarith
  omega

/-! ### Products fit their words -/

/-- No guess is worse than the first one may be. -/
theorem abs_mul_inverseAfter_sub_le {x : Int} (hx : 2 ^ 30 ≤ x) (hx' : x < 2 ^ 31) :
    ∀ n, |x * inverseAfter x n - 2 ^ 60| ≤ 2 ^ 56
  | 0 => abs_mul_inverseGuess_sub_le hx hx'
  | n + 1 => abs_mul_inverseStep_sub_le (by omega) hx' (abs_mul_inverseAfter_sub_le hx hx' n)
      (by decide) (by decide)

theorem checkedInverseAfter_eq_ok {x : Int} (hx : 2 ^ 30 ≤ x) (hx' : x < 2 ^ 31) :
    ∀ n, checkedInverseAfter x n = .ok (inverseAfter x n)
  | 0 => bind_eq_ok (int64_eq_ok ⟨by omega, by omega⟩) rfl
  | n + 1 => by
    obtain ⟨low, high⟩ := abs_le.mp (abs_mul_inverseAfter_sub_le hx hx' n)
    have guess : 0 ≤ inverseAfter x n ∧ inverseAfter x n < 2 ^ 31 := by
      constructor <;> nlinarith
    refine bind_eq_ok (checkedInverseAfter_eq_ok hx hx' n)
      (bind_eq_ok (int64_eq_ok ⟨by omega, by omega⟩) (bind_eq_ok (int64_eq_ok ?_) rfl))
    have factor : |2 ^ 30 - x * inverseAfter x n / 2 ^ 31| ≤ 2 ^ 31 := abs_le.mpr ⟨by omega, by omega⟩
    have product : |inverseAfter x n * (2 ^ 30 - x * inverseAfter x n / 2 ^ 31)| ≤ 2 ^ 31 * 2 ^ 31 := by
      rw [abs_mul, abs_of_nonneg guess.1]
      exact mul_le_mul guess.2.le factor (abs_nonneg _) (by decide)
    rw [abs_le] at product
    exact ⟨by omega, by omega⟩

theorem checkedInverse_eq_ok {x : Nat} (hx : 2 ^ 30 ≤ x) (hx' : x < 2 ^ 31) :
    checkedInverse x = .ok (inverse x) :=
  bind_eq_ok (checkedInverseAfter_eq_ok (by omega) (by omega) 5) rfl

theorem inverse_le (x : Nat) : inverse x ≤ 2 ^ 30 := by
  unfold inverse
  omega

/-- The reciprocal of every number from one half up to one comes out, at the quotient or a few units
beside it, and no product on the way leaves its word. -/
theorem inverse_near_quotient {x : Nat} (hx : 2 ^ 30 ≤ x) (hx' : x < 2 ^ 31) :
    checkedInverse x = .ok (inverse x) ∧ inverse x ≤ 2 ^ 30 ∧
      |(inverse x : Int) - (2 ^ 60 / x : Nat)| ≤ 4 := by
  obtain ⟨low, high⟩ := inverse_bounds hx hx'
  refine ⟨checkedInverse_eq_ok hx hx', inverse_le x, ?_⟩
  rw [abs_le]
  constructor <;> omega

theorem inverse_near_quotient_two_off : 2 ^ 30 ≤ 1134617556 ∧ 1134617556 < 2 ^ 31 ∧
    checkedInverse 1134617556 = .ok 1016132264 ∧ 1016132264 ≤ 2 ^ 30 ∧
      |((1016132264 : Nat) : Int) - (2 ^ 60 / 1134617556 : Nat)| ≤ 4 := by
  have value : inverse 1134617556 = 1016132264 := by decide +kernel
  rw [← value]
  exact ⟨by decide, by decide, inverse_near_quotient (by decide) (by decide)⟩

end Wma
